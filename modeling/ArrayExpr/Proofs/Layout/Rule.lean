/-
Rules run on two layouts.

* `Layouts.Runs`: runs that end alike and pay the same visits, or of which the
  first one failed because of its tighter nesting limit;
* `Layouts.Agree`: two rules whose runs do so in front of corresponding
  streams, and which read at least a given number of tokens;
* `Agree.bind`, `agree_current` and those after them: one lemma for each way to
  make rules from rules.
-/
import ArrayExpr.Proofs.Layout.Tree
import ArrayExpr.Proofs.Rule.Outcome

namespace ArrayExpr

namespace Layouts

open Rule

/-- Runs that end alike in both layouts, after at least `least` tokens where
they succeed. Under a tighter nesting limit the first run may be cut off: it
then says nothing about the second. -/
inductive Runs (L : Layouts) (tighter : Prop) {α : Type} (R : α → α → Prop) (least : ℕ) :
    Run α → Run α → Prop
  | success {a a' : α} {rest rest' : TokenStream} {visits : List Visit} (value : R a a')
      (streams : L.Streams rest rest') (moved : least ≤ rest.index) :
      Runs L tighter R least ⟨.success a rest, visits⟩ ⟨.success a' rest', visits⟩
  | failure {g g' : Failure} {visits : List Visit} (failures : L.Failures g g') :
      Runs L tighter R least ⟨.failure g, visits⟩ ⟨.failure g', visits⟩
  | overlong (n : ℕ) (visits : List Visit) :
      Runs L tighter R least ⟨.overlong n, visits⟩ ⟨.overlong n, visits⟩
  | cut {g : Failure} {visits : List Visit} {run' : Run α} (h : tighter)
      (deep : g.kind = .nestingTooDeep) : Runs L tighter R least ⟨.failure g, visits⟩ run'

/-- Rules that end alike in front of corresponding streams and read at least
`p` tokens where they succeed. -/
def Agree (L : Layouts) (tighter : Prop) {α : Type} (R : α → α → Prop) (p : ℕ) (r r' : Rule α) :
    Prop :=
  ∀ s s', L.Streams s s' → L.Runs tighter R (s.index + p) (r s) (r' s')

variable {L : Layouts} {tighter : Prop} {α β σ : Type} {R : α → α → Prop} {S : β → β → Prop}
  {Q : σ → σ → Prop} {p q m n : ℕ} {r r' : Rule α} {f f' : α → Rule β} {run run' : Run α}
  {s s' : TokenStream}

/-! ### Runs -/

/-- The same visits before two runs keep them matched. -/
lemma Runs.afterVisits (h : L.Runs tighter R m run run') (visits : List Visit) :
    L.Runs tighter R m (run.afterVisits visits) (run'.afterVisits visits) := by
  cases h with
  | success value streams moved => exact .success value streams moved
  | failure failures => exact .failure failures
  | overlong n more => exact .overlong n _
  | cut h deep => exact .cut h deep

/-- What is known of a run that read more is known of one that read less. -/
lemma Runs.of_le (h : L.Runs tighter R m run run') (hnm : n ≤ m) :
    L.Runs tighter R n run run' := by
  cases h with
  | success value streams moved => exact .success value streams (hnm.trans moved)
  | failure failures => exact .failure failures
  | overlong n visits => exact .overlong n visits
  | cut h deep => exact .cut h deep

/-- A rule that is sure to read so many tokens reads fewer. -/
lemma Agree.of_le (h : L.Agree tighter R p r r') (hqp : q ≤ p) : L.Agree tighter R q r r' :=
  fun s s' hs => (h s s' hs).of_le (Nat.add_le_add_left hqp _)

/-- A bracket too many is not recovered from. -/
lemma not_isRecoverable_of_deep {g : Failure} (h : g.kind = .nestingTooDeep) :
    g.isRecoverable = false := by
  rw [Failure.isRecoverable, h]
  rfl

/-- No rule declines with it: under the tighter limit it ends the parse. -/
lemma not_declinesAt_of_deep {g : Failure} (h : g.kind = .nestingTooDeep) (s : TokenStream) :
    g.declinesAt s = false := by
  rw [Failure.declinesAt, not_isRecoverable_of_deep h, Bool.false_and]

/-! ### Rules in a row -/

/-- Matched values are given in front of matched streams. -/
lemma agree_pure {a a' : α} (h : R a a') : L.Agree tighter R 0 (pure a) (pure a') :=
  fun _ _ hs => .success h hs (Nat.le_refl _)

/-- **Rules in a row.** The second ones start in front of matched streams with
matched values; where the tighter run is cut off in the first, the second has
nothing to say. -/
lemma Agree.bind (hr : L.Agree tighter R p r r')
    (hf : ∀ a a', R a a' → L.Agree tighter S 0 (f a) (f' a')) :
    L.Agree tighter S p (r >>= f) (r' >>= f') := by
  intro s s' hs
  have h := hr s s' hs
  rw [bind_run, bind_run]
  generalize r s = run at h
  generalize r' s' = run' at h
  cases h with
  | @success a a' rest rest' visits value streams moved =>
      exact ((hf a a' value rest rest' streams).of_le moved).afterVisits visits
  | failure failures => exact .failure failures
  | overlong n visits => exact .overlong n visits
  | cut h deep => exact .cut h deep

/-- A last step that reads nothing. -/
lemma Agree.bind_pure {k k' : α → β} (hr : L.Agree tighter R p r r')
    (hk : ∀ a a', R a a' → S (k a) (k' a')) :
    L.Agree tighter S p (r >>= fun a => pure (k a)) (r' >>= fun a => pure (k' a)) :=
  hr.bind fun a a' h => agree_pure (hk a a' h)

/-! ### Single steps -/

/-- A look at the stream gives matched streams. -/
lemma agree_stream : L.Agree tighter L.Streams 0 stream stream :=
  fun _ _ hs => .success hs hs (Nat.le_refl _)

/-- A rule that looks at the token ahead first. -/
lemma agree_current {f f' : Token → Rule α}
    (h : ∀ s s', L.Streams s s' → L.Runs tighter R (s.index + p) (f s.current s)
      (f' s'.current s')) : L.Agree tighter R p (current >>= f) (current >>= f') :=
  fun s s' hs => (h s s' hs).afterVisits []

/-- A step does not lead back. -/
lemma Streams.index_le_advance (h : L.Streams s s') : s.index ≤ s.advance.index := by
  by_cases hk : s.current.kind = .finish
  · rw [TokenStream.advance]
    split
    · exact Nat.le_refl _
    · exact Nat.le_succ _
  · rw [h.advance_index hk]
    exact Nat.le_succ _

/-- A step leads to matched streams. -/
lemma agree_advance : L.Agree tighter (fun _ _ => True) 0 advance advance :=
  fun _ _ hs => .success trivial hs.advance hs.index_le_advance

/-- A visit is logged on both sides under one name and index. -/
lemma agree_visit (name : String) : L.Agree tighter (fun _ _ => True) 0 (visit name) (visit name) :=
  fun s s' hs => by
    rw [visit, visit, hs.index_eq]
    exact .success trivial hs (Nat.le_of_eq hs.index_eq.symm)

/-- Failures that are matched in front of matched streams. -/
lemma agree_fail {e e' : TokenStream → Failure}
    (h : ∀ s s', L.Streams s s' → L.Failures (e s) (e' s')) :
    L.Agree tighter R p (fail e) (fail e') :=
  fun s s' hs => .failure (h s s' hs)

/-- An integer is too long on both sides, since its text is the same. -/
lemma agree_overlong (n : ℕ) : L.Agree tighter R p (Rule.overlong n) (Rule.overlong n) :=
  fun _ _ _ => .overlong n []

/-- A token is read on both sides or refused on both; the end of a text is
excluded, as nothing stands behind it. -/
lemma agree_token {kind : Kind} (hk : kind ≠ .finish) (what : Option String)
    {opener opener' : Option Token} (ho : Option.Rel L.Same opener opener') :
    L.Agree tighter L.Same 1 (token kind what opener) (token kind what opener') := by
  intro s s' hs
  simp only [token, ← hs.kind_eq]
  split
  · next h => exact .success hs.current hs.advance (hs.advance_index (h ▸ hk)).ge
  · cases ho with
    | none => exact .failure (hs.unexpected (.named _))
    | some ho =>
        simp only [← hs.atEnd_eq]
        split
        · exact .failure (hs.ofKind _ (.closing _ ho))
        · exact .failure (hs.unexpected (.named _))

/-! ### Rules from rules -/

/-- An attempt declines on both sides or on neither, since matched failures lie
at matched places. -/
lemma Agree.attempt (hr : L.Agree tighter R p r r') :
    L.Agree tighter (Option.Rel R) 0 (attempt r) (attempt r') := by
  intro s s' hs
  have h := hr s s' hs
  rw [Rule.attempt, Rule.attempt]
  generalize r s = run at h
  generalize r' s' = run' at h
  cases h with
  | success value streams moved => exact .success (.some value) streams (by omega)
  | failure failures =>
      dsimp only
      rw [hs.declinesAt_eq failures]
      split
      · exact .success .none hs (Nat.le_refl _)
      · exact .failure failures
  | overlong n visits => exact .overlong n visits
  | @cut g visits run' h deep =>
      simp only [not_declinesAt_of_deep deep]
      exact .cut h deep

/-- A name for what was expected is put on both failures. -/
lemma Agree.called (what : String) (hr : L.Agree tighter R p r r') :
    L.Agree tighter R p (called what r) (called what r') := by
  intro s s' hs
  have h := hr s s' hs
  rw [Rule.called, Rule.called]
  generalize r s = run at h
  generalize r' s' = run' at h
  cases h with
  | success value streams moved => exact .success value streams moved
  | failure failures =>
      dsimp only
      rw [hs.declinesAt_eq failures]
      split
      · exact .failure (hs.unexpected (.named what))
      · exact .failure failures
  | overlong n visits => exact .overlong n visits
  | @cut g visits run' h deep =>
      simp only [not_declinesAt_of_deep deep]
      exact .cut h deep

/-- The span of a rule that reads a token. -/
lemma Agree.spanned (hr : L.Agree tighter R (p + 1) r r') :
    L.Agree tighter (fun x x' => R x.1 x'.1 ∧ L.Spans x.2 x'.2) (p + 1) (spanned r)
      (spanned r') := by
  intro s s' hs
  have h := hr s s' hs
  rw [Rule.spanned, Rule.spanned]
  simp only [bind_run, stream, pure_run, Run.afterVisits]
  generalize r s = run at h
  generalize r' s' = run' at h
  cases h with
  | success value streams moved =>
      exact .success ⟨value, hs.spanFrom streams (by omega)⟩ streams moved
  | failure failures => exact .failure failures
  | overlong n visits => exact .overlong n _
  | cut h deep => exact .cut h deep

/-! ### Repetition -/

/-- A step of a repetition that gives related values and states. -/
def StepRel (S : β → β → Prop) (Q : σ → σ → Prop) : Option (β × σ) → Option (β × σ) → Prop :=
  Option.Rel fun x x' => S x.1 x'.1 ∧ Q x.2 x'.2

/-- A repetition, by induction on the fuel that both sides have. -/
lemma agree_collectWithin {step step' : σ → Rule (Option (β × σ))}
    (h : ∀ a a', Q a a' → L.Agree tighter (StepRel S Q) 0 (step a) (step' a'))
    {fuel fuel' : List Token} (hlen : fuel.length = fuel'.length) {state state' : σ}
    (hstate : Q state state') :
    L.Agree tighter (List.Forall₂ S) 0 (collectWithin step fuel state)
      (collectWithin step' fuel' state') := by
  -- Both streams have equally many tokens ahead, so that both runs spend their fuel alike.
  induction fuel generalizing fuel' state state' with
  | nil =>
      obtain rfl := List.length_eq_zero_iff.mp hlen.symm
      rw [collectWithin, collectWithin]
      refine (h _ _ hstate).bind fun next next' hnext => ?_
      cases hnext with
      | none => exact agree_pure .nil
      | some hnext => exact agree_pure (.cons hnext.1 .nil)
  | cons t fuel ih =>
      obtain ⟨t', fuel', rfl⟩ := List.exists_cons_of_length_eq_add_one hlen.symm
      rw [collectWithin, collectWithin]
      refine (h _ _ hstate).bind fun next next' hnext => ?_
      cases hnext with
      | none => exact agree_pure .nil
      | some hnext =>
          exact (ih (Nat.succ.inj hlen) hnext.2).bind_pure fun rest rest' hrest =>
            .cons hnext.1 hrest

/-- A repetition with fuel for all tokens ahead; matched streams have as many. -/
lemma agree_collect {step step' : σ → Rule (Option (β × σ))}
    (h : ∀ a a', Q a a' → L.Agree tighter (StepRel S Q) 0 (step a) (step' a'))
    {state state' : σ} (hstate : Q state state') :
    L.Agree tighter (List.Forall₂ S) 0 (collect step state) (collect step' state') :=
  fun s s' hs => agree_collectWithin h hs.ahead_length hstate s s' hs

/-- A repetition without state. -/
lemma Agree.many {step step' : Rule (Option β)}
    (h : L.Agree tighter (Option.Rel S) 0 step step') :
    L.Agree tighter (List.Forall₂ S) 0 (many step) (many step') :=
  agree_collect (Q := fun _ _ => True) (fun _ _ _ => h.bind_pure fun b b' hb => by
    cases hb with
    | none => exact .none
    | some hb => exact .some ⟨hb, trivial⟩) trivial

/-! ### Choices and lists -/

/-- The name of an alternative is put on both failures. -/
lemma Agree.alternative (name : String) (hr : L.Agree tighter R p r r') :
    L.Agree tighter R p (alternative name r) (alternative name r') := by
  intro s s' hs
  have h := hr s s' hs
  rw [Rule.alternative, Rule.alternative]
  generalize r s = run at h
  generalize r' s' = run' at h
  cases h with
  | success value streams moved => exact .success value streams moved
  | failure failures => exact .failure (failures.inAlternative name)
  | overlong n visits => exact .overlong n visits
  | cut h deep => exact .cut h (by rw [Failure.inAlternative_kind, deep])

/-- Alternatives that agree one by one. -/
def Alternative (L : Layouts) (tighter : Prop) (R : α → α → Prop) (p : ℕ)
    (r r' : String × Rule α) : Prop :=
  r.1 = r'.1 ∧ L.Agree tighter R p r.2 r'.2

/-- The failure that lies further on is the same on both sides. -/
lemma Runs.keepFurthest {g g' : Failure} (hg : L.Failures g g')
    (h : L.Runs tighter R m run run') :
    L.Runs tighter R m (keepFurthest g run) (keepFurthest g' run') := by
  cases h with
  | success value streams moved => exact .success value streams moved
  | overlong n visits => exact .overlong n visits
  | @cut e visits run' h deep =>
      simp only [Rule.keepFurthest, not_isRecoverable_of_deep deep]
      exact .cut h deep
  | @failure e e' visits failures =>
      simp only [Rule.keepFurthest, ← failures.isRecoverable_eq]
      split
      · exact .failure (hg.furthest failures)
      · exact .failure failures

/-- **Choices between alternatives that agree.** -/
lemma agree_choice {first first' : String × Rule α} {others others' : List (String × Rule α)}
    (hfirst : L.Alternative tighter R p first first')
    (hothers : List.Forall₂ (L.Alternative tighter R p) others others') :
    L.Agree tighter R p (choice first others) (choice first' others') := by
  induction hothers generalizing first first' with
  | nil =>
      obtain ⟨name, r⟩ := first
      obtain ⟨name', r'⟩ := first'
      obtain ⟨rfl, hr⟩ := hfirst
      exact hr.alternative name
  | @cons next next' others others' hnext _ ih =>
      obtain ⟨name, r⟩ := first
      obtain ⟨name', r'⟩ := first'
      obtain ⟨rfl, hr⟩ := hfirst
      intro s s' hs
      have h := hr.alternative name s s' hs
      have hrest := ih hnext s s' hs
      generalize hrun : Rule.alternative name r s = run at h
      generalize hrun' : Rule.alternative name r' s' = run' at h
      cases h with
      | success value streams moved =>
          simp only [choice, hrun, hrun']
          exact .success value streams moved
      | overlong n visits =>
          simp only [choice, hrun, hrun']
          exact .overlong n visits
      | @cut g visits run' h deep =>
          simp only [choice, hrun, not_isRecoverable_of_deep deep]
          exact .cut h deep
      | @failure g g' visits failures =>
          have hrec := failures.isRecoverable_eq
          cases hg : g.isRecoverable with
          | true =>
              rw [choice_of_refused hrun hg, choice_of_refused hrun' (hrec ▸ hg)]
              exact (hrest.keepFurthest failures).afterVisits visits
          | false =>
              simp only [choice, hrun, hrun', ← hrec, hg]
              exact .failure failures

/-- An item that is read where the style of the list allows it. -/
lemma Agree.itemWhere (may : Bool) (hr : L.Agree tighter R 0 r r') :
    L.Agree tighter (Option.Rel R) 0 (itemWhere may r) (itemWhere may r') := by
  cases may with
  | true => exact hr.attempt
  | false => exact hr.bind_pure fun _ _ h => .some h

/-- A separator with the item behind it. -/
lemma Agree.furtherItem (style : ListStyle) (separator : Kind) (hr : L.Agree tighter R 0 r r') :
    L.Agree tighter (Option.Rel R) 0 (furtherItem style separator r)
      (furtherItem style separator r') :=
  agree_current fun s s' hs => by
    rw [← hs.kind_eq]
    split_ifs
    · exact (agree_advance.bind fun _ _ _ => hr.itemWhere _) s s' hs
    · exact agree_pure .none s s' hs

/-- **A list**: its items are matched one by one. -/
lemma Agree.separatedList (name : String) (style : ListStyle) (separator : Kind)
    (hr : L.Agree tighter R 0 r r') :
    L.Agree tighter (List.Forall₂ R) 0 (separatedList name style separator r)
      (separatedList name style separator r') := by
  refine (agree_visit name).bind fun _ _ _ => (hr.itemWhere _).bind fun first first' hfirst => ?_
  cases hfirst with
  | none => exact agree_pure .nil
  | some hfirst =>
      exact (hr.furtherItem style separator).many.bind_pure fun others others' hothers =>
        .cons hfirst hothers

end Layouts

end ArrayExpr
