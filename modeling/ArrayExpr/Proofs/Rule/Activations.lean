/-
Activations inside each other.

* `Rule.marked`: a rule with marks where each activation begins and ends;
* `openAfter`: the activations that a log leaves open, the innermost first;
* `Nested`: logs that are well bracketed, with every activation behind the first
  token of the one around it, and only so many inside each other; at each moment
  (`Nested.open_prefix`) and after the log (`Nested.closed`) this shows in
  `openAfter`;
* `Rule.Marks`: a rule does what a plain one does, and adds marks to its log that are
  nested; there is one lemma for each way to make rules from rules.
-/
import ArrayExpr.Proofs.Rule.Outcome

namespace ArrayExpr

/-! ### Marks in a log -/

namespace Visit

/-- The names of the marks. No rule has one of them. -/
def markNames : List String := ["enter", "leave"]

/-- An activation begins in front of the token with the given index. -/
def enter (index : ℕ) : Visit := ⟨"enter", index⟩

/-- The activation that began in front of the token with the given index ends. -/
def leave (index : ℕ) : Visit := ⟨"leave", index⟩

/-- Whether an entry of a log is a mark. -/
def isMark (v : Visit) : Bool := v.rule ∈ markNames

/-- The activations that are open after an entry of a log. -/
def turn (opened : List ℕ) (v : Visit) : List ℕ :=
  if v.rule = "enter" then v.index :: opened
  else if v.rule = "leave" then opened.tail
  else opened

/-- An activation begins on top of those that are open. -/
@[simp] lemma turn_enter (opened : List ℕ) (i : ℕ) : turn opened (enter i) = i :: opened := rfl

/-- The one on top ends. -/
@[simp] lemma turn_leave (opened : List ℕ) (i : ℕ) : turn opened (leave i) = opened.tail := rfl

/-- Visits of other names open and close nothing. -/
lemma turn_of_not_isMark {v : Visit} (hv : v.isMark = false) (opened : List ℕ) :
    turn opened v = opened := by
  simp only [isMark, markNames, List.mem_cons, List.not_mem_nil, or_false, decide_eq_false_iff_not,
    not_or] at hv
  rw [turn, if_neg hv.1, if_neg hv.2]

@[simp] lemma isMark_enter (i : ℕ) : (enter i).isMark = true := by simp [isMark, enter, markNames]

@[simp] lemma isMark_leave (i : ℕ) : (leave i).isMark = true := by simp [isMark, leave, markNames]

end Visit

/-- The activations that a log leaves open, the innermost first, each by the index of
its first token. -/
def openAfter (log : List Visit) : List ℕ := log.foldl Visit.turn []

/-! ### Nested logs -/

/-- Logs of activations that begin at the token `low` or behind it, each behind the
first token of the one around it, at most `deep` of them inside each other. -/
inductive Nested : (deep low : ℕ) → List Visit → Prop
  | nil {deep low : ℕ} : Nested deep low []
  | visit {deep low : ℕ} {v : Visit} {log : List Visit} (hv : v.isMark = false)
      (h : Nested deep low log) : Nested deep low (v :: log)
  | activation {deep low i : ℕ} {inner log : List Visit} (hi : low ≤ i)
      (hinner : Nested deep (i + 1) inner) (h : Nested (deep + 1) low log) :
      Nested (deep + 1) low (.enter i :: (inner ++ .leave i :: log))

namespace Nested

variable {deep low low' : ℕ} {log log' u : List Visit}

/-- Nested logs in a row are nested. -/
lemma append (h : Nested deep low log) (h' : Nested deep low log') :
    Nested deep low (log ++ log') := by
  induction h with
  | nil => exact h'
  | visit hv _ ih => exact .visit hv (ih h')
  | activation hi hinner _ _ ih =>
      rw [List.cons_append, List.append_assoc, List.cons_append]
      exact .activation hi hinner (ih h')

/-- What is nested above a bound is nested above a lower one. -/
lemma mono (h : Nested deep low log) (hle : low' ≤ low) : Nested deep low' log := by
  induction h with
  | nil => exact .nil
  | visit hv _ ih => exact .visit hv (ih hle)
  | activation hi hinner _ _ ih => exact .activation (hle.trans hi) hinner (ih hle)

/-- A nested log leaves no activation open. -/
lemma closed (h : Nested deep low log) (outer : List ℕ) : log.foldl Visit.turn outer = outer := by
  induction h generalizing outer with
  | nil => rfl
  | visit hv _ ih => rw [List.foldl_cons, Visit.turn_of_not_isMark hv, ih]
  | activation _ _ _ ih ih' =>
      rw [List.foldl_cons, List.foldl_append, ih, List.foldl_cons, ih', Visit.turn_enter,
        Visit.turn_leave, List.tail_cons]

/-- **At each moment of a nested log** at most `deep` activations are open, each
behind the first token of the one around it. -/
theorem open_prefix (h : Nested deep low log) (hu : u <+: log) (outer : List ℕ) :
    ∃ opened, u.foldl Visit.turn outer = opened ++ outer ∧ opened.length ≤ deep ∧
      opened.Pairwise (· > ·) ∧ ∀ i ∈ opened, low ≤ i := by
  have hnone : ∃ opened, outer = opened ++ outer ∧ opened.length ≤ deep ∧
      opened.Pairwise (· > ·) ∧ ∀ i ∈ opened, low ≤ i := ⟨[], by simp⟩
  induction h generalizing u outer with
  | nil =>
      rw [List.prefix_nil] at hu
      rw [hu]
      exact hnone
  | visit hv _ ih =>
      rcases List.prefix_cons_iff.mp hu with rfl | ⟨u', rfl, hu'⟩
      · exact hnone
      · rw [List.foldl_cons, Visit.turn_of_not_isMark hv]
        exact ih hu' outer hnone
  | @activation deep low i inner log hi hinner _ ih ih' =>
      rcases List.prefix_cons_iff.mp hu with rfl | ⟨u', rfl, hu'⟩
      · exact hnone
      rw [List.foldl_cons, Visit.turn_enter]
      rcases List.prefix_or_prefix_of_prefix hu' (List.prefix_append inner _) with hin | ⟨v, rfl⟩
      · -- In the midst of the activation it is open around those inside it.
        obtain ⟨opened, heq, hlen, hpair, hlow⟩ := ih hin (i :: outer) ⟨[], by simp⟩
        refine ⟨opened ++ [i], by rw [heq, List.append_assoc, List.singleton_append], ?_, ?_, ?_⟩
        · rw [List.length_append, List.length_singleton]
          omega
        · refine List.pairwise_append.mpr ⟨hpair, List.pairwise_singleton _ _, fun j hj k hk => ?_⟩
          rw [List.mem_singleton.mp hk]
          exact hlow j hj
        · intro j hj
          rcases List.mem_append.mp hj with hj | hj
          · have := hlow j hj
            omega
          · rw [List.mem_singleton.mp hj]
            exact hi
      · rw [List.foldl_append, hinner.closed]
        rcases List.prefix_cons_iff.mp ((List.prefix_append_right_inj inner).mp hu') with
          rfl | ⟨v', rfl, hv'⟩
        · exact ⟨[i], rfl, by simp, List.pairwise_singleton _ _, by simpa using hi⟩
        · rw [List.foldl_cons, Visit.turn_leave, List.tail_cons]
          exact ih' hv' outer hnone

end Nested

/-! ### Rules with marks -/

/-- A run that does what a plain one does, and adds marks to its log: they are nested
no deeper than `deep`, and none begins in front of the token `low`. -/
structure Run.Marks {α : Type} (run plain : Run α) (s : TokenStream) (deep low : ℕ) : Prop where
  outcome : run.outcome = plain.outcome
  erased : run.visits.filter (!·.isMark) = plain.visits
  nested : Nested deep low run.visits
  forward : ∀ {a rest}, run.outcome = .success a rest → ∃ w, s.Passes w rest

namespace Run.Marks

variable {α β : Type} {run plain : Run α} {run' plain' : Run β} {s s' : TokenStream}
  {deep low low' : ℕ}

/-- Both runs end alike, and the plain one has the log without the marks. -/
lemma exists_log (h : run.Marks plain s deep low) :
    ∃ outcome visits, run = ⟨outcome, visits⟩ ∧
      plain = ⟨outcome, visits.filter (!·.isMark)⟩ := by
  obtain ⟨outcome, visits⟩ := run
  obtain ⟨outcome', visits'⟩ := plain
  obtain rfl : outcome = outcome' := h.outcome
  obtain rfl : visits.filter (!·.isMark) = visits' := h.erased
  exact ⟨outcome, visits, rfl, rfl⟩

/-- Another outcome in place of the one of both runs. -/
lemma revise (h : run.Marks plain s deep low) {o : Outcome β}
    (ho : ∀ b rest, o = .success b rest → ∃ w, s.Passes w rest) :
    (⟨o, run.visits⟩ : Run β).Marks ⟨o, plain.visits⟩ s deep low :=
  ⟨rfl, h.erased, h.nested, fun h' => ho _ _ h'⟩

/-- A run after another one, in front of the stream where that one ends or of an
earlier one. -/
lemma after {w : List Token} (h : run.Marks plain s deep low) (hp : s.Passes w s')
    (h' : run'.Marks plain' s' deep low') (hlow : low ≤ low') :
    (run'.afterVisits run.visits).Marks (plain'.afterVisits plain.visits) s deep low := by
  refine ⟨h'.outcome, ?_, ?_, fun ho => ?_⟩
  · simp only [Run.afterVisits, joinVisits_eq, List.filter_append, h.erased, h'.erased]
  · simp only [Run.afterVisits, joinVisits_eq]
    exact h.nested.append (h'.nested.mono hlow)
  · obtain ⟨w', hw'⟩ := h'.forward ho
    exact ⟨w ++ w', hp.append hw'⟩

end Run.Marks

namespace Rule

/-- A rule with marks where each activation begins and ends. -/
def marked {α : Type} (r : Rule α) : Rule α := fun s =>
  ⟨(r s).outcome, .enter s.index :: ((r s).visits ++ [.leave s.index])⟩

/-- A rule does what a plain one does, and adds nested marks to its log, none of them
in front of the first `skip` tokens. -/
def Marks {α : Type} (r plain : Rule α) (deep skip : ℕ) : Prop :=
  ∀ s : TokenStream, s.Ordered → (r s).Marks (plain s) s deep (s.index + skip)

variable {α β σ : Type} {r r' : Rule α} {f f' : α → Rule β} {deep skip skip' : ℕ}

/-- Marks around an activation whose own activations all begin behind its first
token. -/
lemma Marks.marked (h : r.Marks r' deep 1) : r.marked.Marks r' (deep + 1) 0 := by
  intro s hs
  refine ⟨(h s hs).outcome, ?_, .activation le_rfl (h s hs).nested .nil, (h s hs).forward⟩
  simp [Rule.marked, (h s hs).erased]

/-! ### Rules in a row -/

/-- **Rules in a row**, where the second one starts behind what the first one may
mark. -/
lemma Marks.bind_behind (hr : r.Marks r' deep skip) (hf : ∀ a, (f a).Marks (f' a) deep skip')
    (hskip : ∀ s a rest, s.Ordered → r.Gives s a rest → s.index + skip ≤ rest.index + skip') :
    (r >>= f).Marks (r' >>= f') deep skip := by
  intro s hs
  have h := hr s hs
  have hbehind := fun a rest => hskip s a rest hs
  simp only [bind_run, Gives] at hbehind ⊢
  generalize r s = run at h hbehind
  generalize r' s = plain at h
  obtain ⟨outcome, visits, rfl, rfl⟩ := h.exists_log
  cases outcome with
  | success a rest =>
      obtain ⟨w, hw⟩ := h.forward rfl
      exact h.after hw (hf a rest (hs.passes hw)) (hbehind a rest rfl)
  | failure g => exact h.revise fun _ _ ho => by cases ho
  | overlong n => exact h.revise fun _ _ ho => by cases ho

/-- Rules in a row: the second one starts no earlier than the first. -/
lemma Marks.bind (hr : r.Marks r' deep skip) (hf : ∀ a, (f a).Marks (f' a) deep skip) :
    (r >>= f).Marks (r' >>= f') deep skip := by
  refine hr.bind_behind hf fun s a rest hs h => ?_
  obtain ⟨w, hw⟩ := (hr s hs).forward h
  have := hw.index_eq
  omega

/-! ### Single steps -/

/-- A rule without visits is plain. -/
lemma marks_of_visits_nil (hv : ∀ s, (r s).visits = [])
    (hforward : ∀ s a rest, s.Ordered → r.Gives s a rest → ∃ w, s.Passes w rest) :
    r.Marks r deep skip :=
  fun s hs => ⟨rfl, by simp [hv s], by rw [hv s]; exact .nil, fun ho => hforward s _ _ hs ho⟩

/-- A value marks nothing. -/
lemma marks_pure (a : α) : (pure a : Rule α).Marks (pure a) deep skip :=
  marks_of_visits_nil (fun _ => rfl) fun _ _ _ _ h => ⟨[], (gives_pure.mp h).2⟩

/-- A look at the stream marks nothing. -/
lemma marks_stream : stream.Marks stream deep skip :=
  marks_of_visits_nil (fun _ => rfl) fun _ _ _ _ h => ⟨[], (gives_stream.mp h).2⟩

/-- Nor does a look at the current token. -/
lemma marks_current : current.Marks current deep skip :=
  marks_of_visits_nil (fun _ => rfl) fun _ _ _ _ h => ⟨[], (gives_current.mp h).2⟩

/-- A step marks nothing. -/
lemma marks_advance : advance.Marks advance deep skip :=
  marks_of_visits_nil (fun _ => rfl) fun s _ _ _ h => gives_advance.mp h ▸ s.exists_passes_advance

/-- A failure marks nothing. -/
lemma marks_fail (e : TokenStream → Failure) : (fail e : Rule α).Marks (fail e) deep skip :=
  marks_of_visits_nil (fun _ => rfl) fun _ _ _ _ h => absurd h not_gives_fail

/-- Nor does an integer that is too long. -/
lemma marks_overlong (n : ℕ) : (overlong n : Rule α).Marks (overlong n) deep skip :=
  marks_of_visits_nil (fun _ => rfl) fun _ _ _ _ h => absurd h not_gives_overlong

lemma token_visits (kind : Kind) (what : Option String) (opener : Option Token)
    (s : TokenStream) : (token kind what opener s).visits = [] := by
  cases opener <;> simp only [token] <;> split_ifs <;> rfl

/-- A token marks nothing. -/
lemma marks_token (kind : Kind) (what : Option String) (opener : Option Token) :
    (token kind what opener).Marks (token kind what opener) deep skip :=
  marks_of_visits_nil (token_visits kind what opener) fun s _ _ _ h =>
    (gives_token.mp h).2.2 ▸ s.exists_passes_advance

/-- A visit under a name of its own is no mark. -/
lemma marks_visit {name : String} (hname : name ∉ Visit.markNames) :
    (visit name).Marks (visit name) deep skip := by
  have hplain : ∀ i, Visit.isMark ⟨name, i⟩ = false := fun i => decide_eq_false hname
  refine fun s _ => ⟨rfl, ?_, .visit (hplain _) .nil, fun ho => ⟨[], gives_visit.mp ho⟩⟩
  simp [visit, hplain]

/-- What stands behind a proper token may have marks in front of its own first token. -/
lemma Marks.behind_token {kind : Kind} (hk : kind ≠ .finish) (what : Option String)
    (opener : Option Token) {f f' : Token → Rule β} (hf : ∀ t, (f t).Marks (f' t) deep 0) :
    (token kind what opener >>= f).Marks (token kind what opener >>= f') deep 1 := by
  refine (marks_token kind what opener).bind_behind hf fun s t rest hs h => ?_
  obtain ⟨hkind, rfl, rfl⟩ := gives_token.mp h
  rw [TokenStream.advance_index (hs.peek_current (hkind ▸ hk)), Nat.add_zero]

/-! ### Rules from rules -/

/-- An attempt keeps the log of its rule. -/
lemma Marks.attempt (h : r.Marks r' deep skip) : (attempt r).Marks (attempt r') deep skip := by
  intro s hs
  have hr := h s hs
  rw [Rule.attempt, Rule.attempt]
  generalize r s = run at hr
  generalize r' s = plain at hr
  obtain ⟨outcome, visits, rfl, rfl⟩ := hr.exists_log
  cases outcome with
  | success a rest => exact hr.revise fun _ _ ho => by cases ho; exact hr.forward rfl
  | overlong n => exact hr.revise fun _ _ ho => by cases ho
  | failure g =>
      dsimp only
      split_ifs
      · exact hr.revise fun _ _ ho => by cases ho; exact ⟨[], rfl⟩
      · exact hr.revise fun _ _ ho => by cases ho

/-- A name for what was expected keeps the log. -/
lemma Marks.called (h : r.Marks r' deep skip) (what : String) :
    (called what r).Marks (called what r') deep skip := by
  intro s hs
  have hr := h s hs
  rw [Rule.called, Rule.called]
  generalize r s = run at hr
  generalize r' s = plain at hr
  obtain ⟨outcome, visits, rfl, rfl⟩ := hr.exists_log
  cases outcome with
  | failure g => exact hr.revise fun _ _ ho => by cases ho
  | _ => exact hr

/-- So does the name of an alternative. -/
lemma Marks.alternative (h : r.Marks r' deep skip) (name : String) :
    (alternative name r).Marks (alternative name r') deep skip := by
  intro s hs
  have hr := h s hs
  rw [Rule.alternative, Rule.alternative]
  generalize r s = run at hr
  generalize r' s = plain at hr
  obtain ⟨outcome, visits, rfl, rfl⟩ := hr.exists_log
  cases outcome with
  | failure g => exact hr.revise fun _ _ ho => by cases ho
  | _ => exact hr

/-- So does a span. -/
lemma Marks.spanned (h : r.Marks r' deep skip) : (spanned r).Marks (spanned r') deep skip :=
  marks_stream.bind fun _ => h.bind fun _ => marks_stream.bind fun _ => marks_pure _

/-- A choice marks what the alternatives mark that it tries. -/
lemma marks_choice {first first' : String × Rule α} {others others' : List (String × Rule α)}
    (h : first.1 = first'.1 ∧ first.2.Marks first'.2 deep skip)
    (hothers : List.Forall₂ (fun p p' => p.1 = p'.1 ∧ p.2.Marks p'.2 deep skip) others others') :
    (choice first others).Marks (choice first' others') deep skip := by
  induction hothers generalizing first first' with
  | nil =>
      rw [choice_nil, choice_nil, h.1]
      exact h.2.alternative _
  | @cons next next' others others' hnext _ ih =>
      intro s hs
      have hfirst := h.2.alternative first'.1 s hs
      have hrest := ih hnext s hs
      simp only [choice, h.1]
      generalize Rule.alternative first'.1 first.2 s = run at hfirst
      generalize Rule.alternative first'.1 first'.2 s = plain at hfirst
      obtain ⟨outcome, visits, rfl, rfl⟩ := hfirst.exists_log
      cases outcome with
      | success a rest => exact hfirst
      | overlong n => exact hfirst
      | failure g =>
          dsimp only
          split_ifs
          · generalize choice next others s = run' at hrest
            generalize choice next' others' s = plain' at hrest
            obtain ⟨outcome', more, rfl, rfl⟩ := hrest.exists_log
            refine hfirst.after (TokenStream.passes_nil_iff.mpr rfl) ?_ le_rfl
            cases outcome' with
            | failure g' => exact hrest.revise fun _ _ ho => by cases ho
            | _ => exact hrest
          · exact hfirst

/-! ### Repetition -/

/-- A repetition, by induction on its fuel. -/
lemma marks_collectWithin {step step' : σ → Rule (Option (β × σ))}
    (h : ∀ state, (step state).Marks (step' state) deep skip) (fuel : List Token) (state : σ) :
    (collectWithin step fuel state).Marks (collectWithin step' fuel state) deep skip := by
  induction fuel generalizing state with
  | nil =>
      rw [collectWithin, collectWithin]
      refine (h state).bind fun next => ?_
      rcases next with _ | ⟨b, next⟩ <;> exact marks_pure _
  | cons t fuel ih =>
      rw [collectWithin, collectWithin]
      refine (h state).bind fun next => ?_
      rcases next with _ | ⟨b, next⟩
      · exact marks_pure _
      · exact (ih next).bind fun _ => marks_pure _

/-- A repetition with fuel for all tokens ahead. -/
lemma marks_collect {step step' : σ → Rule (Option (β × σ))}
    (h : ∀ state, (step state).Marks (step' state) deep skip) (state : σ) :
    (collect step state).Marks (collect step' state) deep skip :=
  fun s hs => marks_collectWithin h s.ahead state s hs

/-- A repetition without state. -/
lemma Marks.many {step step' : Rule (Option β)} (h : step.Marks step' deep skip) :
    (many step).Marks (many step') deep skip :=
  marks_collect (fun _ => h.bind fun _ => marks_pure _) ()

/-! ### Lists -/

/-- An item that is read where the style of the list allows it. -/
lemma Marks.itemWhere (h : r.Marks r' deep skip) (may : Bool) :
    (itemWhere may r).Marks (itemWhere may r') deep skip := by
  cases may with
  | true => exact h.attempt
  | false => exact h.bind fun _ => marks_pure _

/-- A separator with the item behind it. -/
lemma Marks.furtherItem (h : r.Marks r' deep skip) (style : ListStyle) (separator : Kind) :
    (furtherItem style separator r).Marks (furtherItem style separator r') deep skip :=
  marks_current.bind fun t => by
    split_ifs
    · exact marks_advance.bind fun _ => h.itemWhere _
    · exact marks_pure _

/-- A list under a name of its own. -/
lemma Marks.separatedList (h : r.Marks r' deep skip) {name : String}
    (hname : name ∉ Visit.markNames) (style : ListStyle) (separator : Kind) :
    (separatedList name style separator r).Marks (separatedList name style separator r')
      deep skip :=
  (marks_visit hname).bind fun _ => (h.itemWhere style.empty).bind fun first => by
    cases first with
    | none => exact marks_pure _
    | some first => exact (h.furtherItem style separator).many.bind fun _ => marks_pure _

end Rule

end ArrayExpr
