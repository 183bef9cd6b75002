/-
Where rules stop and where they fail.

* `Failure.LiesAt`: a failure raised in front of a stream;
* `Rule.Onward`: a rule ends, or raises its failure, in front of its own stream or a
  later one;
* `Rule.Tells`: a failure that leaves room for another rule stands at the token ahead
  exactly if that token does not start the rule;
* `Rule.Starts`: besides, a rule that succeeds has read a token that starts it;
* `Rule.Committed`: a rule that may read nothing, but never fails in front of its first
  token where another rule might be tried;
* `Starts.bind`, `starts_choice`, `Starts.list` and those after them: one lemma for each
  way to make rules from rules.
-/
import ArrayExpr.Proofs.Rule.Reads

namespace ArrayExpr

/-- A failure that was raised in front of a stream: it has the offset and the token found
there. -/
structure Failure.LiesAt (g : Failure) (s : TokenStream) : Prop where
  offset : g.offset = s.offset
  found : g.found = s.peek?

namespace Failure

variable {g : Failure} {s : TokenStream}

lemma liesAt_ofKind (kind : ErrorKind) (s : TokenStream) (e : Expectation) :
    (Failure.ofKind kind s e).LiesAt s := ⟨rfl, rfl⟩

lemma liesAt_unexpected (s : TokenStream) (e : Expectation) : (Failure.unexpected s e).LiesAt s :=
  liesAt_ofKind _ s e

lemma inAlternative_found (g : Failure) (name : String) :
    (g.inAlternative name).found = g.found := by
  rw [inAlternative]
  split
  · split <;> rfl
  · rfl

lemma LiesAt.inAlternative (h : g.LiesAt s) (name : String) : (g.inAlternative name).LiesAt s :=
  ⟨by rw [inAlternative_offset, h.offset], by rw [inAlternative_found, h.found]⟩

end Failure

namespace Rule

variable {α β σ : Type} {r : Rule α} {f : α → Rule β} {s s' : TokenStream} {a : α}
  {g : Failure} {first first' : Kind → Prop}

/-- A rule ends in front of its stream or a later one, and raises its failure in front of
one. -/
structure Onward (r : Rule α) : Prop where
  ends : ∀ {s a s'}, s.Ordered → r.Gives s a s' → ∃ w, s.Passes w s'
  raises : ∀ {s g}, s.Ordered → r.Refuses s g → ∃ w s₁, s.Passes w s₁ ∧ g.LiesAt s₁

/-- A failure does not stand in front of the stream of its rule. -/
lemma Onward.offset_le (hr : r.Onward) (hs : s.Ordered) (hg : r.Refuses s g) :
    s.offset ≤ g.offset := by
  obtain ⟨w, s₁, hw, hat⟩ := hr.raises hs hg
  rw [hat.offset]
  exact hs.offset_le hw

/-- The token ahead tells where a rule fails: if another rule may be tried, then in front
of that token exactly if it is none of the `first`. -/
structure Tells (r : Rule α) (first : Kind → Prop) : Prop extends r.Onward where
  declines_iff : ∀ {s g}, s.Ordered → r.Refuses s g → g.isRecoverable = true →
    (g.offset = s.offset ↔ ¬ first s.current.kind)

/-- A rule that succeeds reads a token, one of the `first`. -/
structure Starts (r : Rule α) (first : Kind → Prop) : Prop extends r.Tells first where
  reads : ∀ {s a s'}, s.Ordered → r.Gives s a s' → s.offset < s'.offset ∧ first s.current.kind

/-- A rule never fails in front of its first token where another rule may be tried. -/
structure Committed (r : Rule α) : Prop extends r.Onward where
  passed : ∀ {s g}, s.Ordered → r.Refuses s g → g.isRecoverable = true → s.offset < g.offset

/-- A rule that is committed tells so by any token. -/
lemma Committed.tells (hr : r.Committed) : r.Tells fun _ => True where
  toOnward := hr.toOnward
  declines_iff := fun hs h hg => iff_of_false (hr.passed hs h hg).ne' (not_not_intro trivial)

/-- Where the token ahead starts a rule it fails further on. -/
lemma Tells.passed (hr : r.Tells first) (hs : s.Ordered) (h : r.Refuses s g)
    (hg : g.isRecoverable = true) (hk : first s.current.kind) : s.offset < g.offset :=
  lt_of_le_of_ne (hr.offset_le hs h) fun heq =>
    (hr.declines_iff hs h hg).mp heq.symm hk

lemma Starts.congr (hr : r.Starts first) (h : ∀ kind, first kind ↔ first' kind) :
    r.Starts first' where
  toOnward := hr.toOnward
  reads := fun hs h' => (hr.reads hs h').imp_right (h _).mp
  declines_iff := fun hs h' hg => (hr.declines_iff hs h' hg).trans (not_congr (h _))

/-! ### Rules in a row -/

/-- **Rules in a row** end and fail further on. -/
lemma Onward.bind_of_gives (hr : r.Onward) (hf : ∀ {s a s'}, r.Gives s a s' → (f a).Onward) :
    (r >>= f).Onward where
  ends := fun hs h => by
    obtain ⟨a, s₁, ha, h⟩ := gives_bind.mp h
    obtain ⟨v, hv⟩ := hr.ends hs ha
    obtain ⟨w, hw⟩ := (hf ha).ends (hs.passes hv) h
    exact ⟨v ++ w, hv.append hw⟩
  raises := fun hs h => by
    rcases refuses_bind.mp h with h | ⟨a, s₁, ha, h⟩
    · exact hr.raises hs h
    · obtain ⟨v, hv⟩ := hr.ends hs ha
      obtain ⟨w, s₂, hw, hat⟩ := (hf ha).raises (hs.passes hv) h
      exact ⟨v ++ w, s₂, hv.append hw, hat⟩

lemma Onward.bind (hr : r.Onward) (hf : ∀ a, (f a).Onward) : (r >>= f).Onward :=
  hr.bind_of_gives fun {_ a _} _ => hf a

/-- What comes after a rule that has read a token does not change how it starts. -/
lemma Starts.bind (hr : r.Starts first) (hf : ∀ a, (f a).Onward) : (r >>= f).Starts first where
  toOnward := hr.toOnward.bind hf
  reads := fun hs h => by
    obtain ⟨a, s₁, ha, h⟩ := gives_bind.mp h
    obtain ⟨v, hv⟩ := hr.ends hs ha
    obtain ⟨w, hw⟩ := (hf a).ends (hs.passes hv) h
    obtain ⟨hlt, hfirst⟩ := hr.reads hs ha
    exact ⟨hlt.trans_le ((hs.passes hv).offset_le hw), hfirst⟩
  declines_iff := fun hs h hg => by
    rcases refuses_bind.mp h with h | ⟨a, s₁, ha, h⟩
    · exact hr.declines_iff hs h hg
    · obtain ⟨v, hv⟩ := hr.ends hs ha
      obtain ⟨hlt, hfirst⟩ := hr.reads hs ha
      have hle := (hf a).offset_le (hs.passes hv) h
      exact iff_of_false (hlt.trans_le hle).ne' (not_not_intro hfirst)

lemma Committed.bind (hr : r.Committed) (hf : ∀ a, (f a).Committed) : (r >>= f).Committed where
  toOnward := hr.toOnward.bind fun a => (hf a).toOnward
  passed := fun hs h hg => by
    rcases refuses_bind.mp h with h | ⟨a, s₁, ha, h⟩
    · exact hr.passed hs h hg
    · obtain ⟨v, hv⟩ := hr.ends hs ha
      exact (hs.offset_le hv).trans_lt ((hf a).passed (hs.passes hv) h hg)

/-! ### Single steps -/

/-- A rule that cannot fail. -/
lemma committed_of_not_refuses (hends : ∀ {s a s'}, r.Gives s a s' → ∃ w, s.Passes w s')
    (hnot : ∀ {s g}, ¬ r.Refuses s g) : r.Committed where
  ends := fun _ h => hends h
  raises := fun _ h => absurd h hnot
  passed := fun _ h => absurd h hnot

lemma committed_pure (a : α) : (pure a : Rule α).Committed :=
  committed_of_not_refuses (fun h => ⟨[], (gives_pure.mp h).2⟩) not_refuses_pure

lemma committed_visit (name : String) : (visit name).Committed :=
  committed_of_not_refuses (fun h => ⟨[], gives_visit.mp h⟩) not_refuses_visit

/-- A failure that leaves no room for another rule may be raised anywhere. -/
lemma committed_fail {e : TokenStream → Failure} (hat : ∀ s, (e s).LiesAt s)
    (hg : ∀ s, (e s).isRecoverable = false) : (fail e : Rule α).Committed where
  ends := fun _ h => absurd h not_gives_fail
  raises := fun {s g} _ h => ⟨[], s, rfl, refuses_fail.mp h ▸ hat s⟩
  passed := fun {s g} _ h hrec => by
    rw [refuses_fail.mp h, hg s] at hrec
    cases hrec

/-- A rule that reads one token, and where it fails fails in front of it. -/
lemma starts_of_one (hfirst : ∀ kind, first kind → kind ≠ .finish)
    (hgives : ∀ {s a s'}, r.Gives s a s' → first s.current.kind ∧ s' = s.advance)
    (hrefuses : ∀ {s g}, r.Refuses s g → ¬ first s.current.kind ∧ g.LiesAt s) :
    r.Starts first where
  ends := fun hs h => by
    obtain ⟨hk, rfl⟩ := hgives h
    exact ⟨_, passes_advance hs rfl (hfirst _ hk)⟩
  raises := fun {s g} _ h => ⟨[], s, rfl, (hrefuses h).2⟩
  reads := fun hs h => by
    obtain ⟨hk, rfl⟩ := hgives h
    exact ⟨hs.offset_lt (passes_advance hs rfl (hfirst _ hk)) (by simp), hk⟩
  declines_iff := fun _ h _ => iff_of_true (hrefuses h).2.offset (hrefuses h).1

/-- A token is missing where another one stands. -/
lemma starts_token {kind : Kind} (hk : kind ≠ .finish) (what : Option String)
    (opener : Option Token) : (token kind what opener).Starts (· = kind) := by
  refine starts_of_one (by simpa using hk) (fun h => ?_) fun {s g} h => ?_
  · obtain ⟨hkind, -, hs'⟩ := gives_token.mp h
    exact ⟨hkind, hs'⟩
  · cases opener with
    | none =>
        obtain ⟨hkind, e, rfl⟩ := refuses_token h
        exact ⟨hkind, Failure.liesAt_unexpected s e⟩
    | some opener =>
        obtain ⟨hkind, e, rfl⟩ := refuses_token_closing h
        refine ⟨hkind, ?_⟩
        split_ifs
        · exact Failure.liesAt_ofKind _ s e
        · exact Failure.liesAt_unexpected s e

/-- A visit does not change how a rule starts. -/
lemma Starts.visited {name : String} (hr : r.Starts first) :
    (visit name >>= fun _ => r).Starts first where
  toOnward := (committed_visit name).toOnward.bind fun _ => hr.toOnward
  reads := fun hs h => by
    obtain ⟨_, s₁, hv, h⟩ := gives_bind.mp h
    rw [gives_visit.mp hv] at h
    exact hr.reads hs h
  declines_iff := fun hs h => hr.declines_iff hs (refuses_visited.mp h)

/-! ### Rules from rules -/

lemma Onward.spanned (hr : r.Onward) : (spanned r).Onward where
  ends := fun hs h => hr.ends hs (gives_spanned.mp h).1
  raises := fun hs h => hr.raises hs (refuses_spanned.mp h)

lemma Starts.spanned (hr : r.Starts first) : (spanned r).Starts first where
  toOnward := hr.toOnward.spanned
  reads := fun hs h => hr.reads hs (gives_spanned.mp h).1
  declines_iff := fun hs h => hr.declines_iff hs (refuses_spanned.mp h)

/-- A rule that may be missing fails only past its first token. -/
lemma Onward.attempt (hr : r.Onward) : (attempt r).Committed where
  ends := fun hs h => by
    rcases gives_attempt.mp h with ⟨a, -, h⟩ | ⟨-, rfl, -⟩
    · exact hr.ends hs h
    · exact ⟨[], rfl⟩
  raises := fun hs h => hr.raises hs (refuses_attempt.mp h).1
  passed := fun hs h hg => by
    obtain ⟨h, hd⟩ := refuses_attempt.mp h
    rw [Failure.declinesAt, hg, Bool.true_and, decide_eq_false_iff_not] at hd
    exact lt_of_le_of_ne (hr.offset_le hs h) (Ne.symm hd)

lemma Starts.called (hr : r.Starts first) (what : String) : (called what r).Starts first where
  ends := fun hs h => hr.ends hs (gives_called.mp h)
  raises := fun {s g} hs h => by
    obtain ⟨e, he, rfl⟩ := refuses_called.mp h
    split_ifs
    · exact ⟨[], s, rfl, Failure.liesAt_unexpected s _⟩
    · exact hr.raises hs he
  reads := fun hs h => hr.reads hs (gives_called.mp h)
  declines_iff := fun {s g} hs h hg => by
    obtain ⟨e, he, rfl⟩ := refuses_called.mp h
    by_cases hd : e.declinesAt s = true
    · rw [if_pos hd]
      rw [Failure.declinesAt, Bool.and_eq_true, decide_eq_true_eq] at hd
      exact iff_of_true rfl ((hr.declines_iff hs he hd.1).mp hd.2)
    · rw [if_neg hd] at hg ⊢
      exact hr.declines_iff hs he hg

lemma Starts.alternative (hr : r.Starts first) (name : String) :
    (alternative name r).Starts first where
  ends := fun hs h => hr.ends hs (gives_alternative.mp h)
  raises := fun hs h => by
    obtain ⟨e, he, rfl⟩ := refuses_alternative.mp h
    obtain ⟨w, s₁, hw, hat⟩ := hr.raises hs he
    exact ⟨w, s₁, hw, hat.inAlternative name⟩
  reads := fun hs h => hr.reads hs (gives_alternative.mp h)
  declines_iff := fun hs h hg => by
    obtain ⟨e, he, rfl⟩ := refuses_alternative.mp h
    rw [Failure.inAlternative_isRecoverable] at hg
    rw [Failure.inAlternative_offset]
    exact hr.declines_iff hs he hg

/-- **A choice starts where one of its alternatives does.** Where all fail the failure
furthest into the input is kept, so that it stands at the first token only if each of
them does. -/
lemma starts_choice {one next : String × Rule α} {others : List (String × Rule α)}
    (hr : one.2.Starts first) (hothers : (choice next others).Starts first') :
    (choice one (next :: others)).Starts fun kind => first kind ∨ first' kind where
  ends := fun hs h => by
    rcases gives_choice_cons.mp h with h | ⟨-, -, -, h⟩
    · exact hr.ends hs h
    · exact hothers.ends hs h
  raises := fun hs h => by
    obtain ⟨g₁, h₁, ⟨-, rfl⟩ | ⟨-, g₂, h₂, rfl⟩⟩ := refuses_choice_cons.mp h
    all_goals obtain ⟨w₁, s₁, hw₁, hat₁⟩ := hr.raises hs h₁
    · exact ⟨w₁, s₁, hw₁, hat₁.inAlternative _⟩
    · obtain ⟨w₂, s₂, hw₂, hat₂⟩ := hothers.raises hs h₂
      rw [Failure.furthest]
      split_ifs
      · exact ⟨w₂, s₂, hw₂, hat₂⟩
      · exact ⟨w₁, s₁, hw₁, hat₁.inAlternative _⟩
      · exact ⟨w₂, s₂, hw₂, hat₂⟩
  reads := fun hs h => by
    rcases gives_choice_cons.mp h with h | ⟨-, -, -, h⟩
    · exact (hr.reads hs h).imp_right Or.inl
    · exact (hothers.reads hs h).imp_right Or.inr
  declines_iff := fun {s g} hs h hg => by
    obtain ⟨g₁, h₁, ⟨hrec, rfl⟩ | ⟨hrec, g₂, h₂, rfl⟩⟩ := refuses_choice_cons.mp h
    · rw [Failure.inAlternative_isRecoverable, hrec] at hg
      cases hg
    · have hle₁ := hr.offset_le hs h₁
      have hle₂ := hothers.offset_le hs h₂
      cases hrec₂ : g₂.isRecoverable with
      | false => simp [hrec₂] at hg
      | true =>
          have hiff₁ := hr.declines_iff hs h₁ hrec
          have hiff₂ := hothers.declines_iff hs h₂ hrec₂
          rw [if_pos rfl, Failure.furthest, Failure.inAlternative_offset, not_or, ← hiff₁, ← hiff₂]
          split_ifs
          · omega
          · rw [Failure.inAlternative_offset]
            omega

lemma starts_choice_last {one : String × Rule α} (hr : one.2.Starts first) :
    (choice one []).Starts first := hr.alternative one.1

/-! ### Repetition -/

/-- The rounds of a repetition lead further on. -/
lemma Reaches.passes {step : σ → Rule (Option (β × σ))} {state state' : σ} {bs : List β}
    (hr : Reaches step state s bs state' s') (hs : s.Ordered)
    (hstep : ∀ state, (step state).Onward) : ∃ w, s.Passes w s' := by
  induction hr with
  | refl state s => exact ⟨[], rfl⟩
  | @round state next state' s s₁ s' b bs h _ ih =>
      obtain ⟨v, hv⟩ := (hstep state).ends hs h
      obtain ⟨w, hw⟩ := ih (hs.passes hv)
      exact ⟨v ++ w, hv.append hw⟩

/-- A repetition fails only past the first token of one of its rounds. -/
lemma committed_collect {step : σ → Rule (Option (β × σ))} (hreading : Reading step)
    (hstep : ∀ state, (step state).Committed) (state : σ) : (collect step state).Committed where
  ends := fun hs h => by
    obtain ⟨state', s₁, hrounds, hlast⟩ := (gives_collect hreading hs).mp h
    obtain ⟨v, hv⟩ := hrounds.passes hs fun state => (hstep state).toOnward
    obtain ⟨w, hw⟩ := (hstep state').ends (hs.passes hv) hlast
    exact ⟨v ++ w, hv.append hw⟩
  raises := fun hs h => by
    obtain ⟨_, state', s₁, hrounds, hlast⟩ := refuses_collect hreading hs h
    obtain ⟨v, hv⟩ := hrounds.passes hs fun state => (hstep state).toOnward
    obtain ⟨w, s₂, hw, hat⟩ := (hstep state').raises (hs.passes hv) hlast
    exact ⟨v ++ w, s₂, hv.append hw, hat⟩
  passed := fun hs h hg => by
    obtain ⟨_, state', s₁, hrounds, hlast⟩ := refuses_collect hreading hs h
    obtain ⟨v, hv⟩ := hrounds.passes hs fun state => (hstep state).toOnward
    exact (hs.offset_le hv).trans_lt ((hstep state').passed (hs.passes hv) hlast hg)

lemma Committed.many {step : Rule (Option β)} (h : step.Committed) (hreading : ReadingRounds step) :
    (many step).Committed :=
  committed_collect hreading.reading (fun _ => h.bind fun _ => committed_pure _) ()

/-! ### Lists -/

/-- A further item fails only past its separator. -/
lemma Onward.furtherItem {separator : Kind} (hr : r.Onward) (hsep : separator ≠ .finish)
    (empty : Bool) : (furtherItem ⟨true, empty⟩ separator r).Committed where
  ends := fun {s o s'} hs h => by
    cases o with
    | some a =>
        obtain ⟨hk, h⟩ := gives_furtherItem_some.mp h
        have hp := passes_advance hs hk hsep
        obtain ⟨w, hw⟩ := hr.ends (hs.passes hp) h
        exact ⟨_, hp.append hw⟩
    | none =>
        rcases gives_furtherItem_none.mp h with ⟨-, rfl⟩ | ⟨hk, rfl, -⟩
        · exact ⟨[], rfl⟩
        · exact ⟨_, passes_advance hs hk hsep⟩
  raises := fun hs h => by
    obtain ⟨hk, h, -⟩ := refuses_furtherItem.mp h
    have hp := passes_advance hs hk hsep
    obtain ⟨w, s₁, hw, hat⟩ := hr.raises (hs.passes hp) h
    exact ⟨_, s₁, hp.append hw, hat⟩
  passed := fun hs h hg => by
    obtain ⟨hk, h, -⟩ := refuses_furtherItem.mp h
    have hp := passes_advance hs hk hsep
    exact (hs.offset_lt hp (by simp)).trans_le (hr.offset_le (hs.passes hp) h)

lemma Onward.furtherItems {separator : Kind} (hr : r.Onward) (hsep : separator ≠ .finish)
    (empty : Bool) (a : α) : (do
      let others ← many (Rule.furtherItem ⟨true, empty⟩ separator r)
      return a :: others).Committed :=
  ((hr.furtherItem hsep empty).many (reading_furtherItem hsep hr.ends)).bind fun _ =>
    committed_pure _

/-- A list that needs an item starts as the item does. -/
lemma Starts.list {separator : Kind} (hr : r.Starts first) (hsep : separator ≠ .finish)
    (name : String) : (separatedList name ⟨true, false⟩ separator r).Starts first := by
  have hitem : (itemWhere false r).Starts first := hr.bind fun _ => (committed_pure _).toOnward
  refine Starts.visited (hitem.bind fun o => ?_)
  cases o with
  | none => exact (committed_pure _).toOnward
  | some a => exact (hr.furtherItems hsep false a).toOnward

/-- A list that may be empty fails only past its first token. -/
lemma Onward.emptyList {separator : Kind} (hr : r.Onward) (hsep : separator ≠ .finish)
    (name : String) : (separatedList name ⟨true, true⟩ separator r).Committed := by
  refine (committed_visit name).bind fun _ => Committed.bind hr.attempt fun o => ?_
  cases o with
  | none => exact committed_pure _
  | some a => exact hr.furtherItems hsep true a

end Rule

end ArrayExpr
