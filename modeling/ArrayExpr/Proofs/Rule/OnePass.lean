/-
A list read in one pass, item by item.

* `Rule.ForwardFrom`: from a stream on, a rule does not move back;
* `Rule.onePass`: the items of a list, each read at its place once; it is what
  `Rule.separatedList` does behind its own visit;
* `onePass_cons`, `onePass_end`: **an item with a separator behind it comes first**, and
  in front of any other item, or of none, the list ends;
* `onePass_cases`: the same for a list that succeeded, from its values.
-/
import ArrayExpr.Proofs.Rule.Loop

namespace ArrayExpr

namespace Rule

variable {α : Type} {item : Rule α} {separator : Kind} {s s₁ s' : TokenStream}

/-- From a stream on, a rule does not move back. -/
def ForwardFrom (item : Rule α) (s : TokenStream) : Prop :=
  ∀ w s₀ a s₁, s.Passes w s₀ → item.Gives s₀ a s₁ → ∃ v, s₀.Passes v s₁

lemma ForwardFrom.passes {w : List Token} (h : ForwardFrom item s) (hp : s.Passes w s₁) :
    ForwardFrom item s₁ :=
  fun _ s₀ a s₂ hq => h _ s₀ a s₂ (hp.append hq)

/-- An item and the separator behind it are tokens of their own. -/
lemma ForwardFrom.passes_separator (h : ForwardFrom item s) (hs : s.Ordered)
    (hsep : separator ≠ .finish) {a : α} (ha : item.Gives s a s₁)
    (hk : s₁.current.kind = separator) : ∃ w, w ≠ [] ∧ s.Passes w s₁.advance := by
  obtain ⟨v, hv⟩ := h [] s a s₁ rfl ha
  exact ⟨v ++ [s₁.current], by simp, hv.append (passes_advance (hs.passes hv) hk hsep)⟩

/-- No item with a separator behind it stands here. -/
def Unfollowed (separator : Kind) (item : Rule α) (s : TokenStream) : Prop :=
  ∀ a s₁, item.Gives s a s₁ → s₁.current.kind ≠ separator

/-- The run of a list with items and visits before its own. -/
def prepend (as : List α) (visits : List Visit) : Run (List α) → Run (List α)
  | ⟨.success bs rest, own⟩ => ⟨.success (as ++ bs) rest, visits ++ own⟩
  | ⟨.failure g, own⟩ => ⟨.failure g, visits ++ own⟩
  | ⟨.overlong n, own⟩ => ⟨.overlong n, visits ++ own⟩

lemma prepend_nil (run : Run (List α)) : prepend [] [] run = run := by
  rcases run with ⟨⟨bs, rest⟩ | g | n, own⟩ <;> rfl

lemma prepend_prepend (as bs : List α) (first second : List Visit) (run : Run (List α)) :
    prepend as first (prepend bs second run) = prepend (as ++ bs) (first ++ second) run := by
  rcases run with ⟨⟨cs, rest⟩ | g | n, own⟩ <;> simp [prepend]

lemma prepend_success {as values : List α} {visits : List Visit} {run : Run (List α)} :
    (prepend as visits run).outcome = .success values s' ↔
      ∃ bs, values = as ++ bs ∧ run.outcome = .success bs s' := by
  rcases run with ⟨⟨bs, rest⟩ | g | n, own⟩
  · simp only [prepend, Outcome.success.injEq]
    constructor
    · rintro ⟨rfl, rfl⟩
      exact ⟨bs, rfl, rfl, rfl⟩
    · rintro ⟨_, rfl, rfl, rfl⟩
      exact ⟨rfl, rfl⟩
  · simp [prepend]
  · simp [prepend]

lemma prepend_visits (as : List α) (visits : List Visit) (run : Run (List α)) :
    (prepend as visits run).visits = visits ++ run.visits := by
  rcases run with ⟨⟨bs, rest⟩ | g | n, own⟩ <;> rfl

/-! ### Item by item -/

/-- The items of a list read in one pass; the visit of the list itself is left out. -/
def onePass (separator : Kind) (item : Rule α) : Rule (List α) := do
  match ← attempt item with
  | none => return []
  | some first =>
    let others ← many (furtherItem ⟨true, true⟩ separator item)
    return first :: others

lemma separatedList_run (name : String) (separator : Kind) (item : Rule α) (s : TokenStream) :
    separatedList name ⟨true, true⟩ separator item s =
      (onePass separator item s).afterVisits [⟨name, s.index⟩] := rfl

lemma gives_separatedList {name : String} {values : List α} :
    (separatedList name ⟨true, true⟩ separator item).Gives s values s' ↔
      (onePass separator item).Gives s values s' := Iff.rfl

lemma many_furtherItem_run (h : ForwardFrom item s) (hs : s.Ordered)
    (hsep : separator ≠ .finish) :
    many (furtherItem ⟨true, true⟩ separator item) s = (do
      match ← furtherItem ⟨true, true⟩ separator item with
      | none => return []
      | some b => return b :: (← many (furtherItem ⟨true, true⟩ separator item))) s := by
  refine many_run fun {v s₀ b s₁} hp hround => ?_
  obtain ⟨hk, hb⟩ := gives_furtherItem_some.mp hround
  have hadvance := passes_advance (hs.passes hp) hk hsep
  obtain ⟨w, hw⟩ := h _ _ _ _ (hp.append hadvance) hb
  exact ⟨_, by simp, hadvance.append hw⟩

/-- Behind an item and its separator a list goes on as it begins. -/
lemma onePass_cons (h : ForwardFrom item s) (hs : s.Ordered) (hsep : separator ≠ .finish)
    {a : α} {first : List Visit} (hi : item s = ⟨.success a s₁, first⟩)
    (hk : s₁.current.kind = separator) :
    onePass separator item s = prepend [a] first (onePass separator item s₁.advance) := by
  obtain ⟨v, hv⟩ := h [] s a s₁ rfl (show item.Gives s a s₁ by
    rw [Gives, hi])
  have hothers : many (furtherItem ⟨true, true⟩ separator item) s₁ =
      onePass separator item s₁.advance := by
    rw [many_furtherItem_run (h.passes hv) (hs.passes hv) hsep, bind_run,
      furtherItem_of_separator hk, onePass, bind_run]
  have hfirst : onePass separator item s =
      ((do
        let others ← many (furtherItem ⟨true, true⟩ separator item)
        return a :: others) s₁).afterVisits first := by
    rw [onePass, bind_run, attempt, hi]
  rw [hfirst, bind_run, hothers]
  rcases onePass separator item s₁.advance with ⟨⟨bs, rest⟩ | g | n, own⟩ <;>
    simp [prepend, Run.afterVisits]

/-- An item that no separator follows is the last one; where none begins the list has
ended. -/
lemma onePass_end (h : ForwardFrom item s) (hs : s.Ordered) (hsep : separator ≠ .finish)
    (hend : Unfollowed separator item s) :
    onePass separator item s = match item s with
      | ⟨.success a rest, visits⟩ => ⟨.success [a] rest, visits⟩
      | ⟨.failure g, visits⟩ =>
        if g.declinesAt s then ⟨.success [] s, visits⟩ else ⟨.failure g, visits⟩
      | ⟨.overlong n, visits⟩ => ⟨.overlong n, visits⟩ := by
  rw [onePass, bind_run, attempt]
  rcases hi : item s with ⟨⟨a, rest⟩ | g | n, visits⟩
  · have ha : item.Gives s a rest := by rw [Gives, hi]
    obtain ⟨v, hv⟩ := h [] s a rest rfl ha
    have hothers : many (furtherItem ⟨true, true⟩ separator item) rest =
        ⟨.success [] rest, []⟩ := by
      rw [many_furtherItem_run (h.passes hv) (hs.passes hv) hsep, bind_run,
        furtherItem_of_other (hend a rest ha)]
      rfl
    simp [bind_run, hothers, Run.afterVisits]
  · by_cases hg : g.declinesAt s <;> simp [hg, Run.afterVisits]
  · rfl

/-- **A list that succeeds** reads no item, or its last one, or one with a separator and
the list behind it. -/
lemma onePass_cases (h : ForwardFrom item s) (hs : s.Ordered) (hsep : separator ≠ .finish)
    {as : List α} (hlist : (onePass separator item).Gives s as s') :
    (as = [] ∧ s' = s ∧ (∃ g, item.Refuses s g ∧ g.declinesAt s = true) ∧
        (onePass separator item s).visits = (item s).visits) ∨
      (∃ a, as = [a] ∧ item.Gives s a s' ∧ s'.current.kind ≠ separator ∧
        (onePass separator item s).visits = (item s).visits) ∨
      ∃ a as' s₁, as = a :: as' ∧ item.Gives s a s₁ ∧ s₁.current.kind = separator ∧
        (onePass separator item).Gives s₁.advance as' s' ∧
        (onePass separator item s).visits =
          (item s).visits ++ (onePass separator item s₁.advance).visits := by
  by_cases hend : Unfollowed separator item s
  · rw [Gives, onePass_end h hs hsep hend] at hlist
    rw [onePass_end h hs hsep hend]
    rcases hi : item s with ⟨⟨a, rest⟩ | g | n, visits⟩
    · rw [hi] at hlist
      obtain ⟨rfl, rfl⟩ := Outcome.success.inj hlist
      have ha : item.Gives s a rest := by rw [Gives, hi]
      exact .inr (.inl ⟨a, rfl, ha, hend a rest ha, rfl⟩)
    · rw [hi] at hlist
      by_cases hg : g.declinesAt s = true
      · simp only [hg, if_true] at hlist
        obtain ⟨rfl, rfl⟩ := Outcome.success.inj hlist
        exact .inl ⟨rfl, rfl, ⟨g, by rw [Refuses, hi], hg⟩, by simp [hg]⟩
      · simp [hg] at hlist
    · rw [hi] at hlist
      cases hlist
  · simp only [Unfollowed, not_forall, not_not] at hend
    obtain ⟨a, s₁, ha, hk⟩ := hend
    have hi : item s = ⟨.success a s₁, (item s).visits⟩ := by rw [← ha]
    have hcons := onePass_cons h hs hsep hi hk
    rw [Gives, hcons, prepend_success] at hlist
    obtain ⟨as', rfl, hlist⟩ := hlist
    exact .inr (.inr ⟨a, as', s₁, rfl, ha, hk, hlist, by rw [hcons, prepend_visits]⟩)

/-- A list that may not be empty does the same, if it has a first item. -/
lemma separatedList_run_of_gives {name : String} {empty : Bool} {as : List α}
    (h : (separatedList name ⟨true, empty⟩ separator item).Gives s as s') :
    separatedList name ⟨true, empty⟩ separator item s =
      (onePass separator item s).afterVisits [⟨name, s.index⟩] := by
  cases empty with
  | true => rfl
  | false =>
      have hfirst : ∀ g, ¬ item.Refuses s g := by
        intro g hg
        obtain ⟨-, he, -⟩ | ⟨a, s₁, bs, -, ha, -⟩ := gives_items.mp h
        · cases he
        · exact ha.not_refuses hg
      have hitem : itemWhere false item s = attempt item s := by
        rw [itemWhere, attempt]
        simp only [Bool.false_eq_true, if_false, bind_run]
        rcases hi : item s with ⟨⟨a, rest⟩ | g | n, visits⟩
        · simp [Run.afterVisits]
        · exact absurd (by rw [Refuses, hi]) (hfirst g)
        · rfl
      change ((itemWhere false item >>= _) s).afterVisits _ = _
      rw [bind_run, hitem, onePass, bind_run]
      rfl

end Rule

end ArrayExpr
