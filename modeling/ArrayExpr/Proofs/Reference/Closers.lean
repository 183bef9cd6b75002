/-
Closing what is open.

* `Bracket.closer`: the kind of the token that closes a bracket of the machine;
* `State.Closable`: the innermost open bracket may be closed in a state;
* `Steps.unclosed`: the brackets of the machine are those that the tokens read so
  far leave open;
* `closable_iff`: where no sentence ends, the tokens that close all open brackets
  lead to one exactly if the innermost bracket may be closed.
-/
import ArrayExpr.Proofs.Grammar.Unclosed
import ArrayExpr.Proofs.Reference.Viable

namespace ArrayExpr

namespace Reference

open Grammar

/-- The kind of the token that closes a bracket. -/
def Bracket.closer : Bracket → Kind
  | .group _ => .closeParen
  | .args _ _ _ => .closeParen
  | .subscripts _ _ _ => .closeBracket
  | .array _ _ _ => .closeBracket

/-- Some token closes the innermost open bracket in the state. -/
def State.Closable (q : State) : Prop := ∃ t, t.kind.isClosing = true ∧ stepUsual q t ≠ none

variable {strict : Prop} {limit : ℕ} {kind : Kind} {t : Token} {v w stack : List Token}
  {x : Outline} {p : Pending} {b : Bracket} {br : List Bracket} {q q' : State}

lemma Bracket.isClosing_closer (b : Bracket) : b.closer.isClosing = true := by cases b <;> rfl

lemma endsItem_of_isClosing (h : kind.isClosing = true) : EndsItem kind := by
  simp only [Kind.isClosing, Bool.or_eq_true, decide_eq_true_eq] at h
  exact h.elim Or.inl fun h => Or.inr (Or.inl h)

/-! ### Tokens that close a bracket -/

/-- After an item the innermost bracket may be closed. -/
lemma endItem_closer (b : Bracket) (br : List Bracket) (o : Outline) :
    ∃ x p, endItem b.closer o (b :: br) = some (.hold x p br) := by
  cases b <;> exact ⟨_, _, rfl⟩

/-- A closing token ends an item together with its bracket. -/
lemma endItem_closing {o : Outline} (h : endItem kind o br = some q)
    (hk : kind.isClosing = true) :
    ∃ b rest x p, br = b :: rest ∧ kind = b.closer ∧ q = .hold x p rest := by
  rcases br with _ | ⟨_ | _ | _ | _, rest⟩ <;> simp only [endItem] at h
  · cases h
  all_goals
    split_ifs at h with h1
    · cases h
      exact ⟨_, rest, _, _, rfl, h1, rfl⟩
    all_goals simp_all [Kind.isClosing]

/-- A closing token where an item is missing closes the bracket. -/
lemma endEmpty_closing (h : endEmpty kind br = some q) (hk : kind.isClosing = true) :
    ∃ b rest x p, br = b :: rest ∧ kind = b.closer ∧ q = .hold x p rest := by
  rcases br with _ | ⟨_ | _ | _ | _, rest⟩ <;> simp only [endEmpty] at h
  · cases h
  · cases h
  · split_ifs at h with h1
    cases h
    exact ⟨_, rest, _, _, rfl, h1, rfl⟩
  · split_ifs at h with h1
    cases h
    simp only [Bool.and_eq_true, decide_eq_true_eq] at h1
    exact ⟨_, rest, _, _, rfl, h1.1, rfl⟩
  · split_ifs at h with h1
    · cases h
      exact ⟨_, rest, _, _, rfl, h1, rfl⟩
    · simp_all [Kind.isClosing]

/-- A closing token where an operand is wanted. -/
lemma step_want_closing (hk : t.kind.isClosing = true) :
    stepUsual (.want p br) t = if p.isNothing then endEmpty t.kind br else none := by
  simp only [Kind.isClosing, Bool.or_eq_true, decide_eq_true_eq] at hk
  rcases hk with hk | hk <;> simp [stepWant, hk]

/-- **A closing token closes the innermost bracket**, whatever its text and its
place. -/
lemma step_closing (h : stepUsual q t = some q') (hk : t.kind.isClosing = true) :
    (∃ b rest x p, q.brackets = b :: rest ∧ t.kind = b.closer ∧ q' = .hold x p rest) ∧
      ∀ t' : Token, t'.kind = t.kind → stepUsual q t' = some q' := by
  cases q with
  | want p br =>
      have hstep := h
      rw [step_want_closing hk] at hstep
      refine ⟨?_, fun t' ht' => ?_⟩
      · split_ifs at hstep
        exact endEmpty_closing hstep hk
      · rw [step_want_closing (ht' ▸ hk), ht', hstep]
  | hold x p br =>
      have hstep := h
      rw [(endsItem_of_isClosing hk).step_hold] at hstep
      refine ⟨endItem_closing hstep hk, fun t' ht' => ?_⟩
      rw [(endsItem_of_isClosing (ht' ▸ hk)).step_hold, ht', hstep]
  | field x p br =>
      rw [stepUsual_field] at h
      split_ifs at h with hname
      rw [hname] at hk
      cases hk

/-- After an operand inside a bracket it may be closed. -/
lemma closable_hold (x : Outline) (p : Pending) (b : Bracket) (br : List Bracket) :
    (State.hold x p (b :: br)).Closable := by
  refine ⟨⟨b.closer, none, .origin, 0⟩, b.isClosing_closer, ?_⟩
  obtain ⟨x', p', h⟩ := endItem_closer b br (p.whole x)
  rw [(endsItem_of_isClosing b.isClosing_closer).step_hold, h]
  exact Option.some_ne_none _

/-- Where an item is wanted the bracket may be closed if it may end there. -/
lemma closable_want_iff :
    (State.want p br).Closable ↔
      p.isNothing = true ∧ ∃ kind : Kind, kind.isClosing = true ∧ endEmpty kind br ≠ none := by
  constructor
  · rintro ⟨t, hk, hne⟩
    rw [step_want_closing hk] at hne
    split_ifs at hne with hp
    · exact ⟨hp, t.kind, hk, hne⟩
    · exact absurd rfl hne
  · rintro ⟨hp, kind, hk, hne⟩
    refine ⟨⟨kind, none, .origin, 0⟩, hk, ?_⟩
    rw [step_want_closing hk, if_pos hp]
    exact hne

/-- Where the name of a field is wanted no bracket may be closed. -/
lemma not_closable_field : ¬ (State.field x p br).Closable := by
  rintro ⟨t, hk, hne⟩
  rw [stepUsual_field] at hne
  refine hne (if_neg fun hname => ?_)
  rw [hname] at hk
  cases hk

/-! ### The brackets of the machine -/

/-- An opening token opens a bracket that is closed by what closes the token. -/
lemma step_opening (h : stepUsual q t = some q') (hk : t.kind.isOpening = true) :
    ∃ b, q'.brackets = b :: q.brackets ∧ b.closer = t.kind.closer := by
  simp only [Kind.isOpening, Bool.or_eq_true, decide_eq_true_eq] at hk
  rcases hk with hk | hk <;> cases q <;> simp [stepWant, stepHold, hk] at h <;> subst h <;>
    exact ⟨_, rfl, by rw [hk]; rfl⟩

/-- A separator leaves the brackets as they are, up to the items in them. -/
lemma endItem_plain {o : Outline} (h : endItem kind o br = some q) (hk : kind.isClosing = false) :
    q.brackets.map Bracket.closer = br.map Bracket.closer := by
  rcases br with _ | ⟨_ | _ | _ | _, rest⟩ <;> simp only [endItem] at h
  · cases h
  all_goals
    split_ifs at h with h1
    · rw [h1] at hk
      cases hk
    all_goals
      cases h
      rfl

lemma endEmpty_plain (h : endEmpty kind br = some q) (hk : kind.isClosing = false) :
    q.brackets.map Bracket.closer = br.map Bracket.closer := by
  rcases br with _ | ⟨_ | _ | _ | _, rest⟩ <;> simp only [endEmpty] at h
  case nil | cons.group => cases h
  case cons.array =>
    split_ifs at h with h1
    · rw [h1] at hk
      cases hk
    · cases h
      rfl
  all_goals
    split_ifs at h with h1
    simp_all [Kind.isClosing]

/-- Other tokens leave the brackets as they are, up to the items in them. -/
lemma step_plain (h : stepUsual q t = some q') (ht : IsPlain t) :
    q'.brackets.map Bracket.closer = q.brackets.map Bracket.closer := by
  have hopen : ∀ kind : Kind, kind.isOpening = true → t.kind ≠ kind := fun kind hk he => by
    rw [← he, ht.1] at hk
    cases hk
  cases q with
  | want p br =>
      rw [stepUsual_want] at h
      rcases stepWant_cases h with ⟨-, rfl⟩ | ⟨-, rfl⟩ | ⟨hk, -⟩ | ⟨hk, -⟩ | ⟨-, hend⟩
      · rfl
      · rfl
      · exact absurd hk (hopen _ rfl)
      · exact absurd hk (hopen _ rfl)
      · exact endEmpty_plain hend ht.2
  | hold x p br =>
      rw [stepUsual_hold] at h
      rcases stepHold_cases h with ⟨hk, -⟩ | ⟨hk, -⟩ | ⟨-, rfl⟩ | ⟨op, -, rfl⟩ | ⟨op, -, rfl⟩ |
        ⟨op, -, rfl⟩ | ⟨-, rfl⟩ | hend
      · exact absurd hk (hopen _ rfl)
      · exact absurd hk (hopen _ rfl)
      · rfl
      · rfl
      · rfl
      · rfl
      · rfl
      · exact endItem_plain hend ht.2
  | field x p br =>
      simp only [stepUsual_field, Option.ite_none_right_eq_some, Option.some.injEq] at h
      obtain ⟨-, rfl⟩ := h
      rfl

/-- A token does with the brackets of the machine what it does with the brackets
that are open. -/
lemma step_unclosed (h : stepUsual q t = some q')
    (hs : stack.map (·.kind.closer) = q.brackets.map Bracket.closer) :
    (bracketsAfter stack t).map (·.kind.closer) = q'.brackets.map Bracket.closer := by
  by_cases ho : t.kind.isOpening = true
  · obtain ⟨b, hq', hb⟩ := step_opening h ho
    rw [bracketsAfter_opening ho, hq', List.map_cons, List.map_cons, hs, hb]
  · by_cases hc : t.kind.isClosing = true
    · obtain ⟨⟨b, rest, x, p, hq, -, rfl⟩, -⟩ := step_closing h hc
      rw [bracketsAfter_closing hc, List.map_tail, hs, hq]
      rfl
    · rw [Bool.not_eq_true] at ho hc
      rw [bracketsAfter_plain ⟨ho, hc⟩, hs, step_plain h ⟨ho, hc⟩]

/-- So do tokens in a row. -/
lemma Steps.foldl_bracketsAfter (h : Steps strict limit q w q')
    (hs : stack.map (·.kind.closer) = q.brackets.map Bracket.closer) :
    (w.foldl bracketsAfter stack).map (·.kind.closer) = q'.brackets.map Bracket.closer := by
  induction h generalizing stack with
  | nil => exact hs
  | cons _ hstep _ ih => exact ih (step_unclosed hstep hs)

/-- **The brackets of the machine are those that the tokens leave open.** -/
theorem Steps.unclosed (h : Steps strict limit .start w q) :
    (unclosed w).map (·.kind.closer) = q.brackets.map Bracket.closer :=
  h.foldl_bracketsAfter rfl

/-! ### Closing all brackets -/

/-- After an operand the tokens that close all brackets lead to the end of a
sentence. -/
lemma steps_closers (x : Outline) (p : Pending)
    (hv : v.map Token.kind = br.map Bracket.closer) :
    ∃ x' p', Steps strict limit (.hold x p br) v (.hold x' p' []) := by
  induction br generalizing x p v with
  | nil =>
      obtain rfl := List.map_eq_nil_iff.mp hv
      exact ⟨x, p, .nil _⟩
  | cons b br ih =>
      obtain ⟨t, v, rfl, ht, hv⟩ := List.map_eq_cons_iff.mp hv
      have hends : EndsItem t.kind := endsItem_of_isClosing (ht ▸ b.isClosing_closer)
      obtain ⟨x₁, p₁, hstep⟩ := endItem_closer b br (p.whole x)
      obtain ⟨x', p', hs⟩ := ih x₁ p₁ hv
      exact ⟨x', p', .cons hends.admits (by rw [hends.step_hold, ht, hstep]) hs⟩

/-- **Closing all open brackets makes a sentence exactly where the innermost one
may be closed**, if none ends there already. -/
theorem closable_iff (hq : q.sentence? = none)
    (hv : v.map Token.kind = q.brackets.map Bracket.closer) :
    q.Closable ↔ ∃ q', Steps strict limit q v q' ∧ q'.sentence? ≠ none := by
  constructor
  · rintro ⟨t, hk, hne⟩
    obtain ⟨q', hstep⟩ := Option.ne_none_iff_exists'.mp hne
    obtain ⟨⟨b, rest, x, p, hbr, ht, rfl⟩, hany⟩ := step_closing hstep hk
    rw [hbr] at hv
    obtain ⟨t', v, rfl, ht', hv⟩ := List.map_eq_cons_iff.mp hv
    obtain ⟨x', p', hs⟩ : ∃ x' p', Steps strict limit (.hold x p rest) v (.hold x' p' []) :=
      steps_closers x p hv
    have hends : EndsItem t'.kind := endsItem_of_isClosing (ht' ▸ b.isClosing_closer)
    exact ⟨_, .cons hends.admits (hany t' (ht'.trans ht.symm)) hs, by simp [State.sentence?]⟩
  · rintro ⟨q', hs, hq'⟩
    cases hs with
    | nil => exact absurd hq hq'
    | @cons _ q₁ _ t v _ hstep _ =>
        rcases hbr : q.brackets with _ | ⟨b, rest⟩ <;> rw [hbr] at hv
        · cases hv
        · obtain ⟨ht, -⟩ := List.cons.inj hv
          exact ⟨t, ht ▸ b.isClosing_closer, by simp [hstep]⟩

end Reference

end ArrayExpr
