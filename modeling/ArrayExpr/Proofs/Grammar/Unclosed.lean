/-
Brackets that are not closed.

* `unclosed`: the opening tokens of a text that no token closes, the innermost
  first; `closers`: the characters that close them, one after the other;
* `Grammar.Closes`: tokens that close brackets in front of them; what is left of that
  behind one token more, and of the open brackets behind all of them;
* `Grammar.Balanced.after`: balanced tokens leave the open brackets as they are;
* `unclosed_bracket`: behind balanced tokens the innermost open bracket is the
  one they stand in.
-/
import ArrayExpr.Proofs.Grammar.Bracket

namespace ArrayExpr

/-- The kind of the token that closes a bracket. -/
def Kind.closer : Kind → Kind
  | .openBracket => .closeBracket
  | _ => .closeParen

/-- The character that opens a bracket. -/
def Kind.openingCharacter : Kind → Char
  | .openBracket => '['
  | _ => '('

/-- The character that closes a bracket. -/
def Kind.closingCharacter : Kind → Char
  | .openBracket => ']'
  | _ => ')'

lemma Kind.isClosing_closer (kind : Kind) : kind.closer.isClosing = true := by
  unfold Kind.closer
  split <;> rfl

/-- A closing token is described by its character. -/
lemma Kind.describe_closer (kind : Kind) :
    kind.closer.describe = s!"'{String.singleton kind.closingCharacter}'" := by
  unfold Kind.closer Kind.closingCharacter
  split <;> rfl

/-- The brackets that are open after a token: it opens one, closes the innermost
one, or leaves them as they are. -/
def bracketsAfter (stack : List Token) (t : Token) : List Token :=
  if t.kind.isOpening then t :: stack
  else if t.kind.isClosing then stack.tail
  else stack

/-- The opening tokens that are not closed, the innermost first. -/
def unclosed (w : List Token) : List Token := w.foldl bracketsAfter []

/-- The characters that close what is open, the innermost bracket first. -/
def closers (w : List Token) : List Char := (unclosed w).map (·.kind.closingCharacter)

variable {t o : Token} {u v stack : List Token}

lemma bracketsAfter_opening (h : t.kind.isOpening = true) :
    bracketsAfter stack t = t :: stack := if_pos h

lemma bracketsAfter_closing (h : t.kind.isClosing = true) : bracketsAfter stack t = stack.tail := by
  have hopen : ¬ t.kind.isOpening = true := fun ho => by
    rw [Grammar.opening_not_closing ho] at h
    cases h
  rw [bracketsAfter, if_neg hopen, if_pos h]

lemma bracketsAfter_plain (h : Grammar.IsPlain t) : bracketsAfter stack t = stack := by
  rw [bracketsAfter, h.1, h.2]
  rfl

/-! ### Balanced tokens -/

/-- Tokens that close every bracket they open, and `n` brackets in front of them. -/
structure Grammar.Closes (n : ℕ) (w : List Token) : Prop where
  total : w.countP (·.kind.isClosing) = w.countP (·.kind.isOpening) + n
  closed_le : ∀ u, u <+: w → u.countP (·.kind.isClosing) ≤ u.countP (·.kind.isOpening) + n

namespace Grammar

lemma Balanced.closes (h : Balanced v) : Closes 0 v := ⟨h.total.symm, h.closed_le⟩

/-- Behind a first token, if the token counts for the difference. -/
lemma Closes.behind {n m : ℕ} (h : Closes n (t :: v))
    (hstep : ∀ u : List Token,
      (t :: u).countP (·.kind.isClosing) + u.countP (·.kind.isOpening) + m =
        u.countP (·.kind.isClosing) + (t :: u).countP (·.kind.isOpening) + n) : Closes m v where
  total := by
    have htotal := h.total
    have hv := hstep v
    omega
  closed_le := fun u hu => by
    have hle := h.closed_le _ ((List.prefix_cons_inj t).mpr hu)
    have hu := hstep u
    omega

lemma Closes.behind_opening {n : ℕ} (h : Closes n (t :: v)) (ht : t.kind.isOpening = true) :
    Closes (n + 1) v := by
  have hclosing := opening_not_closing ht
  refine h.behind fun u => ?_
  simp only [List.countP_cons, ht, hclosing, if_true, Bool.false_eq_true, if_false]
  omega

/-- A closing token at the front closes one of the brackets in front. -/
lemma Closes.behind_closing {n : ℕ} (h : Closes n (t :: v)) (ht : t.kind.isClosing = true) :
    ∃ m, n = m + 1 ∧ Closes m v := by
  have hopening := closing_not_opening ht
  have hfirst := h.closed_le [t] ((List.prefix_cons_inj t).mpr List.nil_prefix)
  simp only [List.countP_cons, List.countP_nil, ht, hopening, if_true, Bool.false_eq_true,
    if_false] at hfirst
  obtain ⟨m, rfl⟩ : ∃ m, n = m + 1 := ⟨n - 1, by omega⟩
  refine ⟨m, rfl, h.behind fun u => ?_⟩
  simp only [List.countP_cons, ht, hopening, if_true, Bool.false_eq_true, if_false]
  omega

lemma Closes.behind_plain {n : ℕ} (h : Closes n (t :: v)) (ht : IsPlain t) : Closes n v :=
  h.behind fun u => by simp [ht.1, ht.2]

/-- Tokens that close the brackets `front` leave those that were open before. -/
lemma Closes.after {front : List Token} (h : Closes front.length v) :
    v.foldl bracketsAfter (front ++ stack) = stack := by
  induction v generalizing front with
  | nil =>
      obtain rfl : front = [] := List.length_eq_zero_iff.mp (by simpa using h.total.symm)
      rfl
  | cons t v ih =>
      rw [List.foldl_cons]
      by_cases ho : t.kind.isOpening = true
      · rw [bracketsAfter_opening ho, ← List.cons_append]
        exact ih (h.behind_opening ho)
      · by_cases hc : t.kind.isClosing = true
        · obtain ⟨m, hm, hv⟩ := h.behind_closing hc
          obtain ⟨o, front, rfl⟩ := List.exists_cons_of_length_eq_add_one hm
          rw [bracketsAfter_closing hc, List.cons_append, List.tail_cons]
          obtain rfl : front.length = m := by simpa using hm
          exact ih hv
        · have hplain : IsPlain t := ⟨Bool.not_eq_true _ ▸ ho, Bool.not_eq_true _ ▸ hc⟩
          rw [bracketsAfter_plain hplain]
          exact ih (h.behind_plain hplain)

/-- **Balanced tokens leave the open brackets as they are.** -/
theorem Balanced.after (h : Balanced v) : v.foldl bracketsAfter stack = stack := by
  have hnone : Closes ([] : List Token).length v := h.closes
  exact hnone.after

end Grammar

/-- Behind balanced tokens the innermost open bracket is the one they stand in. -/
lemma unclosed_bracket (ho : o.kind.isOpening = true) (hv : Grammar.Balanced v) :
    unclosed (u ++ o :: v) = o :: unclosed u := by
  rw [unclosed, List.foldl_append, List.foldl_cons, bracketsAfter_opening ho, hv.after]
  rfl

/-- What holds of the tokens that are open, and of the opening tokens of a text, holds of
those that are open behind it. -/
lemma forall_mem_bracketsAfter {P : Token → Prop} (hstack : ∀ o ∈ stack, P o)
    (hv : ∀ t ∈ v, t.kind.isOpening = true → P t) : ∀ o ∈ v.foldl bracketsAfter stack, P o := by
  induction v generalizing stack with
  | nil => exact hstack
  | cons t v ih =>
      obtain ⟨ht, hv⟩ := List.forall_mem_cons.mp hv
      refine ih ?_ hv
      rw [bracketsAfter]
      split_ifs with hopening hclosing
      · exact List.forall_mem_cons.mpr ⟨ht hopening, hstack⟩
      · exact fun o ho => hstack o (List.mem_of_mem_tail ho)
      · exact hstack

/-- The tokens that are not closed open brackets. -/
lemma isOpening_of_mem_unclosed (h : o ∈ unclosed v) : o ∈ v ∧ o.kind.isOpening = true := by
  have hall : ∀ o ∈ unclosed v, o ∈ v ∧ o.kind.isOpening = true :=
    forall_mem_bracketsAfter (List.forall_mem_nil _) fun _ ht hopening => ⟨ht, hopening⟩
  exact hall o h

end ArrayExpr
