/-
The comparison at the end of a word.

* `Grammar.Undivided`: no `=`, comma or semicolon stands outside the brackets
  of a word; `Derives.undivided`: what derives from a nonterminal tighter than
  an assignment is undivided;
* `Grammar.Boundary`: where the sides of an assignment begin;
* `Grammar.LeftOperand`: the longest comparison at the end of a word, which is
  what a `=` after the word takes as its target;
* `leftOperand_of_boundary`: a comparison that begins at a boundary is it.
-/
import ArrayExpr.Proofs.Grammar.Bracket

namespace ArrayExpr

/-- The kinds that divide the sides of an assignment and the items of a list. -/
def Kind.divides (kind : Kind) : Bool := kind = .assign || kind = .comma || kind = .semicolon

namespace Grammar

variable {t o c : Token} {u v w : List Token} {ws : List (List Token)} {e : Expr} {l : Level}

lemma isPlain_of_divides (h : t.kind.divides = true) : IsPlain t := by
  rw [Kind.divides, Bool.or_eq_true, Bool.or_eq_true] at h
  simp only [decide_eq_true_eq] at h
  rcases h with (h | h) | h <;> exact isPlain_of_kind h ⟨rfl, rfl⟩

/-! ### Undivided words -/

/-- Every token that divides stands inside brackets. -/
def Undivided (w : List Token) : Prop :=
  ∀ u t x, w = u ++ t :: x → t.kind.divides = true → 0 < openBrackets u

lemma Undivided.append (hb : Balanced v) (hv : Undivided v) (hw : Undivided w) :
    Undivided (v ++ w) := by
  intro u t x heq ht
  rcases List.append_eq_append_iff.mp heq with ⟨y, rfl, hy⟩ | ⟨y, hv', hy⟩
  · rw [openBrackets_balanced_append hb]
    exact hw y t x hy ht
  · cases y with
    | nil =>
        rw [List.append_nil] at hv'
        exact absurd (hw [] t x hy.symm ht) (by simp [openBrackets])
    | cons t' y =>
        obtain ⟨rfl, -⟩ := List.cons.inj hy
        exact hv u t y hv' ht

lemma Undivided.plain (ht : t.kind.divides = false) : Undivided [t] := by
  intro u t' x heq ht'
  have hmem : t' ∈ [t] := heq ▸ by simp
  rw [List.mem_singleton.mp hmem, ht] at ht'
  cases ht'

lemma Undivided.cons (ht : IsPlain t) (hd : t.kind.divides = false) (hw : Undivided w) :
    Undivided (t :: w) :=
  (Undivided.plain hd).append (Balanced.plain ht) hw

lemma Undivided.bracket (ho : o.kind.isOpening = true) (hu : Balanced u) :
    Undivided (o :: u ++ [c]) := by
  intro x t y heq ht
  have hplain := isPlain_of_divides ht
  have hx : x <+: o :: u ++ [c] := ⟨t :: y, heq.symm⟩
  rcases prefix_bracket_iff.mp hx with rfl | ⟨z, rfl, hz⟩ | rfl
  · obtain ⟨rfl, -⟩ := List.cons.inj heq
    rw [hplain.1] at ho
    cases ho
  · rw [openBrackets_open ho (hu.closed_le z hz)]
    exact Nat.succ_pos _
  · have hlen := congrArg List.length heq
    simp at hlen

lemma undivided_flatMap {α : Type} {xs : List α} {f : α → List Token}
    (hb : ∀ x ∈ xs, Balanced (f x)) (h : ∀ x ∈ xs, Undivided (f x)) :
    Undivided (xs.flatMap f) := by
  induction xs with
  | nil => exact fun u t x heq => by simp at heq
  | cons x xs ih =>
      rw [List.flatMap_cons]
      exact (h x (by simp)).append (hb x (by simp))
        (ih (fun y hy => hb y (by simp [hy])) fun y hy => h y (by simp [hy]))

lemma divides_of_kind {kind : Kind} (ht : t.kind = kind) (h : kind.divides = false) :
    t.kind.divides = false := by rwa [ht]

/-- **What derives from a nonterminal tighter than an assignment is
undivided.** -/
lemma Derives.undivided (h : Derives l w e) (hl : l ≠ .assignment) : Undivided w := by
  induction h with
  | value | assign => exact absurd rfl hl
  | comparand _ ih | term _ ih | factor _ ih | unsigned _ ih | bare _ ih => exact ih (by simp)
  | compare hw _ hop hd ihw ihl =>
      refine (ihw (by simp)).append hw.balanced (undivided_flatMap (fun l hm => ?_) fun l hm => ?_)
      · exact (hd l hm).balanced.cons (isPlain_of_kind (hop l hm) ⟨rfl, rfl⟩)
      · exact (ihl l hm (by simp)).cons (isPlain_of_kind (hop l hm) ⟨rfl, rfl⟩)
          (divides_of_kind (hop l hm) rfl)
  | add hv ht _ ihv ihw | multiply hv ht _ ihv ihw =>
      exact (ihv (by simp)).append hv.balanced ((ihw (by simp)).cons
        (isPlain_of_kind ht.1 ⟨rfl, rfl⟩) (divides_of_kind ht.1 rfl))
  | negate ht _ ih =>
      exact (ih (by simp)).cons (isPlain_of_kind ht ⟨rfl, rfl⟩) (divides_of_kind ht rfl)
  | call hv ho _ hu ha ihv _ =>
      refine (ihv (by simp)).append hv.balanced
        (Undivided.bracket (by rw [ho]; rfl) ?_)
      exact hu.balanced ⟨rfl, rfl⟩ (balanced_words fun a h => (ha a h).balanced)
  | index hv ho _ hu ha ihv _ =>
      refine (ihv (by simp)).append hv.balanced
        (Undivided.bracket (by rw [ho]; rfl) ?_)
      exact hu.balanced ⟨rfl, rfl⟩ (balanced_words fun a h => (ha a h).balanced)
  | field hv hd ht ihv =>
      exact (ihv (by simp)).append hv.balanced ((Undivided.plain (divides_of_kind ht rfl)).cons
        (isPlain_of_kind hd ⟨rfl, rfl⟩) (divides_of_kind hd rfl))
  | literal ht | name ht => exact Undivided.plain (divides_of_kind ht rfl)
  | group ho _ hu => exact Undivided.bracket (by rw [ho]; rfl) hu.balanced
  | array ho _ hu hr ha =>
      refine Undivided.bracket (by rw [ho]; rfl) (hu.balanced ⟨rfl, rfl⟩ fun w hw => ?_)
      obtain ⟨r, hm, rfl⟩ := List.mem_map.mp hw
      exact (hr r hm).balanced ⟨rfl, rfl⟩ (balanced_words fun a h => (ha r hm a h).balanced)

/-! ### The longest comparison -/

/-- A side of an assignment begins after a word: it is empty, or it ends with
an opening bracket or a token that divides. -/
def Boundary (u : List Token) : Prop :=
  u = [] ∨ ∃ x t, u = x ++ [t] ∧ (t.kind.isOpening = true ∨ t.kind.divides = true)

/-- The longest comparison at the end of a word, with its tree. -/
structure LeftOperand (w v : List Token) (e : Expr) : Prop where
  suffix : v <:+ w
  derives : Derives .comparison v e
  longest : ∀ v' e', v' <:+ w → Derives .comparison v' e' → v'.length ≤ v.length

lemma Boundary.of_suffix {z : List Token} (hu : Boundary u) (hz : z <:+ u) : Boundary z := by
  obtain ⟨y, rfl⟩ := hz
  rcases z.eq_nil_or_concat with rfl | ⟨z, t, rfl⟩
  · exact Or.inl rfl
  · rcases hu with hnil | ⟨x, t', heq, ht⟩
    · simp at hnil
    · rw [List.concat_eq_append, ← List.append_assoc] at heq
      obtain ⟨-, ht'⟩ := List.append_inj' heq rfl
      obtain rfl := List.singleton_inj.mp ht'
      exact Or.inr ⟨z, t, by rw [List.concat_eq_append], ht⟩

/-- No comparison goes back past a boundary. -/
lemma not_derives_past {z : List Token} (hz : z ≠ []) (hb : Boundary z) (hv : Balanced v) :
    ¬ Derives .comparison (z ++ v) e := by
  intro h
  have hbal := h.balanced
  have hund := h.undivided (by simp)
  obtain ⟨x, t, rfl, ht⟩ := hb.resolve_left hz
  have hclosed := hbal.closed_le x ⟨[t] ++ v, by simp⟩
  have htotal := hbal.total
  have hvtotal := hv.total
  simp only [List.countP_append, List.countP_singleton] at htotal
  rcases ht with ht | ht
  · rw [ht, opening_not_closing ht] at htotal
    simp at htotal
    omega
  · have hpos := hund x t v (by simp) ht
    rw [(isPlain_of_divides ht).1, (isPlain_of_divides ht).2] at htotal
    simp at htotal
    rw [openBrackets] at hpos
    omega

/-- **A comparison that begins at a boundary is the left operand.** -/
lemma leftOperand_of_boundary (hu : Boundary u) (hv : Derives .comparison v e) :
    LeftOperand (u ++ v) v e := by
  refine ⟨List.suffix_append u v, hv, fun v' e' hsuffix hv' => ?_⟩
  by_contra hlt
  rw [not_le] at hlt
  obtain ⟨z, rfl⟩ := List.suffix_of_suffix_length_le (List.suffix_append u v) hsuffix hlt.le
  have hz : z ≠ [] := by
    rintro rfl
    simp at hlt
  obtain ⟨y, hy⟩ := hsuffix
  rw [← List.append_assoc] at hy
  have hzu : z <:+ u := ⟨y, List.append_cancel_right hy⟩
  exact not_derives_past hz (hu.of_suffix hzu) hv.balanced hv'

/-- The left operand of a word is determined by the word. -/
lemma LeftOperand.unique {v' : List Token} {e' : Expr} (h : LeftOperand w v e)
    (h' : LeftOperand w v' e') : v' = v := by
  have hle := h.longest v' e' h'.suffix h'.derives
  have hge := h'.longest v e h.suffix h.derives
  exact (List.suffix_of_suffix_length_le h'.suffix h.suffix hle).eq_of_length (by omega)

end Grammar

end ArrayExpr
