/-
Open brackets.

* `openBrackets`: how many brackets some tokens leave open;
* `Grammar.AtMostOpen`: never more than so many brackets are open at once;
* `Grammar.Balanced`: every bracket that is opened is closed, and none is
  closed before;
* `Derives.balanced`: derivations are balanced, so that the brackets open in a
  word are counted part by part (`atMostOpen_append`, `atMostOpen_bracket`).
-/
import ArrayExpr.Proofs.Grammar.Derivation

namespace ArrayExpr

/-- The kinds of opening brackets. -/
def Kind.isOpening (kind : Kind) : Bool := kind = .openParen || kind = .openBracket

/-- The kinds of closing brackets. -/
def Kind.isClosing (kind : Kind) : Bool := kind = .closeParen || kind = .closeBracket

/-- How many brackets some tokens leave open. -/
def openBrackets (w : List Token) : ℕ :=
  w.countP (·.kind.isOpening) - w.countP (·.kind.isClosing)

namespace Grammar

variable {n : ℕ} {t o c : Token} {u v w : List Token} {ws : List (List Token)}

/-- At no point in `w` are more than `n` brackets open. -/
def AtMostOpen (n : ℕ) (w : List Token) : Prop := ∀ u, u <+: w → openBrackets u ≤ n

/-- Every bracket that is opened is closed, and none is closed before. -/
structure Balanced (w : List Token) : Prop where
  total : w.countP (·.kind.isOpening) = w.countP (·.kind.isClosing)
  closed_le : ∀ u, u <+: w → u.countP (·.kind.isClosing) ≤ u.countP (·.kind.isOpening)

/-- A token that is no bracket. -/
def IsPlain (t : Token) : Prop := t.kind.isOpening = false ∧ t.kind.isClosing = false

/-! ### Balanced words -/

/-- A token whose kind is no bracket is plain. -/
lemma isPlain_of_kind {kind : Kind} (ht : t.kind = kind)
    (h : kind.isOpening = false ∧ kind.isClosing = false) : IsPlain t := by
  rwa [IsPlain, ht]

/-- A beginning of joined words ends in the first or goes into the second. -/
lemma prefix_append_cases (h : u <+: v ++ w) : u <+: v ∨ ∃ x, u = v ++ x ∧ x <+: w := by
  obtain ⟨y, hy⟩ := h
  rcases List.append_eq_append_iff.mp hy with ⟨x, hv, -⟩ | ⟨x, hu, hw⟩
  · exact Or.inl ⟨x, hv.symm⟩
  · exact Or.inr ⟨x, hu, y, hw.symm⟩

lemma Balanced.nil : Balanced [] :=
  ⟨rfl, fun u hu => by rw [List.prefix_nil.mp hu]; exact le_rfl⟩

/-- Balanced words in a row are balanced. -/
lemma Balanced.append (hv : Balanced v) (hw : Balanced w) : Balanced (v ++ w) := by
  refine ⟨?_, fun u hu => ?_⟩
  · rw [List.countP_append, List.countP_append, hv.total, hw.total]
  · rcases prefix_append_cases hu with h | ⟨x, rfl, h⟩
    · exact hv.closed_le u h
    · have := hw.closed_le x h
      have := hv.total
      simp only [List.countP_append]
      omega

/-- A plain token is balanced. -/
lemma Balanced.plain (ht : IsPlain t) : Balanced [t] := by
  refine ⟨by simp [ht.1, ht.2], fun u hu => ?_⟩
  rcases List.prefix_cons_iff.mp hu with rfl | ⟨x, rfl, h⟩
  · rfl
  · rw [List.prefix_nil.mp h]
    simp [ht.1, ht.2]

/-- So is a balanced word behind a plain token. -/
lemma Balanced.cons (ht : IsPlain t) (hw : Balanced w) : Balanced (t :: w) :=
  (Balanced.plain ht).append hw

/-- No token both opens and closes. -/
lemma opening_not_closing (ho : o.kind.isOpening = true) : o.kind.isClosing = false := by
  cases h : o.kind <;> simp_all [Kind.isOpening, Kind.isClosing]

/-- The same from the other side. -/
lemma closing_not_opening (hc : c.kind.isClosing = true) : c.kind.isOpening = false := by
  cases h : c.kind <;> simp_all [Kind.isOpening, Kind.isClosing]

/-- The beginnings of a word in brackets. -/
lemma prefix_bracket_iff : u <+: o :: v ++ [c] ↔
    u = [] ∨ (∃ x, u = o :: x ∧ x <+: v) ∨ u = o :: v ++ [c] := by
  rw [List.cons_append, List.prefix_cons_iff]
  constructor
  · rintro (rfl | ⟨x, rfl, h⟩)
    · exact Or.inl rfl
    · rcases List.prefix_concat_iff.mp h with rfl | h
      · exact Or.inr (Or.inr rfl)
      · exact Or.inr (Or.inl ⟨x, rfl, h⟩)
  · rintro (rfl | ⟨x, rfl, h⟩ | rfl)
    · exact Or.inl rfl
    · exact Or.inr ⟨x, rfl, h.trans (List.prefix_append v [c])⟩
    · exact Or.inr ⟨v ++ [c], rfl, List.prefix_rfl⟩

/-- Brackets around a balanced word. -/
lemma Balanced.bracket (ho : o.kind.isOpening = true) (hc : c.kind.isClosing = true)
    (hu : Balanced u) : Balanced (o :: u ++ [c]) := by
  have ho' := opening_not_closing ho
  have hc' := closing_not_opening hc
  refine ⟨?_, fun x hx => ?_⟩
  · have := hu.total
    simp only [List.cons_append, List.countP_cons, List.countP_append, List.countP_nil, ho, ho',
      hc, hc']
    omega
  · rcases prefix_bracket_iff.mp hx with rfl | ⟨y, rfl, hy⟩ | rfl
    · rfl
    · have := hu.closed_le y hy
      simp only [List.countP_cons, ho, ho', if_true, Bool.false_eq_true, if_false]
      omega
    · have := hu.total
      simp only [List.cons_append, List.countP_cons, List.countP_append, List.countP_nil, ho,
        ho', hc, hc', if_true, Bool.false_eq_true, if_false]
      omega

/-! ### Counting open brackets -/

/-- A balanced word leaves no bracket open. -/
lemma openBrackets_balanced_append (hv : Balanced v) (u : List Token) :
    openBrackets (v ++ u) = openBrackets u := by
  have := hv.total
  simp only [openBrackets, List.countP_append]
  omega

/-- The bound holds of every beginning. -/
lemma AtMostOpen.of_prefix (h : AtMostOpen n w) (hu : u <+: w) : AtMostOpen n u :=
  fun x hx => h x (hx.trans hu)

/-- It holds of a word behind a balanced one if it holds of both. -/
lemma atMostOpen_append (hv : Balanced v) :
    AtMostOpen n (v ++ w) ↔ AtMostOpen n v ∧ AtMostOpen n w := by
  constructor
  · intro h
    refine ⟨h.of_prefix (List.prefix_append v w), fun u hu => ?_⟩
    rw [← openBrackets_balanced_append hv]
    exact h (v ++ u) ((List.prefix_append_right_inj v).mpr hu)
  · rintro ⟨h1, h2⟩ u hu
    rcases prefix_append_cases hu with h | ⟨x, rfl, h⟩
    · exact h1 u h
    · rw [openBrackets_balanced_append hv]
      exact h2 x h

/-- It holds of a plain token. -/
lemma atMostOpen_plain (ht : IsPlain t) : AtMostOpen n [t] := by
  intro u hu
  rcases List.prefix_cons_iff.mp hu with rfl | ⟨x, rfl, h⟩
  · simp [openBrackets]
  · rw [List.prefix_nil.mp h]
    simp [openBrackets, ht.1, ht.2]

lemma atMostOpen_nil : AtMostOpen n [] := fun u hu => by
  rw [List.prefix_nil.mp hu]
  simp [openBrackets]

/-- An opening bracket leaves one more open. -/
lemma openBrackets_open (ho : o.kind.isOpening = true)
    (hu : u.countP (·.kind.isClosing) ≤ u.countP (·.kind.isOpening)) :
    openBrackets (o :: u) = openBrackets u + 1 := by
  simp only [openBrackets, List.countP_cons, ho, opening_not_closing ho, if_true,
    Bool.false_eq_true, if_false]
  omega

/-- A pair of brackets takes the room of one. -/
lemma atMostOpen_bracket (ho : o.kind.isOpening = true) (hc : c.kind.isClosing = true)
    (hu : Balanced u) : AtMostOpen (n + 1) (o :: u ++ [c]) ↔ AtMostOpen n u := by
  have hopen : ∀ x, x <+: u → openBrackets (o :: x) = openBrackets x + 1 := fun x hx =>
    openBrackets_open ho (hu.closed_le x hx)
  constructor
  · intro h x hx
    have h1 := h (o :: x) (prefix_bracket_iff.mpr (Or.inr (Or.inl ⟨x, rfl, hx⟩)))
    rw [hopen x hx] at h1
    omega
  · intro h x hx
    rcases prefix_bracket_iff.mp hx with rfl | ⟨y, rfl, hy⟩ | rfl
    · simp [openBrackets]
    · rw [hopen y hy]
      have := h y hy
      omega
    · have h1 := (Balanced.bracket ho hc hu).total
      rw [openBrackets, h1, Nat.sub_self]
      exact Nat.zero_le _

/-- Where no bracket may be open none is opened. -/
lemma not_atMostOpen_zero (ho : o.kind.isOpening = true) : ¬ AtMostOpen 0 (o :: w) := by
  intro h
  have h1 := h [o] (List.prefix_append [o] w)
  rw [openBrackets, List.countP_singleton, List.countP_singleton, ho, opening_not_closing ho] at h1
  simp at h1

/-! ### Lists -/

/-- A list has a word. -/
lemma Listed.ne_nil {separator : Kind} (h : Listed separator ws u) : ws ≠ [] := by
  cases h <;> simp

/-- What holds of all words of a list and of its separators, and passes to
joined words, holds of the list. -/
lemma Listed.closure {separator : Kind} {P : List Token → Prop} (h : Listed separator ws u)
    (happ : ∀ v w, P v → P w → P (v ++ w)) (hsep : ∀ t : Token, t.kind = separator → P [t])
    (hws : ∀ w ∈ ws, P w) : P u := by
  induction h with
  | last w => exact hws w (by simp)
  | trailing w ht => exact happ _ _ (hws w (by simp)) (hsep _ ht)
  | more w ht _ ih =>
      refine happ _ _ (hws w (by simp)) ?_
      rw [← List.singleton_append]
      exact happ _ _ (hsep _ ht) (ih fun x hx => hws x (by simp [hx]))

/-- A list of balanced words is balanced. -/
lemma Listed.balanced {separator : Kind} (h : Listed separator ws u)
    (hsep : separator.isOpening = false ∧ separator.isClosing = false)
    (hws : ∀ w ∈ ws, Balanced w) : Balanced u :=
  h.closure (fun _ _ hv hw => hv.append hw)
    (fun _ ht => Balanced.plain (isPlain_of_kind ht hsep)) hws

/-- So are balanced words in a row. -/
lemma balanced_flatMap {α : Type} {xs : List α} {f : α → List Token}
    (h : ∀ x ∈ xs, Balanced (f x)) : Balanced (xs.flatMap f) := by
  induction xs with
  | nil => exact Balanced.nil
  | cons x xs ih =>
      rw [List.flatMap_cons]
      exact (h x (by simp)).append (ih fun y hy => h y (by simp [hy]))

/-- So is a list that may be empty. -/
lemma ListedOrNone.balanced {separator : Kind} (h : ListedOrNone separator ws u)
    (hsep : separator.isOpening = false ∧ separator.isClosing = false)
    (hws : ∀ w ∈ ws, Balanced w) : Balanced u := by
  rcases h with ⟨-, rfl⟩ | h
  · exact Balanced.nil
  · exact h.balanced hsep hws

/-! ### Derivations -/

lemma balanced_words {args : List Phrase} (h : ∀ a ∈ args, Balanced a.tokens) :
    ∀ w ∈ args.map Phrase.tokens, Balanced w := by
  intro w hw
  obtain ⟨a, ha, rfl⟩ := List.mem_map.mp hw
  exact h a ha

/-- **Derivations are balanced.** -/
lemma Derives.balanced {l : Level} {e : Expr} (h : Derives l w e) : Balanced w := by
  induction h with
  | value _ ih | comparand _ ih | term _ ih | factor _ ih | unsigned _ ih | bare _ ih => exact ih
  | assign _ ht _ ihv ihw => exact ihv.append (ihw.cons (isPlain_of_kind ht ⟨rfl, rfl⟩))
  | add _ ht _ ihv ihw | multiply _ ht _ ihv ihw =>
      exact ihv.append (ihw.cons (isPlain_of_kind ht.1 ⟨rfl, rfl⟩))
  | compare _ _ hop _ ihw ihl =>
      exact ihw.append (balanced_flatMap fun l hl =>
        (ihl l hl).cons (isPlain_of_kind (hop l hl) ⟨rfl, rfl⟩))
  | negate ht _ ih => exact ih.cons (isPlain_of_kind ht ⟨rfl, rfl⟩)
  | call _ ho hc hu _ ihv iha =>
      exact ihv.append (Balanced.bracket (by rw [ho]; rfl) (by rw [hc]; rfl)
        (hu.balanced ⟨rfl, rfl⟩ (balanced_words iha)))
  | index _ ho hc hu _ ihv iha =>
      exact ihv.append (Balanced.bracket (by rw [ho]; rfl) (by rw [hc]; rfl)
        (hu.balanced ⟨rfl, rfl⟩ (balanced_words iha)))
  | field _ hd ht ih =>
      exact ih.append ((Balanced.plain (isPlain_of_kind ht ⟨rfl, rfl⟩)).cons
        (isPlain_of_kind hd ⟨rfl, rfl⟩))
  | literal ht | name ht => exact Balanced.plain (isPlain_of_kind ht ⟨rfl, rfl⟩)
  | group ho hc _ ih => exact Balanced.bracket (by rw [ho]; rfl) (by rw [hc]; rfl) ih
  | array ho hc hu hr _ iha =>
      refine Balanced.bracket (by rw [ho]; rfl) (by rw [hc]; rfl)
        (hu.balanced ⟨rfl, rfl⟩ fun w hw => ?_)
      obtain ⟨r, hmem, rfl⟩ := List.mem_map.mp hw
      exact (hr r hmem).balanced ⟨rfl, rfl⟩ (balanced_words (iha r hmem))

end Grammar

end ArrayExpr
