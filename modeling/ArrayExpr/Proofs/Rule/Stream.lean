/-
Tokens passed by a stream.

* `TokenStream.Passes`: a stream stands behind another, with given tokens
  between them; `passes_append_iff` splits the way at any point;
* `TokenStream.Ordered`: offsets grow along the tokens ahead and up to the
  closing token; `Ordered.offset_lt` moves on with every token passed;
* `Passes.spanFrom_eq`: the span of the tokens passed is their extent.
-/
import ArrayExpr.TokenStream
import ArrayExpr.Proofs.Grammar.Derivation

namespace ArrayExpr

/-! ### Extents -/

/-- The extents of neighbours join. -/
lemma extent_through {v w : List Token} (hv : v ≠ []) (hw : w ≠ []) :
    (extent v).through (extent w) = extent (v ++ w) := by
  obtain ⟨t, v, rfl⟩ := List.exists_cons_of_ne_nil hv
  rw [extent, extent, extent, Span.through, List.getLast?_append_of_ne_nil _ hw]
  rfl

/-- A stretch starts where its first part does. -/
lemma extent_append_start {v : List Token} (hv : v ≠ []) (w : List Token) :
    (extent (v ++ w)).start = (extent v).start := by
  obtain ⟨t, v, rfl⟩ := List.exists_cons_of_ne_nil hv
  rfl

/-- A stretch stops where its last part does. -/
lemma extent_append_stop (v : List Token) {w : List Token} (hw : w ≠ []) :
    (extent (v ++ w)).stop = (extent w).stop := by
  rw [extent, extent, List.getLast?_append_of_ne_nil _ hw]

namespace TokenStream

variable {s s' s₁ : TokenStream} {t : Token} {v w : List Token}

/-! ### Tokens between two streams -/

/-- `s'` stands behind `s`, with the tokens `w` between them. -/
def Passes (s : TokenStream) : List Token → TokenStream → Prop
  | [], s' => s' = s
  | t :: w, s' => s.peek? = some t ∧ s.advance.Passes w s'

/-- No tokens lie between a stream and itself only. -/
@[simp] lemma passes_nil_iff : s.Passes [] s' ↔ s' = s := Iff.rfl

/-- Tokens are passed one at a time. -/
lemma passes_cons_iff : s.Passes (t :: w) s' ↔ s.peek? = some t ∧ s.advance.Passes w s' := Iff.rfl

/-- Two words in a row are passed one after the other. -/
lemma passes_append_iff :
    s.Passes (v ++ w) s' ↔ ∃ s₁, s.Passes v s₁ ∧ s₁.Passes w s' := by
  induction v generalizing s with
  | nil => simp
  | cons t v ih => simp only [List.cons_append, passes_cons_iff, ih, and_assoc, exists_and_left]

lemma Passes.append (hv : s.Passes v s₁) (hw : s₁.Passes w s') : s.Passes (v ++ w) s' :=
  passes_append_iff.mpr ⟨s₁, hv, hw⟩

/-- A step passes the token ahead. -/
lemma passes_one (h : s.peek? = some t) : s.Passes [t] s.advance := ⟨h, rfl⟩

/-- A step leaves the other tokens ahead. -/
lemma ahead_eq_of_peek (h : s.peek? = some t) : s.ahead = t :: s.advance.ahead := by
  rcases s with ⟨index, stop, _ | ⟨u, rest⟩, finish⟩
  · simp [peek?] at h
  · simp only [peek?, List.head?_cons, Option.some.injEq] at h
    subst h
    rfl

/-- The token ahead is the current one. -/
lemma current_of_peek (h : s.peek? = some t) : s.current = t := by
  rw [current, ahead_eq_of_peek h]
  rfl

/-- A stream stands where the token ahead starts. -/
lemma offset_of_peek (h : s.peek? = some t) : s.offset = t.start.offset := by
  rw [offset, current_of_peek h]

/-- No token is ahead exactly at the end. -/
lemma peek?_eq_none_iff : s.peek? = none ↔ s.atEnd = true := by
  simp [peek?, atEnd]

/-- Moving on passes the token ahead, or nothing at the end. -/
lemma exists_passes_advance (s : TokenStream) : ∃ w, s.Passes w s.advance := by
  cases hp : s.peek? with
  | some t => exact ⟨[t], passes_one hp⟩
  | none =>
      rw [peek?, List.head?_eq_none_iff] at hp
      exact ⟨[], by rw [passes_nil_iff, advance, hp]⟩

/-- The tokens passed stood ahead. -/
lemma Passes.ahead_eq (h : s.Passes w s') : s.ahead = w ++ s'.ahead := by
  induction w generalizing s with
  | nil => rw [passes_nil_iff] at h; rw [h, List.nil_append]
  | cons t w ih => rw [ahead_eq_of_peek h.1, ih h.2, List.cons_append]

/-- Tokens that stand ahead can be passed. -/
lemma exists_passes (h : s.ahead = w ++ v) : ∃ s', s.Passes w s' ∧ s'.ahead = v := by
  induction w generalizing s with
  | nil => exact ⟨s, rfl, h⟩
  | cons t w ih =>
      have hp : s.peek? = some t := by rw [peek?, h]; rfl
      have h' : s.advance.ahead = w ++ v := by
        have := ahead_eq_of_peek hp
        rw [h, List.cons_append] at this
        exact (List.cons.inj this).2.symm
      obtain ⟨s', hs', hv⟩ := ih h'
      exact ⟨s', ⟨hp, hs'⟩, hv⟩

/-- A step counts one token more. -/
lemma advance_index (h : s.peek? = some t) : s.advance.index = s.index + 1 := by
  rw [advance, ahead_eq_of_peek h]

/-- What is consumed ends with the token behind. -/
lemma advance_consumedEnd (h : s.peek? = some t) : s.advance.consumedEnd = t.stop := by
  rw [advance, ahead_eq_of_peek h]

/-- A step keeps the closing token. -/
lemma advance_finish (s : TokenStream) : s.advance.finish = s.finish := by
  rw [advance]
  split <;> rfl

/-- The index counts the tokens that were passed. -/
lemma Passes.index_eq (h : s.Passes w s') : s'.index = s.index + w.length := by
  induction w generalizing s with
  | nil => rw [passes_nil_iff] at h; rw [h]; rfl
  | cons t w ih => rw [ih h.2, advance_index h.1, List.length_cons]; omega

lemma Passes.finish_eq (h : s.Passes w s') : s'.finish = s.finish := by
  induction w generalizing s with
  | nil => rw [passes_nil_iff] at h; rw [h]
  | cons t w ih => rw [ih h.2, advance_finish]

/-- Equal tokens lead to one stream. -/
lemma Passes.unique (h : s.Passes w s') (h₁ : s.Passes w s₁) : s' = s₁ := by
  induction w generalizing s with
  | nil => exact h.trans h₁.symm
  | cons t w ih => exact ih h.2 h₁.2

/-- The tokens between two streams are determined. -/
lemma Passes.word_unique (h : s.Passes v s') (h' : s.Passes w s') : v = w :=
  List.append_cancel_right (h.ahead_eq.symm.trans h'.ahead_eq)

/-- The tokens that are passed start where the stream stands. -/
lemma Passes.offset_eq (h : s.Passes w s') (hw : w ≠ []) : s.offset = (extent w).start := by
  obtain ⟨t, w, rfl⟩ := List.exists_cons_of_ne_nil hw
  exact offset_of_peek h.1

/-- They stop where what is consumed ends. -/
lemma Passes.consumedEnd_eq (h : s.Passes w s') (hw : w ≠ []) :
    s'.consumedEnd = (extent w).stop := by
  induction w generalizing s with
  | nil => exact absurd rfl hw
  | cons t w ih =>
      by_cases hw' : w = []
      · subst hw'
        rw [h.2, advance_consumedEnd h.1]
        rfl
      · rw [ih h.2 hw', ← List.singleton_append, extent_append_stop _ hw']

/-- **The span of the tokens passed is their extent.** -/
lemma Passes.spanFrom_eq (h : s.Passes w s') (hw : w ≠ []) : s'.spanFrom s = extent w := by
  have hlen := List.length_pos_iff.mpr hw
  rw [spanFrom, if_neg (by rw [h.index_eq]; omega), h.offset_eq hw, h.consumedEnd_eq hw]

/-! ### Ordered streams -/

/-- Offsets grow along the tokens ahead and up to the closing one. -/
structure Ordered (s : TokenStream) : Prop where
  increasing : (s.ahead ++ [s.finish]).Pairwise fun t u => t.start.offset < u.start.offset
  finish_kind : s.finish.kind = .finish

/-- A current token that is not the closing one is ahead. -/
lemma Ordered.peek_current (hs : s.Ordered) (h : s.current.kind ≠ .finish) :
    s.peek? = some s.current := by
  cases hp : s.peek? with
  | none =>
      rw [peek?, List.head?_eq_none_iff] at hp
      rw [current, hp] at h
      exact absurd hs.finish_kind h
  | some t => rw [current_of_peek hp]

/-- At the end the closing token is the current one. -/
lemma Ordered.current_of_atEnd (hs : s.Ordered) (h : s.atEnd = true) :
    s.current.kind = .finish := by
  rw [atEnd, List.isEmpty_iff] at h
  rw [current, h]
  exact hs.finish_kind

/-- Tokens in order stay in order behind a step. -/
lemma Ordered.advance (hs : s.Ordered) (h : s.peek? = some t) : s.advance.Ordered := by
  have hlt := hs.increasing
  rw [ahead_eq_of_peek h, List.cons_append] at hlt
  exact ⟨by rw [advance_finish]; exact hlt.tail, by rw [advance_finish]; exact hs.finish_kind⟩

/-- They stay in order behind a word. -/
lemma Ordered.passes (hs : s.Ordered) (h : s.Passes w s') : s'.Ordered := by
  induction w generalizing s with
  | nil => rw [passes_nil_iff] at h; rwa [h]
  | cons t w ih => exact ih (hs.advance h.1) h.2

lemma offset_eq_head (s : TokenStream) :
    (s.ahead ++ [s.finish]).head? = some s.current := by
  rw [current]
  cases s.ahead <;> rfl

/-- A step leads further on in the text. -/
lemma Ordered.offset_lt_advance (hs : s.Ordered) (h : s.peek? = some t) :
    s.offset < s.advance.offset := by
  have hlt := hs.increasing
  have hmem : s.advance.current ∈ s.advance.ahead ++ [s.finish] := by
    rw [← advance_finish]
    exact List.mem_of_mem_head? (offset_eq_head _)
  rw [ahead_eq_of_peek h, List.cons_append, List.pairwise_cons] at hlt
  rw [offset_of_peek h]
  exact hlt.1 _ hmem

/-- The offset of the token ahead grows with every token passed. -/
lemma Ordered.offset_lt (hs : s.Ordered) (h : s.Passes w s') (hw : w ≠ []) :
    s.offset < s'.offset := by
  induction w generalizing s with
  | nil => exact absurd rfl hw
  | cons t w ih =>
      have h1 := hs.offset_lt_advance h.1
      by_cases hw' : w = []
      · subst hw'
        rw [h.2]
        exact h1
      · exact h1.trans (ih (hs.advance h.1) h.2 hw')

/-- Offsets tell whether tokens have been passed. -/
lemma Ordered.offset_eq_iff (hs : s.Ordered) (h : s.Passes w s') :
    s'.offset = s.offset ↔ w = [] := by
  refine ⟨fun heq => ?_, ?_⟩
  · by_contra hw
    exact (hs.offset_lt h hw).ne' heq
  · rintro rfl
    rw [passes_nil_iff.mp h]

/-- A word does not lead back. -/
lemma Ordered.offset_le (hs : s.Ordered) (h : s.Passes w s') : s.offset ≤ s'.offset := by
  by_cases hw : w = []
  · exact ((hs.offset_eq_iff h).mpr hw).ge
  · exact (hs.offset_lt h hw).le

end TokenStream

end ArrayExpr
