/-
The place a scan reaches.

* `Place.after_line`, `Place.after_column`: the line counts the newlines passed,
  the column the characters since the last of them;
* `Place.after_of_line`: along a line only offset and column move;
* `lineColumn_append`, `lineColumn_after`: what a scan carries along is what the
  text before it says;
* `Place.Matches`, `Place.Matches.next`: one character more keeps line and column
  in agreement with the offset, past the end of the text too.
-/
import Mathlib.Data.List.Induction
import ArrayExpr.Text.Place

namespace ArrayExpr

namespace Place

lemma next_line (p : Place) (c : Char) :
    (p.next c).line = p.line + if c = '\n' then 1 else 0 := by
  unfold next
  split_ifs <;> rfl

/-- Each newline starts a line. -/
lemma after_line (p : Place) (text : List Char) :
    (p.after text).line = p.line + text.count '\n' := by
  induction text generalizing p with
  | nil => rfl
  | cons c text ih =>
      rw [after_cons, ih, next_line, List.count_cons]
      simp only [beq_iff_eq]
      omega

/-- Columns are counted from the last newline. -/
lemma after_column (text : List Char) :
    (origin.after text).column = (text.reverse.takeWhile (· != '\n')).length + 1 := by
  induction text using List.reverseRecOn with
  | nil => rfl
  | append_singleton text c ih =>
      rw [after_append, after_cons, after_nil, List.reverse_append, List.reverse_singleton,
        List.singleton_append]
      by_cases hc : c = '\n'
      · subst hc
        rfl
      · rw [next, if_neg hc, ih, List.takeWhile_cons_of_pos (by simpa using hc),
          List.length_cons]

/-- Along a line only offset and column move. -/
lemma after_of_line (p : Place) {text : List Char} (h : '\n' ∉ text) :
    p.after text = ⟨p.offset + text.length, p.line, p.column + text.length⟩ := by
  induction text generalizing p with
  | nil => rfl
  | cons c text ih =>
      rw [List.mem_cons, not_or] at h
      rw [after_cons, ih _ h.2, next, if_neg (Ne.symm h.1), List.length_cons]
      simp only [mk.injEq, true_and]
      omega

end Place

/-- Line and column are those of the text in front. -/
lemma lineColumn_append (front rest : List Char) :
    lineColumn (front ++ rest) front.length =
      (front.count '\n' + 1, (front.reverse.takeWhile (· != '\n')).length + 1) := by
  have hle : (front.reverse.takeWhile (· != '\n')).length ≤ front.length := by
    have hprefix := List.takeWhile_prefix (p := (· != '\n')) (l := front.reverse)
    simpa using hprefix.length_le
  rw [lineColumn, lineStart, List.take_left, Nat.sub_sub_self hle]

/-- **The place a scan reaches has the line and the column of its offset.** -/
theorem lineColumn_after (front rest : List Char) :
    lineColumn (front ++ rest) front.length =
      ((Place.origin.after front).line, (Place.origin.after front).column) := by
  rw [lineColumn_append, Place.after_line, Place.after_column, Nat.add_comm]
  rfl

/-! ### One character after another -/

lemma lineStart_le (source : List Char) (offset : Nat) : lineStart source offset ≤ offset :=
  Nat.le_trans (Nat.sub_le _ _) (List.length_take_le _ _)

/-- Behind a newline a line starts; behind anything else, and past the end of the
text, the line goes on. -/
lemma lineStart_succ (source : List Char) (offset : Nat) :
    lineStart source (offset + 1) =
      if source[offset]? = some '\n' then offset + 1 else lineStart source offset := by
  rw [lineStart, lineStart, List.take_add_one]
  cases h : source[offset]? with
  | none => simp
  | some c =>
      obtain ⟨hlt, -⟩ := List.getElem?_eq_some_iff.mp h
      have hlen : (source.take offset).length = offset := List.length_take_of_le (Nat.le_of_lt hlt)
      simp only [Option.toList_some, List.reverse_append, List.reverse_singleton,
        List.singleton_append, List.length_append, List.length_singleton, Option.some.injEq, hlen]
      by_cases hc : c = '\n'
      · simp [hc]
      · rw [List.takeWhile_cons_of_pos (by simpa using hc), List.length_cons, if_neg hc,
          Nat.add_sub_add_right]

lemma count_take_succ (source : List Char) (offset : Nat) :
    (source.take (offset + 1)).count '\n' =
      (source.take offset).count '\n' + if source[offset]? = some '\n' then 1 else 0 := by
  rw [List.take_add_one, List.count_append]
  cases source[offset]? with
  | none => rfl
  | some c => simp [List.count_singleton]

/-- Line and column are those of the offset in `source`. -/
def Place.Matches (source : List Char) (p : Place) : Prop :=
  (p.line, p.column) = lineColumn source p.offset

lemma Place.matches_origin (source : List Char) : origin.Matches source := by
  simp [Matches, origin, lineColumn, lineStart]

/-- The next character of the text, and the sentinel past its end, keep line and
column in agreement with the offset. -/
lemma Place.Matches.next {source : List Char} {p : Place} (hp : p.Matches source) :
    (p.next (source[p.offset]?.getD '\x00')).Matches source := by
  obtain ⟨hline, hcolumn⟩ := Prod.mk.inj hp
  have hle := lineStart_le source p.offset
  have hnext : (source[p.offset]?.getD '\x00' = '\n') = (source[p.offset]? = some '\n') := by
    cases source[p.offset]? <;> simp
  rw [Matches, lineColumn, next_offset, lineStart_succ, count_take_succ, Place.next]
  simp only [hnext]
  split_ifs
  · simp [hline]
  · refine Prod.ext hline ?_
    simp only [hcolumn]
    omega

end ArrayExpr
