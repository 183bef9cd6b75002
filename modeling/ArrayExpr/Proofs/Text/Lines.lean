/-
Lines of a text.

* `StartsLine`: a line starts at the beginning of a text and behind each newline;
* `IsLine`: a line by its number, with the offset at which it starts;
* `isLine_lineColumn`, `le_lineStart`: the line of an offset is the last one that starts
  up to there;
* `lineColumn_lt_succ`: one offset more leads to a later place;
* `lineColumn_identifies`: line and column grow with the offset, and give it back.
-/
import Mathlib.Data.Nat.Count
import Mathlib.Data.Prod.Lex
import Mathlib.Order.Monotone.Basic
import ArrayExpr.Proofs.Scanner.Places

namespace ArrayExpr

variable {source : List Char} {offset i : ℕ}

/-! ### Where lines start -/

/-- A line starts at the beginning of a text and behind each newline. -/
def StartsLine (source : List Char) (i : ℕ) : Prop := i = 0 ∨ source[i - 1]? = some '\n'

instance (source : List Char) : DecidablePred (StartsLine source) := fun _ =>
  inferInstanceAs (Decidable (_ ∨ _))

/-- The line with the number `line` starts at `start`: the lines before it start before. -/
structure IsLine (source : List Char) (line start : ℕ) : Prop where
  starts : StartsLine source start
  number : line = Nat.count (StartsLine source) start + 1

lemma startsLine_zero (source : List Char) : StartsLine source 0 := .inl rfl

lemma startsLine_succ_iff : StartsLine source (i + 1) ↔ source[i]? = some '\n' := by
  simp [StartsLine]

/-- Up to an offset one line more starts than there are newlines in front of it. -/
lemma count_startsLine (source : List Char) (offset : ℕ) :
    Nat.count (StartsLine source) (offset + 1) = (source.take offset).count '\n' + 1 := by
  induction offset with
  | zero => simp [Nat.count_succ, startsLine_zero]
  | succ offset ih =>
      rw [Nat.count_succ, ih, count_take_succ, Nat.add_right_comm]
      simp only [startsLine_succ_iff]

/-! ### The line of an offset -/

/-- **The line of an offset** has the number that the newlines in front of the offset give it. -/
lemma isLine_lineColumn (source : List Char) (offset : ℕ) :
    IsLine source (lineColumn source offset).1 (lineStart source offset) := by
  induction offset with
  | zero =>
      exact ⟨by simpa [lineStart] using startsLine_zero source, by simp [lineColumn, lineStart]⟩
  | succ offset ih =>
      obtain ⟨hstarts, hnumber⟩ := ih
      simp only [lineColumn, lineStart_succ, count_take_succ] at hnumber ⊢
      split_ifs with h
      · refine ⟨startsLine_succ_iff.mpr h, ?_⟩
        rw [count_startsLine]
      · exact ⟨hstarts, hnumber⟩

/-- No line starts between the line of an offset and the offset. -/
lemma le_lineStart (h : StartsLine source i) (hi : i ≤ offset) : i ≤ lineStart source offset := by
  by_contra hlt
  have hline := (isLine_lineColumn source offset).number
  have hbefore := Nat.count_strict_mono (isLine_lineColumn source offset).starts (Nat.not_le.mp hlt)
  have hup := Nat.count_monotone (StartsLine source) (Nat.succ_le_succ hi)
  rw [Nat.succ_eq_add_one, Nat.count_succ, if_pos h, Nat.succ_eq_add_one, count_startsLine] at hup
  rw [lineColumn] at hline
  omega

/-! ### Places in order -/

/-- One offset more leads to a later place: further along the line, or in the next line. -/
lemma lineColumn_lt_succ (source : List Char) (offset : ℕ) :
    toLex (lineColumn source offset) < toLex (lineColumn source (offset + 1)) := by
  have hle := lineStart_le source offset
  rw [Prod.Lex.toLex_lt_toLex, lineColumn, lineColumn, lineStart_succ, count_take_succ]
  split_ifs
  · exact .inl (by simp)
  · exact .inr ⟨rfl, by simp only; omega⟩

/-- **Line and column identify an offset**, inside the text and past its end. They grow with
the offset, are counted from one, and give it back: the line has its number among all lines of
the text and is the last that starts up to the offset, and the column is counted from there. -/
theorem lineColumn_identifies (source : List Char) :
    (∀ a b, a < b → toLex (lineColumn source a) < toLex (lineColumn source b)) ∧
      ∀ offset, 1 ≤ (lineColumn source offset).1 ∧ 1 ≤ (lineColumn source offset).2 ∧
        ∃ start, IsLine source (lineColumn source offset).1 start ∧
          (∀ i ≤ offset, StartsLine source i → i ≤ start) ∧
          offset = start + (lineColumn source offset).2 - 1 := by
  refine ⟨fun a b h => strictMono_nat_of_lt_succ (lineColumn_lt_succ source) h, fun offset => ?_⟩
  have hle := lineStart_le source offset
  refine ⟨by simp [lineColumn], by simp [lineColumn], lineStart source offset,
    isLine_lineColumn source offset, fun i hi h => le_lineStart h hi, ?_⟩
  rw [lineColumn]
  omega

/-- A newline, and an offset past the end of the text that the newline closes. -/
theorem lineColumn_identifies_end : (1 : ℕ) < 4 ∧ lineColumn ['x', '\n'] 1 = (1, 2) ∧
    lineColumn ['x', '\n'] 4 = (2, 3) ∧
      toLex (lineColumn ['x', '\n'] 1) < toLex (lineColumn ['x', '\n'] 4) :=
  ⟨by decide, rfl, rfl, (lineColumn_identifies ['x', '\n']).1 1 4 (by decide)⟩

end ArrayExpr
