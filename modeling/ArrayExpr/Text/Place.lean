/-
Places in a text.

* `Place.next`: the place after one character; a newline starts a line;
* `Place.after`: the place after a run of characters;
* `lineColumn`: line and column of an offset, counted from the text before it
  and defined past the end of the text too.

A `Place` is what a scan carries along; `lineColumn` is what it must agree
with, and looks at the text alone.
-/

namespace ArrayExpr

/-- A place in a text: how many characters stand before it, and its line and
column, both counted from one. -/
structure Place where
  offset : Nat
  line : Nat
  column : Nat
deriving DecidableEq, Repr

namespace Place

/-- The place before the first character. -/
def origin : Place := ⟨0, 1, 1⟩

/-- The place after a character that stands at `p`. -/
def next (p : Place) (c : Char) : Place :=
  if c = '\n' then ⟨p.offset + 1, p.line + 1, 1⟩
  else ⟨p.offset + 1, p.line, p.column + 1⟩

/-- The place after a run of characters that starts at `p`. -/
def after (p : Place) (text : List Char) : Place :=
  text.foldl next p

@[simp] theorem after_nil (p : Place) : p.after [] = p := rfl

@[simp] theorem after_cons (p : Place) (c : Char) (text : List Char) :
    p.after (c :: text) = (p.next c).after text := rfl

theorem after_append (p : Place) (s t : List Char) :
    p.after (s ++ t) = (p.after s).after t := by
  simp [after, List.foldl_append]

@[simp] theorem next_offset (p : Place) (c : Char) :
    (p.next c).offset = p.offset + 1 := by
  unfold next; split <;> rfl

/-- A run moves the offset by its length. -/
theorem after_offset (p : Place) (text : List Char) :
    (p.after text).offset = p.offset + text.length := by
  induction text generalizing p with
  | nil => rfl
  | cons c text ih => rw [after_cons, ih, next_offset, List.length_cons]; omega

@[simp] theorem after_origin_offset (text : List Char) :
    (origin.after text).offset = text.length := by
  rw [after_offset, origin, Nat.zero_add]

end Place

/-! ### Line and column of an offset -/

/-- Where the line of an offset starts: after the last newline before it, or
at the start of the text. -/
def lineStart (source : List Char) (offset : Nat) : Nat :=
  let before := source.take offset
  before.length - (before.reverse.takeWhile (· != '\n')).length

/-- Line and column of an offset, both counted from one. -/
def lineColumn (source : List Char) (offset : Nat) : Nat × Nat :=
  ((source.take offset).count '\n' + 1, offset - lineStart source offset + 1)

end ArrayExpr
