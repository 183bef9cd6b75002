/-
Spans of a text.

* `Span.text`: the characters a span covers, cut at the end of the text;
* `Span.covers`: one span lies inside another;
* `Span.through`: from the start of one span to the end of another.
-/

namespace ArrayExpr

/-- The stretch of a text from offset `start` up to, not including, `stop`. -/
structure Span where
  start : Nat
  stop : Nat
deriving DecidableEq, Repr

namespace Span

/-- The characters of `source` in the span; none if it ends before it starts. -/
def text (s : Span) (source : List Char) : List Char :=
  (source.take s.stop).drop s.start

/-- Whether `other` lies inside `s`. -/
def covers (s other : Span) : Bool :=
  s.start ≤ other.start && other.stop ≤ s.stop

/-- From the start of `s` to the end of `other`. -/
def through (s other : Span) : Span := ⟨s.start, other.stop⟩

/-- The empty span at an offset. -/
def point (offset : Nat) : Span := ⟨offset, offset⟩

end Span

end ArrayExpr
