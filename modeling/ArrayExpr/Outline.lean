/-
Outlines: trees with labels, in which an expression is shown and compared.

* `Outline`: a leaf with a label and a text, or a branch with a label and
  parts;
* `Outline.pretty`: one line for each part, two spaces further in on each
  level; a branch whose only part is a leaf shares its line.
-/

namespace ArrayExpr

/-- A labelled tree. -/
inductive Outline where
  | leaf (label text : String)
  | branch (label : String) (parts : List Outline)
deriving Repr

namespace Outline

/-- The spaces before a line. -/
def indent (level : Nat) : String := String.ofList (List.replicate (2 * level) ' ')

mutual

/-- The lines of an outline, from a level on. -/
def lines (level : Nat) : Outline → List String
  | leaf _ text => [indent level ++ text ++ "\n"]
  | branch label [leaf _ text] => [indent level ++ label ++ "\t" ++ text ++ "\n"]
  | branch label parts => (indent level ++ label ++ "\n") :: linesOf (level + 1) parts

/-- The lines of several outlines, one after another. -/
def linesOf (level : Nat) : List Outline → List String
  | [] => []
  | part :: parts => part.lines level ++ linesOf level parts

end

/-- An outline as indented text. -/
def pretty (o : Outline) : String := String.join (o.lines 0)

end Outline

end ArrayExpr
