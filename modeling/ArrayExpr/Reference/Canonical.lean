/-
The trees of the reference grammar and their canonical form.

* `Reference.extend`: steps in a row stand in one `postfix` branch;
* `Reference.reshape`: one branch of a tree of the grammar, brought into the
  form in which expressions are exported;
* `Reference.canonical`: a whole tree, from the leaves up.

The grammar puts the arguments of a call beside its callee, writes every index
and every field as a branch around its base, and keeps the minus sign of a
negation. Branches with other labels stay as they are.
-/
import ArrayExpr.Outline

namespace ArrayExpr

namespace Reference

/-- An operand with an index or a field after it; steps in a row stand in one
branch. -/
def extend (base step : Outline) : Outline :=
  match base with
  | .branch "postfix" parts => .branch "postfix" (parts ++ [step])
  | base => .branch "postfix" [base, step]

/-- A branch in canonical form, given its parts in canonical form. -/
def reshape (label : String) (parts : List Outline) : Outline :=
  match label, parts with
  | "call", callee :: args => .branch "call" [callee, .branch "args" args]
  | "index", base :: subscripts => extend base (.branch "index" subscripts)
  | "field", [base, name] => extend base (.branch "field" [name])
  | "neg", first :: others => .branch "neg" [others.getLastD first]
  | label, parts => .branch label parts

@[simp] theorem reshape_call (callee : Outline) (args : List Outline) :
    reshape "call" (callee :: args) = .branch "call" [callee, .branch "args" args] := rfl

@[simp] theorem reshape_index (base : Outline) (subscripts : List Outline) :
    reshape "index" (base :: subscripts) = extend base (.branch "index" subscripts) := rfl

@[simp] theorem reshape_field (base name : Outline) :
    reshape "field" [base, name] = extend base (.branch "field" [name]) := rfl

mutual

/-- The canonical form of a tree of the reference grammar. -/
def canonical : Outline → Outline
  | .leaf label text => .leaf label text
  | .branch label parts => reshape label (canonicalAll parts)

/-- The canonical forms of several trees. -/
def canonicalAll : List Outline → List Outline
  | [] => []
  | part :: parts => canonical part :: canonicalAll parts

end

/-- Each tree is brought into canonical form by itself. -/
theorem canonicalAll_eq (parts : List Outline) : canonicalAll parts = parts.map canonical := by
  induction parts with
  | nil => rfl
  | cons part parts ih => rw [canonicalAll, ih, List.map_cons]

/-- The canonical form of a branch from those of its parts. -/
theorem canonical_branch (label : String) (parts : List Outline) :
    canonical (.branch label parts) = reshape label (parts.map canonical) := by
  rw [canonical, canonicalAll_eq]

end Reference

end ArrayExpr
