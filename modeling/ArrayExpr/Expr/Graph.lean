/-
Trees with shared parts.

* `Graph`: nodes under numbers, with the numbers of their children; one node
  may be a child several times;
* `Graph.outline?`: the outline of a node, by a stack of nodes that are entered
  and left, each shared node outlined once;
* `Graph.tree?`: the tree without sharing;
* `Leaf`: what stands for a literal in a graph made by hand, a text under any
  kind of token.

Both give nothing where a number stands for no node. In a graph where every
child has a smaller number than its parent both end.
-/
import ArrayExpr.Expr.Outline

namespace ArrayExpr

/-- A text under any kind of token. -/
structure Leaf where
  kind : Kind
  text : String
deriving DecidableEq, Repr

/-- The outline of a leaf. -/
def Leaf.outline (l : Leaf) : Outline := .leaf l.kind.label l.text

/-- Nodes with literals in `ν` and numbers for children. The number of a node
is its place in the list. -/
structure Graph (ν : Type) where
  nodes : List (Node ν Nat)
deriving Repr

namespace Graph

/-- The graph of no nodes. -/
def empty : Graph ν := ⟨[]⟩

/-- The graph with one node more, and its number. -/
def add (g : Graph ν) (n : Node ν Nat) : Graph ν × Nat :=
  (⟨g.nodes ++ [n]⟩, g.nodes.length)

/-- The node with a number. -/
def node? (g : Graph ν) (id : Nat) : Option (Node ν Nat) := g.nodes[id]?

end Graph

/-! ### Maps that may fail -/

/-- The links of a comparison over other children, if there is one for each. -/
def linksMap? (f : χ → Option χ') : List (CompareOp × χ) → Option (List (CompareOp × χ'))
  | [] => some []
  | link :: links => do return (link.1, ← f link.2) :: (← linksMap? f links)

/-- The same form over other children, if there is one for each. -/
def Node.mapChildren? (f : χ → Option χ') : Node ν χ → Option (Node ν χ')
  | literal l => some (.literal l)
  | name s => some (.name s)
  | array rows => do return .array (← rows.mapM (·.mapM f))
  | group inner => do return .group (← f inner)
  | call callee args => do return .call (← f callee) (← args.mapM f)
  | index args => do return .index (← args.mapM f)
  | field s => some (.field s)
  | access base steps => do return .access (← f base) (← steps.mapM f)
  | negate operand => do return .negate (← f operand)
  | arith left op right => do return .arith (← f left) op (← f right)
  | comparison first links => do return .comparison (← f first) (← linksMap? f links)
  | assign target value => do return .assign (← f target) (← f value)

namespace Graph

/-! ### Outlines with a stack -/

/-- The outlines made so far, by number. -/
abbrev Made : Type := List (Nat × Outline)

/-- Outlines what is on a stack. A node is entered first, which puts its
children above it, and left when they are done. -/
def outlineWithin (g : Graph ν) (literalOutline : ν → Outline) :
    Nat → List (Nat × Bool) → Made → Option Made
  | _, [], made => some made
  | 0, _ :: _, _ => none
  | fuel + 1, (id, entered) :: stack, made =>
    if (made.lookup id).isSome then g.outlineWithin literalOutline fuel stack made
    else do
      let node ← g.node? id
      if entered then
        let node ← node.mapChildren? (made.lookup ·)
        g.outlineWithin literalOutline fuel stack ((id, node.outline literalOutline) :: made)
      else
        let below := node.children.map (·, false)
        g.outlineWithin literalOutline fuel (below.reverse ++ (id, true) :: stack) made

/-- The rounds that outlining a graph may take: each node is entered once and
left once, and each child of each node is looked at once. -/
def rounds (g : Graph ν) : Nat := (g.nodes.flatMap Node.children).length + g.nodes.length + 1

/-- The outline of a node, given the outlines of literals. -/
def outline? (g : Graph ν) (literalOutline : ν → Outline) (id : Nat) : Option Outline := do
  let made ← g.outlineWithin literalOutline g.rounds [(id, false)] []
  made.lookup id

/-! ### Trees without sharing -/

/-- The tree of a node down to a given depth. -/
def treeWithin (g : Graph ν) : Nat → Nat → Option (Tree ν Unit)
  | 0, _ => none
  | depth + 1, id => do
    let node ← g.node? id
    let node ← node.mapChildren? (g.treeWithin depth)
    return ⟨node, ()⟩

/-- The tree of a node. No path is longer than the graph has nodes. -/
def tree? (g : Graph ν) (id : Nat) : Option (Tree ν Unit) := g.treeWithin g.nodes.length id

end Graph

end ArrayExpr
