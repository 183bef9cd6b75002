/-
Walks over trees.

* `Tree.preorder`: a tree, then all below it, children in source order;
* `Tree.walk`: the same order by a stack of what is still to be visited, the
  first child on top;
* `Tree.size`: the number of nodes.
-/
import ArrayExpr.Expr.Basic

namespace ArrayExpr

namespace Tree

/-- A tree and all below it, each before its children. -/
def preorder (t : Tree ν σ) : List (Tree ν σ) :=
  t :: t.children.attach.flatMap fun ⟨c, _⟩ => preorder c
termination_by sizeOf t
decreasing_by exact sizeOf_lt_of_mem_children ‹_›

theorem preorder_eq (t : Tree ν σ) : t.preorder = t :: t.children.flatMap preorder := by
  conv => lhs; unfold preorder
  rw [List.flatMap_subtype]
  · rw [List.unattach_attach]
  · exact fun _ _ => rfl

/-- The number of nodes. -/
def size (t : Tree ν σ) : Nat := t.preorder.length

/-- Visits what is on a stack, from the top, and puts the children of each in
its place. The list of those visited grows at the front. -/
def walkFrom (stack visited : List (Tree ν σ)) : List (Tree ν σ) :=
  match stack with
  | [] => visited.reverse
  | t :: rest => walkFrom (t.children ++ rest) (t :: visited)
termination_by (stack.flatMap preorder).length
decreasing_by
  rw [List.flatMap_append, List.flatMap_cons, preorder_eq t]
  exact Nat.lt_succ_self _

/-- The nodes of a tree in the order of the walk. -/
def walk (t : Tree ν σ) : List (Tree ν σ) := walkFrom [t] []

end Tree

end ArrayExpr
