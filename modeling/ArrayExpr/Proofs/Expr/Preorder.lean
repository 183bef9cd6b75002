/-
Trees in preorder.

* `Tree.mem_preorder_iff`: the preorder in terms of the children;
* `Tree.walkRound`: one round of a walk with a stack; `iterate_walkRound`: what rounds visit
  is the front of the preorder, and what they leave on the stack is the rest;
* `walk_eq_preorder`: a walk meets the nodes in preorder;
* `Tree.descendant?`, `Tree.paths`: nodes by the children that lead to them;
* `map_descendant?_paths`, `mem_paths_iff`, `pairwise_paths`: the paths of a tree lead to its
  nodes in preorder, each path to one of them, in the order of the children.
-/
import Mathlib.Tactic
import ArrayExpr.Expr.Walk

namespace ArrayExpr

namespace Tree

variable {ν σ : Type} {t n : Tree ν σ}

/-! ### A tree and all below it -/

lemma mem_preorder_iff : n ∈ t.preorder ↔ n = t ∨ ∃ c ∈ t.children, n ∈ c.preorder := by
  rw [preorder_eq, List.mem_cons, List.mem_flatMap]

/-- What stands below a node of a tree stands below the tree. -/
lemma preorder_subset (h : n ∈ t.preorder) : n.preorder ⊆ t.preorder := by
  induction t using induction_children with
  | step t ih =>
      rcases mem_preorder_iff.mp h with rfl | ⟨c, hc, hn⟩
      · exact List.Subset.refl _
      · exact fun m hm => mem_preorder_iff.mpr (.inr ⟨c, hc, ih c hc hn hm⟩)

/-! ### Rounds of a walk -/

/-- One round of a walk: the tree on top of the stack is visited, and its children take its
place. With nothing on the stack there is nothing left to do. -/
def walkRound : List (Tree ν σ) × List (Tree ν σ) → List (Tree ν σ) × List (Tree ν σ)
  | ([], visited) => ([], visited)
  | (t :: stack, visited) => (t.children ++ stack, t :: visited)

/-- The rounds are those of the walk. -/
lemma walkFrom_iterate (k : ℕ) (p : List (Tree ν σ) × List (Tree ν σ)) :
    walkFrom (walkRound^[k] p).1 (walkRound^[k] p).2 = walkFrom p.1 p.2 := by
  induction k generalizing p with
  | zero => rfl
  | succ k ih =>
      rw [Function.iterate_succ_apply, ih]
      obtain ⟨_ | ⟨t, stack⟩, visited⟩ := p
      · rfl
      · conv_rhs => rw [walkFrom]
        rfl

/-- **What rounds do**: they visit the front of what stands in preorder on the stack, and leave
the rest. -/
lemma iterate_walkRound (k : ℕ) (stack visited : List (Tree ν σ)) :
    (walkRound^[k] (stack, visited)).2.reverse =
        visited.reverse ++ (stack.flatMap preorder).take k ∧
      (walkRound^[k] (stack, visited)).1.flatMap preorder = (stack.flatMap preorder).drop k := by
  induction k generalizing stack visited with
  | zero => simp
  | succ k ih =>
      rw [Function.iterate_succ_apply]
      cases stack with
      | nil => simpa [walkRound] using ih [] visited
      | cons t stack =>
          have h := ih (t.children ++ stack) (t :: visited)
          rw [List.flatMap_append] at h
          rw [List.flatMap_cons, preorder_eq]
          simpa [walkRound] using h

lemma flatMap_preorder_eq_nil_iff {ts : List (Tree ν σ)} : ts.flatMap preorder = [] ↔ ts = [] := by
  cases ts with
  | nil => simp
  | cons t ts => simp [preorder_eq t]

/-- The stack of a walk is empty after as many rounds as the tree has nodes, and not before. -/
lemma iterate_walkRound_eq_nil_iff (t : Tree ν σ) (k : ℕ) :
    (walkRound^[k] ([t], [])).1 = [] ↔ t.size ≤ k := by
  rw [← flatMap_preorder_eq_nil_iff, (iterate_walkRound k [t] []).2, List.flatMap_singleton,
    List.drop_eq_nil_iff, size]

/-- **A walk meets the nodes in preorder.** -/
lemma walk_eq_preorder (t : Tree ν σ) : t.walk = t.preorder := by
  have hend := (iterate_walkRound_eq_nil_iff t t.size).mpr le_rfl
  have hvisited := (iterate_walkRound t.size [t] []).1
  rw [List.flatMap_singleton, List.reverse_nil, List.nil_append, size,
    List.take_length] at hvisited
  rw [walk, ← walkFrom_iterate t.size ([t], []), hend, walkFrom, size, hvisited]

/-! ### Paths -/

/-- The node to which the numbers of children lead, one after another, if there is one. -/
def descendant? (t : Tree ν σ) : List ℕ → Option (Tree ν σ)
  | [] => some t
  | i :: path => t.children[i]?.bind fun c => c.descendant? path

/-- The paths to a node and to all below it, in the order of the children. -/
def paths (t : Tree ν σ) : List (List ℕ) :=
  t.fold fun n _ => [] :: n.children.zipIdx.flatMap fun p => p.1.map (p.2 :: ·)

lemma paths_eq (t : Tree ν σ) :
    t.paths = [] :: t.children.zipIdx.flatMap fun p => p.1.paths.map (p.2 :: ·) := by
  conv => lhs; unfold paths
  rw [fold_eq, Node.children_map, List.zipIdx_map, List.flatMap_map]
  rfl

/-- **The paths lead to the nodes in preorder.** -/
lemma map_descendant?_paths (t : Tree ν σ) : t.paths.map t.descendant? = t.preorder.map some := by
  induction t using induction_children with
  | step t ih =>
      have hchild : ∀ p ∈ t.children.zipIdx, (p.1.paths.map (p.2 :: ·)).map t.descendant? =
          p.1.preorder.map some := fun p hp => by
        have hget : t.children[p.2]? = some p.1 := List.mem_zipIdx_iff_getElem?.mp hp
        rw [← ih p.1 (List.mem_of_getElem? hget), List.map_map]
        exact List.map_congr_left fun path _ => by simp [descendant?, hget]
      have hfst : t.children.zipIdx.flatMap (fun p => p.1.preorder.map some) =
          t.children.flatMap fun c => c.preorder.map some := by
        conv_rhs => rw [← List.zipIdx_map_fst 0 t.children, List.flatMap_map]
      rw [paths_eq, preorder_eq, List.map_cons, List.map_cons, List.map_flatMap, List.map_flatMap,
        List.flatMap_congr hchild, hfst]
      rfl

/-- **Every node has its path.** -/
lemma mem_paths_iff {path : List ℕ} : path ∈ t.paths ↔ (t.descendant? path).isSome = true := by
  induction path generalizing t with
  | nil => simp [paths_eq t, descendant?]
  | cons i path ih =>
      simp only [paths_eq t, descendant?, List.mem_cons, reduceCtorEq, List.mem_flatMap,
        List.mem_map, List.cons.injEq, false_or]
      constructor
      · rintro ⟨p, hp, path', hpath', rfl, rfl⟩
        rw [List.mem_zipIdx_iff_getElem?.mp hp, Option.bind_some]
        exact ih.mp hpath'
      · intro h
        obtain ⟨c, hc⟩ := Option.isSome_iff_exists.mp (Option.isSome_of_isSome_bind h)
        rw [hc, Option.bind_some] at h
        exact ⟨(c, i), List.mem_zipIdx_iff_getElem?.mpr hc, path, ih.mpr h, rfl, rfl⟩

/-- **Paths stand in lexical order**: those that lead on behind the path to a node, and those
through one child behind those through the children before it. -/
lemma pairwise_paths (t : Tree ν σ) : t.paths.Pairwise (List.Lex (· < ·)) := by
  induction t using induction_children with
  | step t ih =>
      have hnumbers : t.children.zipIdx.Pairwise fun p q => p.2 < q.2 := by
        rw [← List.pairwise_map, List.zipIdx_map_snd]
        exact List.pairwise_lt_range'
      rw [paths_eq, List.pairwise_cons, List.pairwise_flatMap]
      refine ⟨fun path h => ?_, fun p hp => ?_, hnumbers.imp fun hlt path h path' h' => ?_⟩
      · obtain ⟨p, -, h⟩ := List.mem_flatMap.mp h
        obtain ⟨path, -, rfl⟩ := List.mem_map.mp h
        exact .nil
      · have hchild := ih p.1 (List.mem_of_getElem? (List.mem_zipIdx_iff_getElem?.mp hp))
        exact List.pairwise_map.mpr (hchild.imp .cons)
      · obtain ⟨path, -, rfl⟩ := List.mem_map.mp h
        obtain ⟨path', -, rfl⟩ := List.mem_map.mp h'
        exact .rel hlt

/-! ### Walks -/

/-- How a walk over a tree goes. -/
structure Walks (t : Tree ν σ) : Prop where
  /-- it comes to the preorder, -/
  walk_eq : t.walk = t.preorder
  /-- of which it has visited one node more after each round, -/
  visited : ∀ k, (walkRound^[k] ([t], [])).2.reverse = t.preorder.take k
  /-- and ends with the round that visits the last of them; -/
  ends : ∀ k, (walkRound^[k] ([t], [])).1 = [] ↔ t.size ≤ k
  /-- each node is visited where a path leads to it, -/
  leads : t.walk.map some = t.paths.map t.descendant?
  /-- for every path that leads to a node, -/
  covers : ∀ path, path ∈ t.paths ↔ (t.descendant? path).isSome = true
  /-- once, and in the order of the paths -/
  ordered : t.paths.Pairwise (List.Lex (· < ·))

/-- **A walk visits every node once, in preorder.** -/
lemma walks (t : Tree ν σ) : t.Walks where
  walk_eq := t.walk_eq_preorder
  visited := fun k => by simpa using (iterate_walkRound k [t] []).1
  ends := t.iterate_walkRound_eq_nil_iff
  leads := by rw [walk_eq_preorder, map_descendant?_paths]
  covers := fun _ => mem_paths_iff
  ordered := t.pairwise_paths

end Tree

end ArrayExpr
