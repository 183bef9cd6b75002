/-
The trees of a graph with shared nodes.

* `Node.mapChildren?_eq_some`, `Node.isSome_of_mapChildren?`: a form goes over to other
  children exactly if there is one for each;
* `Graph.Acyclic`: every child is a node, and no node lies below itself;
* `Graph.Unfolds`: the tree of a node, where every child has a tree of its own;
* `Graph.exists_tree`: in an acyclic graph every node has a tree, and it is found without
  a limit being met.
-/
import ArrayExpr.Expr.Graph
import ArrayExpr.Proofs.Layout.Tree
import Mathlib.Logic.Relation
import Mathlib.Data.Finset.Card

namespace ArrayExpr

/-! ### Other children -/

section Children

variable {ν χ χ' : Type} {f : χ → Option χ'} {k : χ → χ'} {cs : List χ}

lemma mapM_eq_some (h : ∀ c ∈ cs, f c = some (k c)) : cs.mapM f = some (cs.map k) := by
  induction cs with
  | nil => rfl
  | cons c cs ih =>
      obtain ⟨hc, hcs⟩ := List.forall_mem_cons.mp h
      rw [List.mapM_cons, hc, ih hcs]
      rfl

lemma isSome_of_mapM {ds : List χ'} (h : cs.mapM f = some ds) : ∀ c ∈ cs, (f c).isSome = true := by
  induction cs generalizing ds with
  | nil => exact List.forall_mem_nil _
  | cons c cs ih =>
      simp only [List.mapM_cons, Option.bind_eq_bind, Option.bind_eq_some_iff] at h
      obtain ⟨d, hc, ds', hcs, -⟩ := h
      exact List.forall_mem_cons.mpr ⟨Option.isSome_iff_exists.mpr ⟨d, hc⟩, ih hcs⟩

lemma linksMap?_eq_some {links : List (CompareOp × χ)}
    (h : ∀ c ∈ links.map (·.2), f c = some (k c)) :
    linksMap? f links = some (links.map fun link => (link.1, k link.2)) := by
  induction links with
  | nil => rfl
  | cons link links ih =>
      obtain ⟨hc, hcs⟩ := List.forall_mem_cons.mp h
      rw [linksMap?, hc, ih hcs]
      rfl

lemma isSome_of_linksMap? {links : List (CompareOp × χ)} {links' : List (CompareOp × χ')}
    (h : linksMap? f links = some links') : ∀ c ∈ links.map (·.2), (f c).isSome = true := by
  induction links generalizing links' with
  | nil => exact List.forall_mem_nil _
  | cons link links ih =>
      simp only [linksMap?, Option.bind_eq_bind, Option.bind_eq_some_iff] at h
      obtain ⟨d, hc, ds', hcs, -⟩ := h
      exact List.forall_mem_cons.mpr ⟨Option.isSome_iff_exists.mpr ⟨d, hc⟩, ih hcs⟩

namespace Node

variable {n : Node ν χ}

/-- **With a child for each of its children** a form goes over to them. -/
lemma mapChildren?_eq_some (h : ∀ c ∈ n.children, f c = some (k c)) :
    n.mapChildren? f = some (n.map id k) := by
  cases n with
  | array rows =>
      have hrows : ∀ row ∈ rows, row.mapM f = some (row.map k) := fun row hrow =>
        mapM_eq_some fun c hc => h c (List.mem_flatten.mpr ⟨row, hrow, hc⟩)
      rw [mapChildren?, mapM_eq_some hrows]
      rfl
  | comparison first links =>
      obtain ⟨hfirst, hlinks⟩ := List.forall_mem_cons.mp h
      rw [mapChildren?, hfirst, linksMap?_eq_some hlinks]
      rfl
  | call head parts | access head parts =>
      obtain ⟨hhead, hparts⟩ := List.forall_mem_cons.mp h
      rw [mapChildren?, hhead, mapM_eq_some hparts]
      rfl
  | index args =>
      have hargs : ∀ c ∈ args, f c = some (k c) := h
      rw [mapChildren?, mapM_eq_some hargs]
      rfl
  | _ => simp_all [mapChildren?, map, children]

/-- A form goes over to other children only with one for each. -/
lemma isSome_of_mapChildren? {n' : Node ν χ'} (h : n.mapChildren? f = some n') :
    ∀ c ∈ n.children, (f c).isSome = true := by
  cases n with
  | array rows =>
      simp only [mapChildren?, Option.bind_eq_bind, Option.bind_eq_some_iff] at h
      obtain ⟨rows', hrows, -⟩ := h
      intro c hc
      obtain ⟨row, hrow, hc⟩ := List.mem_flatten.mp hc
      obtain ⟨row', hrow'⟩ := Option.isSome_iff_exists.mp (isSome_of_mapM hrows row hrow)
      exact isSome_of_mapM hrow' c hc
  | comparison first links =>
      simp only [mapChildren?, Option.bind_eq_bind, Option.bind_eq_some_iff] at h
      obtain ⟨d, hfirst, links', hlinks, -⟩ := h
      exact List.forall_mem_cons.mpr
        ⟨Option.isSome_iff_exists.mpr ⟨d, hfirst⟩, isSome_of_linksMap? hlinks⟩
  | call head parts | access head parts =>
      simp only [mapChildren?, Option.bind_eq_bind, Option.bind_eq_some_iff] at h
      obtain ⟨d, hhead, parts', hparts, -⟩ := h
      exact List.forall_mem_cons.mpr
        ⟨Option.isSome_iff_exists.mpr ⟨d, hhead⟩, isSome_of_mapM hparts⟩
  | index args =>
      simp only [mapChildren?, Option.bind_eq_bind, Option.bind_eq_some_iff] at h
      obtain ⟨args', hargs, -⟩ := h
      exact isSome_of_mapM hargs
  | _ =>
      simp only [mapChildren?, Option.bind_eq_bind, Option.bind_eq_some_iff] at h
      grind [children]

end Node

end Children

namespace Graph

open Relation

variable {ν : Type} {g : Graph ν} {i c : ℕ} {n : Node ν ℕ} {t t' : Tree ν Unit}

/-! ### Acyclic graphs -/

/-- One node has another for a child. -/
def HasChild (g : Graph ν) (i c : ℕ) : Prop := ∃ n, g.node? i = some n ∧ c ∈ n.children

/-- Every child is a node, and no node lies below itself. -/
structure Acyclic (g : Graph ν) : Prop where
  closed : ∀ {i c}, g.HasChild i c → c < g.nodes.length
  loopless : ∀ i, ¬ TransGen g.HasChild i i

/-- If every child has a smaller number, so has every node below. -/
lemma lt_of_below {j : ℕ} (h : ∀ {i c}, g.HasChild i c → c < i) (hj : TransGen g.HasChild i j) :
    j < i := by
  induction hj with
  | single hc => exact h hc
  | tail _ hc ih => exact (h hc).trans ih

/-- A graph is acyclic if every child has a smaller number. -/
lemma acyclic_of_lt (h : ∀ {i c}, g.HasChild i c → c < i) : g.Acyclic where
  closed := fun hc => by
    obtain ⟨n, hn, -⟩ := id hc
    exact (h hc).trans (List.getElem?_eq_some_iff.mp hn).1
  loopless := fun _ hi => (lt_of_below h hi).false

lemma lt_of_node? (h : g.node? i = some n) : i < g.nodes.length :=
  (List.getElem?_eq_some_iff.mp h).1

lemma exists_node? (h : i < g.nodes.length) : ∃ n, g.node? i = some n :=
  ⟨g.nodes[i], List.getElem?_eq_getElem h⟩

open Classical in
/-- A node and all nodes below it. -/
noncomputable def below (g : Graph ν) (i : ℕ) : Finset ℕ :=
  (Finset.range g.nodes.length).filter (ReflTransGen g.HasChild i)

lemma mem_below {j : ℕ} : j ∈ g.below i ↔ j < g.nodes.length ∧ ReflTransGen g.HasChild i j := by
  simp only [below, Finset.mem_filter, Finset.mem_range]

/-- Below a child there are fewer nodes. -/
lemma Acyclic.card_below_lt (hg : g.Acyclic) (h : g.HasChild i c) :
    (g.below c).card < (g.below i).card := by
  obtain ⟨n, hn, -⟩ := id h
  refine Finset.card_lt_card
    ((Finset.ssubset_iff_of_subset fun j hj => ?_).mpr ⟨i, ?_, fun hi => ?_⟩)
  · rw [mem_below] at hj ⊢
    exact ⟨hj.1, .head h hj.2⟩
  · exact mem_below.mpr ⟨lt_of_node? hn, .refl⟩
  · exact hg.loopless i (.head' h (mem_below.mp hi).2)

/-! ### Trees -/

/-- **The tree of a node**, in which every child has a tree of its own. -/
inductive Unfolds (g : Graph ν) : ℕ → Tree ν Unit → Prop
  | node {i : ℕ} {n : Node ν ℕ} {k : ℕ → Tree ν Unit} (hn : g.node? i = some n)
      (hk : ∀ c ∈ n.children, Unfolds g c (k c)) : Unfolds g i ⟨n.map id k, ()⟩

/-- A node has one tree. -/
lemma Unfolds.unique (h : g.Unfolds i t) (h' : g.Unfolds i t') : t = t' := by
  induction h generalizing t' with
  | node hn hk ih =>
      cases h' with
      | node hn' hk' =>
          obtain rfl := Option.some.inj (hn.symm.trans hn')
          rw [Tree.map_congr_node fun c hc => ih c hc (hk' c hc)]

/-- Where there is room for all nodes below a node, its tree is found. -/
lemma Acyclic.exists_treeWithin (hg : g.Acyclic) (hi : i < g.nodes.length) {depth : ℕ}
    (hd : (g.below i).card ≤ depth) : ∃ t, g.treeWithin depth i = some t ∧ g.Unfolds i t := by
  induction depth generalizing i with
  | zero =>
      have hmem : i ∈ g.below i := mem_below.mpr ⟨hi, .refl⟩
      rw [Finset.card_eq_zero.mp (Nat.le_zero.mp hd)] at hmem
      cases hmem
  | succ depth ih =>
      obtain ⟨n, hn⟩ := exists_node? hi
      have hchild : ∀ c ∈ n.children, ∃ t, g.treeWithin depth c = some t ∧ g.Unfolds c t := by
        intro c hc
        have hlt := hg.card_below_lt ⟨n, hn, hc⟩
        exact ih (hg.closed ⟨n, hn, hc⟩) (by omega)
      have : Nonempty (Tree ν Unit) := ⟨⟨.name "", ()⟩⟩
      choose! k hk hunfolds using hchild
      refine ⟨⟨n.map id k, ()⟩, ?_, .node hn hunfolds⟩
      rw [treeWithin, hn, Option.bind_eq_bind, Option.bind_some, Node.mapChildren?_eq_some hk]
      rfl

/-- **In an acyclic graph every node has a tree**, and it is found. -/
theorem Acyclic.exists_tree (hg : g.Acyclic) (hi : i < g.nodes.length) :
    ∃ t, g.tree? i = some t ∧ g.Unfolds i t := by
  have hsubset : g.below i ⊆ Finset.range g.nodes.length := fun j hj =>
    Finset.mem_range.mpr (mem_below.mp hj).1
  exact hg.exists_treeWithin hi ((Finset.card_le_card hsubset).trans_eq (Finset.card_range _))

end Graph

end ArrayExpr
