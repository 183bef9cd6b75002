/-
An outline tells the tree apart from its layout.

* `Node.outline_injective`: the outline of a node tells its form, its literals and the
  outlines of its children;
* `Node.map_eq_of_map_eq`: what tells the children of nodes apart tells the nodes apart;
* `shape_eq_of_outline_eq`: trees with one outline have one shape.
-/
import ArrayExpr.Expr.Outline
import ArrayExpr.Expr.Shape
import ArrayExpr.Proofs.Reference.Run

namespace ArrayExpr

/-! ### Outlines of nodes -/

lemma LiteralKind.label_injective : Function.Injective LiteralKind.label := by
  intro k k' h
  cases k <;> cases k' <;> simp_all [LiteralKind.label]

lemma Literal.outline_injective : Function.Injective Literal.outline := by
  rintro ⟨k, text⟩ ⟨k', text'⟩ h
  obtain ⟨hk, htext⟩ := Outline.leaf.inj h
  exact (Literal.mk.injEq ..).mpr ⟨LiteralKind.label_injective hk, htext⟩

lemma ArithOp.outline_injective : Function.Injective ArithOp.outline := by
  intro op op' h
  cases op <;> cases op' <;> simp_all [ArithOp.outline, ArithOp.label]

lemma CompareOp.outline_injective : Function.Injective CompareOp.outline := by
  intro op op' h
  cases op <;> cases op' <;> simp_all [CompareOp.outline, CompareOp.label]

/-- The operators and operands of a comparison, in turn. -/
lemma links_injective : Function.Injective fun links : List (CompareOp × Outline) =>
    links.flatMap fun link => [link.1.outline, link.2] := by
  intro links links' h
  induction links generalizing links' with
  | nil => cases links' <;> simp_all
  | cons link links ih =>
      cases links' with
      | nil => simp at h
      | cons link' links' =>
          simp only [List.flatMap_cons, List.cons_append, List.nil_append, List.cons.injEq] at h
          obtain ⟨hop, hright, h⟩ := h
          rw [ih h, Prod.ext (CompareOp.outline_injective hop) hright]

/-- **The outline of a node tells its form.** -/
lemma Node.outline_injective :
    Function.Injective (Node.outline Literal.outline : Node Literal Outline → Outline) := by
  have hname : ∀ (l : Literal) s, Literal.outline l ≠ nameOutline s := by
    rintro ⟨k, text⟩ s h
    cases k <;> simp [Literal.outline, LiteralKind.label, nameOutline, Kind.label] at h
  have hrow : Function.Injective (Outline.branch "row") := fun _ _ h => (Outline.branch.inj h).2
  intro n n' h
  cases n <;> cases n' <;> simp only [Node.outline] at h
  case literal.literal => rw [Literal.outline_injective h]
  case literal.name => exact absurd h (hname _ _)
  case name.literal => exact absurd h.symm (hname _ _)
  case array.array => rw [hrow.list_map (Outline.branch.inj h).2]
  case comparison.comparison =>
    obtain ⟨rfl, hlinks⟩ := List.cons.inj (Outline.branch.inj h).2
    rw [links_injective hlinks]
  case arith.arith =>
    have hop := @ArithOp.outline_injective
    simp_all [Outline.branch.injEq, hop.eq_iff]
  all_goals simp_all [nameOutline, Literal.outline]

/-! ### Trees -/

section Trees

variable {ν χ α β : Type} {f : χ → α} {g : χ → β}

lemma map_eq_of_map_eq {xs ys : List χ} (h : xs.map f = ys.map f)
    (hg : ∀ x ∈ xs, ∀ y, f x = f y → g x = g y) : xs.map g = ys.map g := by
  induction xs generalizing ys with
  | nil => rw [List.map_eq_nil_iff.mp h.symm]
  | cons x xs ih =>
      obtain ⟨hx, hxs⟩ := List.forall_mem_cons.mp hg
      cases ys with
      | nil => cases h
      | cons y ys =>
          obtain ⟨hhead, htail⟩ := List.cons.inj h
          rw [List.map_cons, List.map_cons, hx y hhead, ih htail hxs]

/-- What tells the children of nodes apart tells the nodes apart. -/
lemma Node.map_eq_of_map_eq {n n' : Node ν χ} (h : n.map id f = n'.map id f)
    (hg : ∀ c ∈ n.children, ∀ c', f c = f c' → g c = g c') : n.map id g = n'.map id g := by
  cases n <;> cases n' <;> simp only [Node.map, reduceCtorEq] at h ⊢
  case array.array rows rows' =>
    refine congrArg Node.array (ArrayExpr.map_eq_of_map_eq (Node.array.inj h) ?_)
    intro row hrow row' heq
    exact ArrayExpr.map_eq_of_map_eq heq fun x hx =>
      hg x (List.mem_flatten.mpr ⟨row, hrow, hx⟩)
  case comparison.comparison first links first' links' =>
    obtain ⟨hfirst, hlinks⟩ := Node.comparison.inj h
    obtain ⟨hg, hgs⟩ := List.forall_mem_cons.mp hg
    rw [hg first' hfirst, ArrayExpr.map_eq_of_map_eq hlinks]
    intro link hlink link' heq
    obtain ⟨hop, hright⟩ := Prod.mk.inj heq
    rw [hop, hgs link.2 (List.mem_map_of_mem hlink) link'.2 hright]
  case call.call callee args callee' args' =>
    obtain ⟨hcallee, hargs⟩ := Node.call.inj h
    obtain ⟨hg, hgs⟩ := List.forall_mem_cons.mp hg
    rw [hg callee' hcallee, ArrayExpr.map_eq_of_map_eq hargs hgs]
  case access.access base steps base' steps' =>
    obtain ⟨hbase, hsteps⟩ := Node.access.inj h
    obtain ⟨hg, hgs⟩ := List.forall_mem_cons.mp hg
    rw [hg base' hbase, ArrayExpr.map_eq_of_map_eq hsteps hgs]
  case index.index args args' =>
    rw [ArrayExpr.map_eq_of_map_eq (Node.index.inj h) hg]
  all_goals grind [Node.children]

end Trees

/-- The shape of a tree in terms of its node. -/
lemma Expr.shape_eq (e : Expr) :
    e.shape = .node (e.node.map id Expr.shape).form (e.node.map id Expr.shape).children := by
  conv => lhs; unfold Expr.shape
  rw [Tree.fold_eq]
  rfl

/-- **An outline tells the tree apart from its layout.** -/
theorem shape_eq_of_outline_eq {e e' : Expr} (h : e.outline = e'.outline) :
    e.shape = e'.shape := by
  induction e using Tree.induction_children generalizing e' with
  | step e ih =>
      rw [Expr.outline_eq, Expr.outline_eq e'] at h
      rw [Expr.shape_eq, Expr.shape_eq e',
        Node.map_eq_of_map_eq (Node.outline_injective h) fun c hc c' => ih c hc]

end ArrayExpr
