/-
Where the nodes of a parsed tree stand.

* `Owns.preorder`, `Owns.walk`: below a tree, and along a walk over it, every node owns a range
  of tokens;
* `parse_owns`: the tree of a successful parse owns the tokens consumed, and
  every node of its walk owns some of them.
-/
import ArrayExpr.Proofs.Expr.Preorder
import ArrayExpr.Proofs.Grammar.Ownership
import ArrayExpr.Proofs.Parser.Acceptance

namespace ArrayExpr

namespace Grammar

/-! ### Walks -/

variable {items : List Token} {e n : Expr} {i j k : ℕ}

lemma exists_of_forall₂ {α β : Type} {R : α → β → Prop} {as : List α} {bs : List β} {a : α}
    (h : List.Forall₂ R as bs) (ha : a ∈ as) : ∃ b ∈ bs, R a b := by
  induction h with
  | nil => cases ha
  | @cons a' b as bs hab _ ih =>
      rcases List.mem_cons.mp ha with rfl | ha
      · exact ⟨b, by simp, hab⟩
      · obtain ⟨b', hb, hab⟩ := ih ha
        exact ⟨b', List.mem_cons_of_mem b hb, hab⟩

/-- The children own ranges inside the range of their parent. -/
lemma Owns.child (h : Owns items e i j) {c : Expr} (hc : c ∈ e.children) :
    ∃ i' j', Owns items c i' j' ∧ i ≤ i' ∧ j' ≤ j := by
  cases h with
  | @intro e i j ranges first last _ _ _ _ _ children inside _ _ =>
      obtain ⟨r, hr, hown⟩ := exists_of_forall₂ children hc
      exact ⟨r.1, r.2, hown, (inside r hr).1, (inside r hr).2⟩

/-- Every node of a tree owns a range inside that of the tree. -/
lemma Owns.preorder (h : Owns items e i j) (hn : n ∈ e.preorder) :
    ∃ i' j', Owns items n i' j' ∧ i ≤ i' ∧ j' ≤ j := by
  induction e using Tree.induction_children generalizing i j with
  | step e ih =>
      rcases Tree.mem_preorder_iff.mp hn with rfl | ⟨c, hc, hn⟩
      · exact ⟨i, j, h, le_rfl, le_rfl⟩
      · obtain ⟨i₁, j₁, hown, hi, hj⟩ := h.child hc
        obtain ⟨i', j', hown', hi', hj'⟩ := ih c hc hown hn
        exact ⟨i', j', hown', hi.trans hi', hj'.trans hj⟩

/-- **Every node of a walk owns a range** inside that of the tree. -/
theorem Owns.walk (h : Owns items e i j) (hn : n ∈ e.walk) :
    ∃ i' j', Owns items n i' j' ∧ i ≤ i' ∧ j' ≤ j :=
  h.preorder (e.walk_eq_preorder ▸ hn)

end Grammar

open Grammar

/-- **Spans are exact.** After a successful parse the root owns all tokens
consumed and stops where the parse does, and every node of the walk, the steps
of accesses among them, owns a range of these tokens. -/
theorem parse_owns {source : String} {limit : ℤ} {tree : Expr} {consumed : ℕ}
    (h : (parse limit source).verdict = .accepted ⟨tree, consumed⟩) :
    ∃ tokens rest, tokenize source = .ok tokens ∧
      (parseTokens limit source).verdict = .accepted (tree, rest) ∧
      Owns tokens.items tree 0 rest.index ∧ tree.span.stop = consumed ∧
      ∀ n ∈ tree.walk, ∃ i j, Owns tokens.items n i j ∧ j ≤ rest.index := by
  obtain ⟨tokens, rest, w, ht, hverdict, hp, hw, hstop⟩ := parse_accepted h
  have howns : Owns tokens.items tree 0 rest.index := by
    rw [TokenStream.items_of_passes_ofTokens hp, TokenStream.index_of_passes_ofTokens hp]
    simpa using hw.1.owns [] rest.ahead
  refine ⟨tokens, rest, ht, hverdict, howns, ?_, fun n hn => ?_⟩
  · rw [hw.span_eq, hstop]
  · obtain ⟨i, j, hown, -, hj⟩ := howns.walk hn
    exact ⟨i, j, hown, hj⟩

/-- The theorem at the source `f(x,)`. -/
theorem parse_owns_call : ∃ tree consumed,
    (parse 1 "f(x,)").verdict = .accepted ⟨tree, consumed⟩ ∧
      ∃ tokens rest, tokenize "f(x,)" = .ok tokens ∧
        (parseTokens 1 "f(x,)").verdict = .accepted (tree, rest) ∧
        Owns tokens.items tree 0 rest.index ∧ tree.span.stop = consumed ∧
        ∀ n ∈ tree.walk, ∃ i j, Owns tokens.items n i j ∧ j ≤ rest.index := by
  have ht : tokenize "f(x,)" = .ok ⟨[⟨.name, some "f", ⟨0, 1, 1⟩, 1⟩,
      ⟨.openParen, some "(", ⟨1, 1, 2⟩, 2⟩, ⟨.name, some "x", ⟨2, 1, 3⟩, 3⟩,
      ⟨.comma, some ",", ⟨3, 1, 4⟩, 4⟩, ⟨.closeParen, some ")", ⟨4, 1, 5⟩, 5⟩],
      ⟨.finish, none, ⟨5, 1, 6⟩, 5⟩⟩ := rfl
  have h : (parse 1 "f(x,)").verdict =
      .accepted ⟨⟨.call ⟨.name "f", ⟨0, 1⟩⟩ [⟨.name "x", ⟨2, 3⟩⟩], ⟨0, 5⟩⟩, 5⟩ := by
    rw [parse, parseTokens, ht]
    cbv
  exact ⟨_, _, h, parse_owns h⟩

end ArrayExpr
