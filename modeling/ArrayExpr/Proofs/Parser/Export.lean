/-
Outlines lose nothing but layout.

* `Expr.outlineIn`: the outline of an expression with its literals quoted from a
  source;
* `Derives.literal_mem`: a literal in the tree of a derivation is one of the tokens,
  with its text and its span;
* `outlineIn_eq_outline`: the literals of an accepted tree quote their source;
* `same_of_outline_eq`: accepted trees with one outline are the same but for layout.
-/
import ArrayExpr.Proofs.Parser.Acceptance
import ArrayExpr.Proofs.Grammar.Subtrees
import ArrayExpr.Proofs.Layout.Tree
import ArrayExpr.Proofs.Reference.Shape
import ArrayExpr.Proofs.Scanner.Tiling

namespace ArrayExpr

open Grammar

/-! ### Literals quoted from a source -/

namespace Expr

variable {source : List Char} {e : Expr}

/-- The outline of an expression, each literal with the text that its span covers in the
source. -/
def outlineIn (source : List Char) (e : Expr) : Outline :=
  e.fold fun n span =>
    n.outline fun l => .leaf l.kind.label (String.ofList (span.text source))

/-- The literals of a tree have the texts that their spans cover. -/
def Quotes (source : List Char) (e : Expr) : Prop :=
  ∀ n ∈ e.preorder, ∀ l, n.node = .literal l → l.text = String.ofList (n.span.text source)

/-- The quoted outline in terms of the node. -/
lemma outlineIn_eq (source : List Char) (e : Expr) :
    outlineIn source e = (e.node.map id (outlineIn source)).outline fun l =>
      .leaf l.kind.label (String.ofList (e.span.text source)) := by
  conv => lhs; unfold outlineIn
  rw [Tree.fold_eq]
  rfl

/-- Literals that have the texts of their spans may be quoted from there. -/
lemma Quotes.outlineIn_eq_outline (h : Quotes source e) : outlineIn source e = outline e := by
  induction e using Tree.induction_children with
  | step e ih =>
      have hchildren : ∀ c ∈ e.node.children, outlineIn source c = outline c := fun c hc =>
        ih c hc fun n hn => h n (Tree.mem_preorder_iff.mpr (.inr ⟨c, hc, hn⟩))
      have hself := h e (Tree.mem_preorder_iff.mpr (.inl rfl))
      rw [outlineIn_eq, outline_eq, Tree.map_congr_node hchildren]
      cases hn : e.node with
      | literal l => rw [Node.map, Node.outline, Node.outline, id, Literal.outline, hself l hn]
      | _ => rfl

end Expr

/-! ### Literals of derivations -/

namespace Grammar

variable {l : Level} {w : List Token} {e : Expr} {lit : Literal}

/-- An operand with a step behind it is no literal. -/
lemma withStep_ne_literal (base step : Expr) : (withStep w base step).node ≠ .literal lit := by
  rw [withStep]
  split <;> simp [node]

/-- **A literal that derives is one token**, with its text and its span. -/
lemma Derives.literal_mem (h : Derives l w e) (hlit : e.node = .literal lit) :
    ∃ t ∈ w, lit.text = t.text.getD "" ∧ e.span = t.span := by
  induction h with
  | value _ ih | comparand _ ih | term _ ih | factor _ ih | unsigned _ ih | bare _ ih =>
      exact ih hlit
  | @literal t kind ht =>
      obtain rfl := Node.literal.inj hlit
      exact ⟨t, List.mem_singleton_self t, rfl, rfl⟩
  | index | field => exact absurd hlit (withStep_ne_literal _ _)
  | _ => cases hlit

end Grammar

/-! ### Accepted trees -/

variable {source source' : String} {limit limit' : ℤ} {allowPartial allowPartial' : Bool}
  {e e' : Expr}

/-- **The literals of an accepted tree quote their source.** -/
theorem outlineIn_eq_outline (h : parseSource limit allowPartial source = .accepted e) :
    e.outlineIn source.toList = e.outline := by
  obtain ⟨tokens, ht⟩ : ∃ tokens, tokenize source = .ok tokens := by
    cases ht : tokenize source with
    | ok tokens => exact ⟨tokens, rfl⟩
    | error e =>
        rw [parseSource, parseTokens, ht] at h
        cases h
  obtain ⟨w, rest, hitems, hw, -, -⟩ := (parseSource_accepted_iff_within ht ..).mp h
  refine Expr.Quotes.outlineIn_eq_outline fun n hn l hl => ?_
  rcases hw.1.covers n hn with hstep | ⟨level, v, hv, hd⟩
  · rw [hl] at hstep
    cases hstep
  · obtain ⟨t, hmem, htext, hspan⟩ := hd.literal_mem hl
    have hitem : t ∈ tokens.items := hitems ▸ List.mem_append_left rest (hv.subset hmem)
    rw [htext, hspan, tokenize_text ht hitem, Option.getD_some]

/-- **Outlines lose nothing but layout.** The outlines of accepted trees show their literals
as the sources have them, and two trees with one outline are the same expression. -/
theorem same_of_outline_eq (h : parseSource limit allowPartial source = .accepted e)
    (h' : parseSource limit' allowPartial' source' = .accepted e') :
    (e.outlineIn source.toList = e.outline ∧ e'.outlineIn source'.toList = e'.outline) ∧
      (e.outline = e'.outline → e.same e' = true) :=
  ⟨⟨outlineIn_eq_outline h, outlineIn_eq_outline h'⟩, fun heq =>
    decide_eq_true (shape_eq_of_outline_eq heq)⟩

/-- One call in two layouts, of which the second source goes on behind it. -/
theorem same_of_outline_eq_call : ∃ e e', parseSource 1 false "f(1)" = .accepted e ∧
    parseSource 2 true "f ( 1 ) x" = .accepted e' ∧
      e.outlineIn "f(1)".toList = e'.outlineIn "f ( 1 ) x".toList ∧ e.same e' = true := by
  have ht : tokenize "f(1)" = .ok ⟨[⟨.name, some "f", ⟨0, 1, 1⟩, 1⟩,
      ⟨.openParen, some "(", ⟨1, 1, 2⟩, 2⟩, ⟨.literal .number, some "1", ⟨2, 1, 3⟩, 3⟩,
      ⟨.closeParen, some ")", ⟨3, 1, 4⟩, 4⟩], ⟨.finish, none, ⟨4, 1, 5⟩, 4⟩⟩ := rfl
  have ht' : tokenize "f ( 1 ) x" = .ok ⟨[⟨.name, some "f", ⟨0, 1, 1⟩, 1⟩,
      ⟨.openParen, some "(", ⟨2, 1, 3⟩, 3⟩, ⟨.literal .number, some "1", ⟨4, 1, 5⟩, 5⟩,
      ⟨.closeParen, some ")", ⟨6, 1, 7⟩, 7⟩, ⟨.name, some "x", ⟨8, 1, 9⟩, 9⟩],
      ⟨.finish, none, ⟨9, 1, 10⟩, 9⟩⟩ := rfl
  have h : parseSource 1 false "f(1)" = .accepted ⟨.call ⟨.name "f", ⟨0, 1⟩⟩
      [⟨.literal ⟨.number, "1"⟩, ⟨2, 3⟩⟩], ⟨0, 4⟩⟩ := by
    rw [parseSource, parseTokens, ht]
    cbv
  have h' : parseSource 2 true "f ( 1 ) x" = .accepted ⟨.call ⟨.name "f", ⟨0, 1⟩⟩
      [⟨.literal ⟨.number, "1"⟩, ⟨4, 5⟩⟩], ⟨0, 7⟩⟩ := by
    rw [parseSource, parseTokens, ht']
    cbv
  have hsame := same_of_outline_eq h h'
  exact ⟨_, _, h, h', hsame.1.1.trans hsame.1.2.symm, hsame.2 rfl⟩

end ArrayExpr
