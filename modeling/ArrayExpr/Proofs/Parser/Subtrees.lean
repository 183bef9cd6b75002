/-
Subtrees parse from their own text.

* `parseSource_excerpt`: the text of tokens in a row that derive is parsed to
  their tree;
* `parse_subtrees`: the text of every node of a parsed tree is parsed to that
  node, and the text consumed to the whole tree.
-/
import ArrayExpr.Proofs.Layout.Parser
import ArrayExpr.Proofs.Parser.Acceptance
import ArrayExpr.Proofs.Parser.Spans
import ArrayExpr.Proofs.Scanner.Excerpt
import ArrayExpr.Proofs.Grammar.Subtrees

namespace ArrayExpr

open Grammar

variable {source : String} {limit : ℤ} {tokens : Tokens} {u v w : List Token} {e : Expr}

/-- A walk over a tree meets only nodes of the tree. -/
lemma Tree.mem_preorder_of_mem_walk {ν σ : Type} {n t : Tree ν σ} (h : n ∈ t.walk) :
    n ∈ t.preorder :=
  t.walk_eq_preorder ▸ h

/-- Tokens that derive and keep to the conditions are read to their end. -/
lemma gives_of_within (hs : (TokenStream.ofTokens tokens).Ordered)
    (hw : Within True limit.toNat .assignment tokens.items e) :
    ∃ rest, (Parser.expr limit limit.toNat).Gives (.ofTokens tokens) e rest ∧
      rest.atEnd = true ∧ rest.consumedEnd = (extent tokens.items).stop := by
  obtain ⟨rest, hp, hrest⟩ := TokenStream.exists_passes (s := .ofTokens tokens)
    (List.append_nil tokens.items).symm
  have hend : rest.atEnd = true := by rw [TokenStream.atEnd, hrest, List.isEmpty_nil]
  have hstop : Stops .assignment rest.current.kind := by
    rw [(hs.passes hp).current_of_atEnd hend, stops_assignment_iff]
    rfl
  exact ⟨rest, (Parser.reads_expr limit limit.toNat).complete hs hp hw hstop, hend,
    hp.consumedEnd_eq hw.ne_nil⟩

/-- Tokens in a row are ordered as the whole is. -/
lemma ordered_of_items (ht : tokenize source = .ok tokens)
    (hitems : tokens.items = u ++ (v ++ w)) :
    (TokenStream.ofTokens ⟨v, tokens.finish⟩).Ordered := by
  have hs := tokenize_ordered ht
  refine ⟨hs.increasing.sublist ?_, hs.finish_kind⟩
  simp only [TokenStream.ofTokens, hitems]
  refine List.Sublist.append_right ?_ _
  exact (List.sublist_append_left v w).trans (List.sublist_append_right u _)

/-- **The text of tokens that derive is parsed to their tree.** -/
theorem parseSource_excerpt (ht : tokenize source = .ok tokens)
    (hitems : tokens.items = u ++ (v ++ w)) (hv : Within True limit.toNat .assignment v e) :
    ∃ e', parseSource limit false (String.ofList (e.span.text source.toList)) = .accepted e' ∧
      e'.same e = true := by
  obtain ⟨tokens', ht', halike⟩ := tokenize_excerpt ht hitems hv.ne_nil
  let L : Layouts := ⟨⟨v, tokens.finish⟩, tokens', by
    rw [Tokens.toList, Tokens.toList, (tokenize_eq_ok_iff.mp ht).2, (tokenize_eq_ok_iff.mp ht').2]
    exact List.rel_append halike (.cons ⟨rfl, rfl⟩ .nil),
    ordered_of_items ht hitems, tokenize_ordered ht'⟩
  obtain ⟨rest, hgives, hend, -⟩ := gives_of_within L.first_ordered hv
  obtain ⟨e', rest', hgives', htrees, hstreams⟩ := L.gives_expr hgives
  refine ⟨e', ?_, decide_eq_true htrees.shape_eq.symm⟩
  rw [hv.span_eq, parseSource, (parseTokens_accepted_iff ht' limit e' rest').mpr hgives']
  have hend' : rest'.atEnd = true := hstreams.atEnd_eq ▸ hend
  simp only [hend', Bool.or_true, if_true]

/-- **Every subtree parses from its own text.** After a successful parse the
text of each node, but for the steps of accesses, is accepted as a whole and
gives that node; and the text consumed gives the whole tree. -/
theorem parse_subtrees {parsed : Parsed} (h : (parse limit source).verdict = .accepted parsed) :
    (∀ n ∈ parsed.tree.walk, n.node.isStep = false →
        ∃ e, parseSource limit false (String.ofList (n.span.text source.toList)) = .accepted e ∧
          e.same n = true) ∧
      (parse limit (String.ofList (source.toList.take parsed.consumed))).verdict =
        .accepted parsed := by
  obtain ⟨tokens, rest, w, ht, -, hp, hw, hconsumed⟩ := parse_accepted h
  have hitems := TokenStream.items_of_passes_ofTokens hp
  constructor
  · intro n hn hstep
    have hpreorder : n ∈ parsed.tree.preorder := Tree.mem_preorder_of_mem_walk hn
    rcases hw.1.covers n hpreorder with hstep' | ⟨l, v, ⟨before, after, hv⟩, hd⟩
    · rw [hstep] at hstep'
      cases hstep'
    · have hin : v <:+: w := ⟨before, after, hv⟩
      refine parseSource_excerpt (u := before) (w := after ++ rest.ahead) ht ?_
        ⟨hd.assignment, fun _ => targetsValid_of_mem (hw.2.targets trivial) hpreorder,
          hw.2.bounds.depth.of_infix hw.1.balanced hin,
          fun _ t hmem => hw.2.bounds.short trivial t (hin.subset hmem)⟩
      rw [hitems, ← hv]
      simp
  · have ht' := tokenize_front ht hitems hw.ne_nil
    rw [hconsumed] at ht'
    obtain ⟨rest', hgives, -, hend⟩ := gives_of_within (tokenize_ordered ht') hw
    rw [parse_verdict_eq ((parseTokens_accepted_iff ht' limit _ rest').mpr hgives), hend]
    exact congrArg (fun stop => Verdict.accepted (Parsed.mk parsed.tree stop)) hconsumed

/-- The theorem at the source `a.b)`, of which `a.b` is consumed. -/
theorem parse_subtrees_field : ∃ parsed, (parse 1 "a.b)").verdict = .accepted parsed ∧
    (∀ n ∈ parsed.tree.walk, n.node.isStep = false →
        ∃ e, parseSource 1 false (String.ofList (n.span.text "a.b)".toList)) = .accepted e ∧
          e.same n = true) ∧
      (parse 1 (String.ofList ("a.b)".toList.take parsed.consumed))).verdict =
        .accepted parsed := by
  have ht : tokenize "a.b)" = .ok ⟨[⟨.name, some "a", ⟨0, 1, 1⟩, 1⟩, ⟨.dot, some ".", ⟨1, 1, 2⟩, 2⟩,
      ⟨.name, some "b", ⟨2, 1, 3⟩, 3⟩, ⟨.closeParen, some ")", ⟨3, 1, 4⟩, 4⟩],
      ⟨.finish, none, ⟨4, 1, 5⟩, 4⟩⟩ := rfl
  have h : (parse 1 "a.b)").verdict = .accepted
      ⟨⟨.access ⟨.name "a", ⟨0, 1⟩⟩ [⟨.field "b", ⟨1, 3⟩⟩], ⟨0, 3⟩⟩, 3⟩ := by
    rw [parse, parseTokens, ht]
    cbv
  exact ⟨_, h, parse_subtrees h⟩

end ArrayExpr
