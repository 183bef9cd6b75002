/-
The spans that a walk over a parsed tree meets.

* `Span.Precedes`: a span starts no later than another one, which lies inside it or starts
  where it stops or behind;
* `Owns.precedes_inside`, `Owns.precedes_behind`: ranges of tokens, one inside or behind the
  other, give spans in this order;
* `Owns.pairwise_precedes`: the spans of a tree that owns tokens are in order;
* `walk_in_order`: **a walk is the preorder**, and over a parsed tree it meets the spans in
  order.
-/
import ArrayExpr.Proofs.Parser.Spans
import ArrayExpr.Proofs.Scanner.Covering

namespace ArrayExpr

/-- A span starts no later than another one, which lies inside it or starts where it stops or
behind. -/
def Span.Precedes (s other : Span) : Prop :=
  s.start ≤ other.start ∧ (s.covers other = true ∨ s.stop ≤ other.start)

namespace Grammar

variable {items : List Token} {e e' n : Expr} {i j i' j' k : ℕ} {t u : Token}

/-! ### Tokens in order -/

lemma Spread.stop_le_start (h : Spread items) (ht : items[i]? = some t) (hu : items[k]? = some u)
    (hik : i < k) : t.stop ≤ u.start.offset := by
  obtain ⟨hi, rfl⟩ := List.getElem?_eq_some_iff.mp ht
  obtain ⟨hk, rfl⟩ := List.getElem?_eq_some_iff.mp hu
  exact List.pairwise_iff_getElem.mp h.separate i k hi hk hik

lemma Spread.start_le_start (h : Spread items) (ht : items[i]? = some t)
    (hu : items[k]? = some u) (hik : i ≤ k) : t.start.offset ≤ u.start.offset := by
  rcases hik.eq_or_lt with rfl | hlt
  · rw [Option.some.inj (ht.symm.trans hu)]
  · exact (h.proper t (List.mem_of_getElem? ht)).le.trans (h.stop_le_start ht hu hlt)

lemma Spread.stop_le_stop (h : Spread items) (ht : items[i]? = some t)
    (hu : items[k]? = some u) (hik : i ≤ k) : t.stop ≤ u.stop := by
  rcases hik.eq_or_lt with rfl | hlt
  · rw [Option.some.inj (ht.symm.trans hu)]
  · exact (h.stop_le_start ht hu hlt).trans (h.proper u (List.mem_of_getElem? hu)).le

/-! ### Spans in order -/

/-- Of the ranges of two nodes the one inside the other gives the later span. -/
lemma Owns.precedes_inside (hs : Spread items) (h : Owns items e i j)
    (h' : Owns items e' i' j') (hi : i ≤ i') (hj : j' ≤ j) : e.span.Precedes e'.span := by
  cases h with
  | intro _ hfirst hstart hlast hstop =>
      cases h' with
      | intro _ hfirst' hstart' hlast' hstop' =>
          have hle := hs.start_le_start hfirst hfirst' hi
          have hge := hs.stop_le_stop hlast' hlast (by omega)
          rw [Span.Precedes, Span.covers, hstart, hstart', hstop, hstop']
          exact ⟨hle, .inl (by simp [hle, hge])⟩

/-- So does the one behind the other. -/
lemma Owns.precedes_behind (hs : Spread items) (h : Owns items e i j)
    (h' : Owns items e' i' j') (hji : j ≤ i') : e.span.Precedes e'.span := by
  cases h with
  | intro hlt hfirst hstart hlast hstop =>
      cases h' with
      | intro _ hfirst' hstart' =>
          rw [Span.Precedes, hstart, hstart', hstop]
          exact ⟨hs.start_le_start hfirst hfirst' (by omega),
            .inr (hs.stop_le_start hlast hfirst' (by omega))⟩

lemma pairwise_of_forall₂ {α β : Type} {R : α → β → Prop} {S : β → β → Prop} {as : List α}
    {bs : List β} (h : List.Forall₂ R as bs) (hbs : bs.Pairwise S) :
    as.Pairwise fun a a' => ∃ b b', R a b ∧ R a' b' ∧ S b b' := by
  induction h with
  | nil => exact .nil
  | @cons a b as bs hab h ih =>
      obtain ⟨hb, hbs⟩ := List.pairwise_cons.mp hbs
      refine List.pairwise_cons.mpr ⟨fun a' ha' => ?_, ih hbs⟩
      obtain ⟨b', hb', hab'⟩ := exists_of_forall₂ h ha'
      exact ⟨b, b', hab, hab', hb b' hb'⟩

/-- **The spans of a tree that owns tokens are in order.** -/
theorem Owns.pairwise_precedes (hs : Spread items) (h : Owns items e i j) :
    e.preorder.Pairwise fun n m => n.span.Precedes m.span := by
  induction e using Tree.induction_children generalizing i j with
  | step e ih =>
      rw [Tree.preorder_eq, List.pairwise_cons, List.pairwise_flatMap]
      refine ⟨fun n hn => ?_, fun c hc => ?_, ?_⟩
      · obtain ⟨c, hc, hn⟩ := List.mem_flatMap.mp hn
        obtain ⟨i', j', hown, hi, hj⟩ := h.preorder (Tree.mem_preorder_iff.mpr (.inr ⟨c, hc, hn⟩))
        exact h.precedes_inside hs hown hi hj
      · obtain ⟨i', j', hown, -⟩ := h.child hc
        exact ih c hc hown
      · -- Children own ranges one after another, and what is below them ranges inside these.
        cases h with
        | intro _ _ _ _ _ children _ increasing =>
            refine (pairwise_of_forall₂ children increasing).imp ?_
            rintro c c' ⟨r, r', hc, hc', hr⟩ n hn m hm
            obtain ⟨i₁, j₁, hown, -, hj₁⟩ := hc.preorder hn
            obtain ⟨i₂, j₂, hown', hi₂, -⟩ := hc'.preorder hm
            exact hown.precedes_behind hs hown' ((hj₁.trans hr).trans hi₂)

end Grammar

/-! ### Parsed trees -/

/-- A tree that is accepted as a source is the first expression of the source. -/
lemma parse_accepted_of_parseSource {source : String} {limit : ℤ} {allowPartial : Bool}
    {tree : Expr} (h : parseSource limit allowPartial source = .accepted tree) :
    ∃ consumed, (parse limit source).verdict = .accepted ⟨tree, consumed⟩ := by
  rw [parseSource] at h
  split at h
  · next tree' rest hverdict =>
      split_ifs at h
      obtain rfl := Verdict.accepted.inj h
      exact ⟨_, parse_verdict_eq hverdict⟩
  · cases h
  · cases h

/-- **A walk is the preorder.** With a stack it visits every node of every tree once, where
the recursion has it, and ends; and the spans that it meets in a parsed tree start one after
another, each of them inside an earlier one or behind it. -/
theorem walk_in_order :
    (∀ {ν σ : Type} (t : Tree ν σ), t.Walks) ∧
      ∀ {source : String} {limit : ℤ} {tree : Expr},
        ((∃ consumed, (parse limit source).verdict = .accepted ⟨tree, consumed⟩) ∨
          ∃ allowPartial, parseSource limit allowPartial source = .accepted tree) →
        tree.walk.Pairwise fun n m => n.span.Precedes m.span := by
  refine ⟨Tree.walks, fun {source limit tree} h => ?_⟩
  obtain ⟨consumed, h⟩ : ∃ consumed, (parse limit source).verdict = .accepted ⟨tree, consumed⟩ :=
    h.elim id fun ⟨_, h⟩ => parse_accepted_of_parseSource h
  obtain ⟨tokens, rest, w, ht, -, hp, hw, -⟩ := parse_accepted h
  have howns := hw.1.owns [] rest.ahead
  rw [List.nil_append, ← TokenStream.items_of_passes_ofTokens hp] at howns
  rw [Tree.walk_eq_preorder]
  exact howns.pairwise_precedes (tokenize_spread ht)

/-- The tree of `a[b]=c`, in which children have children of their own. -/
theorem walk_in_order_assign : ∃ tree, parseSource 2 false "a[b]=c" = .accepted tree ∧
    tree.Walks ∧ tree.walk.length = 6 ∧
      tree.walk.Pairwise fun n m => n.span.Precedes m.span := by
  have ht : tokenize "a[b]=c" = .ok ⟨[⟨.name, some "a", ⟨0, 1, 1⟩, 1⟩,
      ⟨.openBracket, some "[", ⟨1, 1, 2⟩, 2⟩, ⟨.name, some "b", ⟨2, 1, 3⟩, 3⟩,
      ⟨.closeBracket, some "]", ⟨3, 1, 4⟩, 4⟩, ⟨.assign, some "=", ⟨4, 1, 5⟩, 5⟩,
      ⟨.name, some "c", ⟨5, 1, 6⟩, 6⟩], ⟨.finish, none, ⟨6, 1, 7⟩, 6⟩⟩ := rfl
  have h : parseSource 2 false "a[b]=c" = .accepted ⟨.assign
      ⟨.access ⟨.name "a", ⟨0, 1⟩⟩ [⟨.index [⟨.name "b", ⟨2, 3⟩⟩], ⟨1, 4⟩⟩], ⟨0, 4⟩⟩
      ⟨.name "c", ⟨5, 6⟩⟩, ⟨0, 6⟩⟩ := by
    rw [parseSource, parseTokens, ht]
    cbv
  refine ⟨_, h, walk_in_order.1 _, ?_, walk_in_order.2 (.inr ⟨false, h⟩)⟩
  rw [Tree.walk_eq_preorder]
  simp [Tree.preorder_eq, Tree.children, Node.children]

end ArrayExpr
