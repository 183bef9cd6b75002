/-
Tokens that do not overlap.

* `Grammar.Spread`: each token of a word ends in front of those behind it;
* `Spread.stop_lt`: a word ends before it goes on;
* `Spread.covers`, `Spread.not_covers`: the extent of a word covers its tokens, and none
  behind it;
* `Spread.append_inj`: where the first part of a word ends tells it from the rest.
-/
import ArrayExpr.Proofs.Rule.Stream

namespace ArrayExpr

namespace Grammar

variable {u v w : List Token} {t : Token}

/-- The tokens of a word do not overlap. -/
structure Spread (w : List Token) : Prop where
  proper : ∀ t ∈ w, t.start.offset < t.stop
  separate : w.Pairwise fun t u => t.stop ≤ u.start.offset

lemma Spread.sublist (h : Spread w) (hv : v.Sublist w) : Spread v :=
  ⟨fun t ht => h.proper t (hv.subset ht), h.separate.sublist hv⟩

/-- A word ends before it goes on. -/
lemma Spread.stop_lt (h : Spread (v ++ w)) (hv : v ≠ []) (hw : w ≠ []) :
    (extent v).stop < (extent (v ++ w)).stop := by
  obtain ⟨u, a, rfl⟩ := (List.eq_nil_or_concat' v).resolve_left hv
  obtain ⟨x, b, rfl⟩ := (List.eq_nil_or_concat' w).resolve_left hw
  have hb := h.proper b (by simp)
  have hab := (List.pairwise_append.mp h.separate).2.2 a (by simp) b (by simp)
  rw [extent_append_stop _ hw, extent_append_stop u (List.cons_ne_nil a []),
    extent_append_stop x (List.cons_ne_nil b [])]
  exact lt_of_le_of_lt hab hb

/-- A word does not cover what stands behind it. -/
lemma Spread.not_covers (h : Spread (v ++ t :: w)) (hv : v ≠ []) :
    (extent v).covers t.span = false := by
  obtain ⟨u, a, rfl⟩ := (List.eq_nil_or_concat' v).resolve_left hv
  have ht := h.proper t (by simp)
  have hat := (List.pairwise_append.mp h.separate).2.2 a (by simp) t (by simp)
  have hstop : (extent (u ++ [a])).stop = a.stop :=
    extent_append_stop u (List.cons_ne_nil a [])
  rw [Span.covers, hstop, Token.span, Bool.and_eq_false_iff]
  right
  simp only [decide_eq_false_iff_not]
  omega

/-- A word covers its tokens. -/
lemma Spread.covers (h : Spread w) (ht : t ∈ w) : (extent w).covers t.span = true := by
  obtain ⟨v, x, rfl⟩ := List.append_of_mem ht
  have hstart : (extent (v ++ t :: x)).start ≤ t.start.offset := by
    rcases v with _ | ⟨a, v⟩
    · exact le_rfl
    · have ha := h.proper a (by simp)
      have hat := (List.pairwise_append.mp h.separate).2.2 a (by simp) t (by simp)
      exact (ha.le.trans hat)
  have hstop : t.stop ≤ (extent (v ++ t :: x)).stop := by
    rw [extent_append_stop v (by simp : t :: x ≠ [])]
    rcases eq_or_ne x [] with rfl | hx
    · exact le_rfl
    · have hrest : Spread ([t] ++ x) := h.sublist (List.sublist_append_right v _)
      exact (hrest.stop_lt (List.cons_ne_nil t []) hx).le
  rw [Span.covers, Bool.and_eq_true, decide_eq_true_eq, decide_eq_true_eq]
  exact ⟨hstart, hstop⟩

/-- Where the first part of a word ends tells it from the rest. -/
lemma Spread.append_inj {u' v' : List Token} (h : Spread (u ++ v)) (heq : u ++ v = u' ++ v')
    (hu : u ≠ []) (hu' : u' ≠ []) (hstop : (extent u).stop = (extent u').stop) :
    u = u' ∧ v = v' := by
  rcases List.append_eq_append_iff.mp heq with ⟨x, rfl, rfl⟩ | ⟨x, rfl, rfl⟩ <;>
    rcases eq_or_ne x [] with rfl | hx
  · simp
  · have := (h.sublist (by simp : (u ++ x).Sublist (u ++ (x ++ v')))).stop_lt hu hx
    omega
  · simp
  · have := (h.sublist (List.sublist_append_left _ v)).stop_lt hu' hx
    omega

end Grammar

end ArrayExpr
