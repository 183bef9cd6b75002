/-
Where the rules of the grammar stop and where they fail.

* `starts_operand`, `starts_suffixed` and those after them: one lemma for each rule of the
  grammar, with the tokens that start it;
* `Sided`, `refuses_sides`: a side of an assignment is refused behind others, the last of
  them with its `=`;
* `starts_expr`: the rule for expressions starts where an operand does, whatever the
  room.
-/
import ArrayExpr.Proofs.Rule.Progress
import ArrayExpr.Proofs.Parser.Blame

namespace ArrayExpr

namespace Parser

open Rule Grammar

variable {α ω : Type} {limit : ℤ} {n : ℕ} {s s' s₁ : TokenStream} {g : Failure}

/-- The rule for expressions inside brackets starts where an operand does, where `n`
brackets fit. -/
def StartsInside (limit : ℤ) (n : ℕ) : Prop :=
  ∀ m, n = m + 1 → (expr limit m).Starts (·.startsOperand = true)

/-! ### Brackets -/

/-- A bracket too many is found before a token is read. -/
lemma committed_descend (scope : Scope) : scope.descend.Committed := by
  rw [Scope.descend]
  split
  · exact committed_pure _
  · exact committed_fail (fun s => Failure.liesAt_ofKind _ s _) fun _ => rfl

/-- A bracket starts with its opening token. -/
lemma starts_bracketed {opening closing : Kind} (ho : opening ≠ .finish) (hc : closing ≠ .finish)
    {inside : Rule Expr → Rule α} (h : ∀ m, n = m + 1 → (inside (expr limit m)).Onward) :
    ((Scope.ofRoom limit n).bracketed opening closing inside).Starts (· = opening) := by
  have hinside : ∀ opener : Token, ((Scope.ofRoom limit n).descend >>= fun e => inside e >>=
      fun a => token closing none (some opener) >>= fun _ => pure a).Onward := by
    refine fun opener => (committed_descend _).toOnward.bind_of_gives fun he => ?_
    obtain ⟨m, hm, rfl⟩ := ofRoom_inner.mp (gives_descend.mp he).1
    exact (h m hm).bind fun a => (starts_token hc none (some opener)).toOnward.bind fun _ =>
      (committed_pure a).toOnward
  exact ((starts_token ho none none).bind hinside).spanned

/-! ### Operands -/

/-- A literal is one token of its kind. -/
lemma starts_literal : literal.Starts fun kind => ∃ k, kind = .literal k := by
  refine starts_of_one (by simp) (fun h => ?_) fun {s g} h => ?_
  · obtain ⟨k, hk, -, -, hs'⟩ := gives_literal.mp h
    exact ⟨⟨k, hk⟩, hs'⟩
  · have hk : ¬ ∃ k, s.current.kind = .literal k := fun ⟨k, hk⟩ => not_refuses_literal hk h
    rw [h.unique (refuses_literal (not_exists.mp hk))]
    exact ⟨hk, Failure.liesAt_unexpected s _⟩

/-- So is a name. -/
lemma starts_name : name.Starts (· = .name) := by
  refine starts_of_one (by simp) (fun h => ?_) fun {s g} h => ?_
  · obtain ⟨hk, -, hs'⟩ := gives_name.mp h
    exact ⟨hk, hs'⟩
  · have hk : ¬ s.current.kind = .name := fun hk => not_refuses_name hk h
    rw [h.unique (refuses_name hk)]
    exact ⟨hk, Failure.liesAt_unexpected s _⟩

/-- Past the parenthesis a group does not decline any more. -/
lemma starts_group (hi : StartsInside limit n) :
    (group (Scope.ofRoom limit n)).Starts (· = .openParen) :=
  (starts_bracketed (by simp) (by simp) fun m hm => (hi m hm).toOnward).bind fun _ =>
    (committed_pure _).toOnward

/-- A row starts as its first item does. -/
lemma starts_arrayRow {e : Rule Expr} {first : Kind → Prop} (he : e.Starts first) :
    (arrayRow e).Starts first :=
  (he.list (by simp) _).visited

/-- An array starts with its bracket. -/
lemma starts_array (hi : StartsInside limit n) :
    (array (Scope.ofRoom limit n)).Starts (· = .openBracket) :=
  Starts.visited <| (starts_bracketed (by simp) (by simp) fun m hm =>
    ((starts_arrayRow (hi m hm)).emptyList (by simp) _).toOnward).bind fun _ =>
      (committed_pure _).toOnward

/-- A choice starts as one of its alternatives; the kinds tell them apart. -/
lemma starts_operandChoice (hi : StartsInside limit n) :
    (operandChoice (Scope.ofRoom limit n)).Starts (Begins .operand) := by
  refine (starts_choice starts_literal (starts_choice starts_name (starts_choice (starts_group hi)
    (starts_choice_last (starts_array hi))))).congr fun kind => ?_
  rcases kind with _ | _ | (_ | _ | _ | _) | _ <;> simp [Begins, Kind.startsOperand]

/-- An operand declines where no alternative starts. -/
lemma starts_operand (hi : StartsInside limit n) :
    (operand (Scope.ofRoom limit n)).Starts (Begins .operand) :=
  ((starts_operandChoice hi).called _).visited

/-! ### Suffixes -/

/-- The arguments of a call start with their parenthesis. -/
lemma starts_callSuffix (hi : StartsInside limit n) :
    (callSuffix (Scope.ofRoom limit n)).Starts (· = .openParen) :=
  (starts_bracketed (by simp) (by simp) fun m hm =>
    ((hi m hm).emptyList (by simp) _).toOnward).visited

/-- The subscripts of an index start with their bracket. -/
lemma starts_indexSuffix (hi : StartsInside limit n) :
    (indexSuffix (Scope.ofRoom limit n)).Starts (· = .openBracket) :=
  Starts.visited <| (starts_bracketed (by simp) (by simp) fun m hm =>
    ((hi m hm).list (by simp) _).toOnward).bind fun _ => (committed_pure _).toOnward

/-- A field starts with its dot. -/
lemma starts_fieldSuffix : fieldSuffix.Starts (· = .dot) :=
  ((starts_token (by simp) none none).bind fun _ =>
    (starts_token (by simp) _ none).toOnward).spanned.bind fun _ => (committed_pure _).toOnward

/-- A suffix that is not missing fails past its first token. -/
lemma committed_suffix? (hi : StartsInside limit n) :
    (suffix? (Scope.ofRoom limit n)).Committed where
  ends := fun {s o s'} hs h => by
    cases o with
    | none => exact ⟨[], (gives_suffix?_none.mp h).2⟩
    | some x =>
        rcases gives_suffix?_some.mp h with ⟨-, p, h, -⟩ | ⟨-, e, h, -⟩ | ⟨-, e, h, -⟩
        · exact (starts_callSuffix hi).ends hs h
        · exact (starts_indexSuffix hi).ends hs h
        · exact starts_fieldSuffix.ends hs h
  raises := fun hs h => by
    obtain ⟨-, h⟩ | ⟨-, h⟩ | ⟨-, h⟩ := refuses_suffix? h
    · exact (starts_callSuffix hi).raises hs h
    · exact (starts_indexSuffix hi).raises hs h
    · exact starts_fieldSuffix.raises hs h
  passed := fun hs h hg => by
    obtain ⟨hk, h⟩ | ⟨hk, h⟩ | ⟨hk, h⟩ := refuses_suffix? h
    · exact (starts_callSuffix hi).passed hs h hg hk
    · exact (starts_indexSuffix hi).passed hs h hg hk
    · exact starts_fieldSuffix.passed hs h hg hk

/-- An operand with suffixes starts as the operand does. -/
lemma starts_suffixed (hi : StartsInside limit n) :
    (suffixed (Scope.ofRoom limit n)).Starts (Begins .operand) :=
  Starts.visited <| (starts_operand hi).bind fun _ =>
    (((committed_suffix? hi).many (reads_suffixes (inner_ofRoom limit n)).reading).bind fun _ =>
      committed_pure _).toOnward

/-! ### Operators -/

/-- A minus sign is read or not; nothing else is looked at. -/
lemma committed_sign? : sign?.Committed := by
  refine committed_of_not_refuses (fun {s o s'} h => ?_) not_refuses_sign?
  cases o with
  | none => exact ⟨[], (gives_sign?_none.mp h).2⟩
  | some span => exact (gives_sign?_some.mp h).2.2 ▸ s.exists_passes_advance

/-- Minus signs are read if there are any. -/
lemma gives_signs {spans : List Span} (hs : s.Ordered) (h : (many sign?).Gives s spans s₁) :
    (s.current.kind ≠ .arith .minus ∧ s₁ = s) ∨
      (s.current.kind = .arith .minus ∧ s.offset < s₁.offset) := by
  obtain ⟨signs, s₂, hsigns, -, hp, -, hnone⟩ := reads_signs.many_sound hs h
  obtain ⟨hne, rfl⟩ := gives_sign?_none.mp hnone
  rw [List.flatMap_singleton'] at hp
  cases signs with
  | nil =>
      rw [TokenStream.passes_nil_iff] at hp
      exact Or.inl ⟨hp ▸ hne, hp⟩
  | cons t signs =>
      rw [current_of_passes hp]
      exact Or.inr ⟨hsigns t List.mem_cons_self, hs.offset_lt hp (by simp)⟩

/-- An operand under minus signs starts with a sign or as the operand does. -/
lemma starts_signed (hi : StartsInside limit n) :
    (signed (Scope.ofRoom limit n)).Starts (·.startsOperand = true) := by
  have hsigns : (many sign?).Committed := committed_sign?.many reads_signs.reading
  have hsuffixed := starts_suffixed hi
  refine Starts.visited ⟨⟨?onward, fun {s g} hs h hg => ?declines⟩, fun {s e s'} hs h => ?reads⟩
  case onward =>
    exact hsigns.toOnward.bind fun _ => hsuffixed.toOnward.bind fun _ => (committed_pure _).toOnward
  case reads =>
    simp only [gives_bind, gives_pure] at h
    obtain ⟨spans, s₁, hspans, e', s₂, he, -, rfl⟩ := h
    obtain ⟨w, hw⟩ := hsigns.ends hs hspans
    obtain ⟨hlt, hfirst⟩ := hsuffixed.reads (hs.passes hw) he
    refine ⟨(hs.offset_le hw).trans_lt hlt, ?_⟩
    rcases gives_signs hs hspans with ⟨-, rfl⟩ | ⟨hk, -⟩
    · exact hfirst.1
    · rw [hk]
      rfl
  case declines =>
    simp only [refuses_bind, not_refuses_pure, and_false, exists_false, or_false] at h
    obtain h | ⟨spans, s₁, hspans, h⟩ := h
    · obtain ⟨-, s₁, -, h⟩ := refuses_many reads_signs.reading hs h
      exact absurd h not_refuses_sign?
    · rcases gives_signs hs hspans with ⟨hk, rfl⟩ | ⟨hk, hlt⟩
      · rw [hsuffixed.declines_iff hs h hg, Begins]
        simp [hk]
      · obtain ⟨w, hw⟩ := hsigns.ends hs hspans
        have hle := hsuffixed.offset_le (hs.passes hw) h
        exact iff_of_false (hlt.trans_le hle).ne' (by rw [hk]; simp [Kind.startsOperand])

/-- An operator that is not missing is read before anything fails. -/
lemma committed_link? {op? : Kind → Option ω} (hop : op? .finish = none) {r : Rule Expr}
    (hr : r.Onward) : (link? op? r).Committed where
  ends := fun {s o s'} hs h => by
    cases o with
    | none => exact ⟨[], ((gives_link_none op? r).mp h).2⟩
    | some p =>
        obtain ⟨hk, h⟩ := gives_link_some.mp h
        have hp := passes_advance hs rfl (op?_finish_ne hop hk)
        obtain ⟨w, hw⟩ := hr.ends (hs.passes hp) h
        exact ⟨_, hp.append hw⟩
  raises := fun hs h => by
    obtain ⟨op, hk, h⟩ := refuses_link h
    have hp := passes_advance hs rfl (op?_finish_ne hop hk)
    obtain ⟨w, s₁, hw, hat⟩ := hr.raises (hs.passes hp) h
    exact ⟨_, s₁, hp.append hw, hat⟩
  passed := fun hs h hg => by
    obtain ⟨op, hk, h⟩ := refuses_link h
    have hp := passes_advance hs rfl (op?_finish_ne hop hk)
    exact (hs.offset_lt hp (by simp)).trans_le (hr.offset_le (hs.passes hp) h)

/-- Operands with operators between them start as an operand does. -/
lemma starts_chain {name : String} {op? : Kind → Option ω} (hop : op? .finish = none)
    {r : Rule Expr} {first : Kind → Prop} (hr : r.Starts first)
    (hreading : ReadingRounds (link? op? r)) (k : Expr → List (ω × Expr) → Expr) :
    Rule.Starts (do
      visit name
      let e ← r
      let links ← many (link? op? r)
      return k e links) first :=
  Starts.visited <| hr.bind fun _ =>
    (((committed_link? hop hr.toOnward).many hreading).bind fun _ => committed_pure _).toOnward

/-- A product starts as its first operand does. -/
lemma starts_product (hi : StartsInside limit n) :
    (product (Scope.ofRoom limit n)).Starts (·.startsOperand = true) :=
  starts_chain rfl (starts_signed hi)
    (reads_links (reads_signed (inner_ofRoom limit n)) rfl stops_of_productOp).reading _

/-- So does a sum. -/
lemma starts_sum (hi : StartsInside limit n) :
    (sum (Scope.ofRoom limit n)).Starts (·.startsOperand = true) :=
  starts_chain rfl (starts_product hi)
    (reads_links (reads_product (inner_ofRoom limit n)) rfl stops_of_sumOp).reading _

/-- So does a comparison. -/
lemma starts_comparison (hi : StartsInside limit n) :
    (comparison (Scope.ofRoom limit n)).Starts (·.startsOperand = true) :=
  starts_chain rfl (starts_sum hi)
    (reads_links (reads_sum (inner_ofRoom limit n)) rfl stops_of_compareOp).reading _

/-! ### Assignments -/

/-- What stands in front of a side of an assignment: nothing, or sides, the last of them with
its `=`. -/
def Sided (w : List Token) : Prop :=
  w = [] ∨ Balanced w ∧ ∃ u t, w = u ++ [t] ∧ t.kind = .assign

/-- Sides of an assignment leave no bracket open. -/
lemma Sided.balanced {w : List Token} (h : Sided w) : Balanced w := by
  rcases h with rfl | ⟨h, -⟩
  · exact Balanced.nil
  · exact h

/-- Sides in a row. -/
lemma Sided.append {v w : List Token} (hv : Sided v) (hw : Sided w) : Sided (v ++ w) := by
  rcases hw with rfl | ⟨hw, u, t, rfl, ht⟩
  · rwa [List.append_nil]
  · exact .inr ⟨hv.balanced.append hw, v ++ u, t, (List.append_assoc ..).symm, ht⟩

/-- A side ends with its `=`. -/
lemma sided_concat {w : List Token} {t : Token} (hw : Balanced w) (ht : t.kind = .assign) :
    Sided (w ++ [t]) :=
  .inr ⟨hw.append (Balanced.plain (isPlain_of_kind ht ⟨rfl, rfl⟩)), w, t, rfl, ht⟩

/-- Every side of an assignment has been read from a stream further on. -/
lemma reaches_side {before last : Token × Expr} {others : List Expr} {s₂ : TokenStream}
    (hr : Reaches (furtherSide (Scope.ofRoom limit n)) before s₁ others last s₂)
    (hs : s.Ordered) (hside : (side (Scope.ofRoom limit n)).Gives s before s₁) :
    ∃ w s', s.Passes w s' ∧ Sided w ∧ (side (Scope.ofRoom limit n)).Gives s' last s₂ := by
  induction hr generalizing s with
  | refl before s₁ => exact ⟨[], s, rfl, .inl rfl, hside⟩
  | @round before next last s₁ s₂ s₃ e others h _ ih =>
      obtain ⟨hk, -, -, h⟩ := gives_furtherSide_some.mp h
      obtain ⟨v, hv, hG, -⟩ :=
        (reads_comparison (inner_ofRoom limit n)).sound hs (gives_side.mp hside).2
      have hp := hv.append (passes_advance (hs.passes hv) hk (by simp))
      obtain ⟨w, s', hw, hsided, hlast⟩ := ih (hs.passes hp) h
      exact ⟨_, s', hp.append hw, (sided_concat hG.balanced hk).append hsided, hlast⟩

/-- A side that is no target is blamed in front of it. -/
lemma liesAt_badTarget {last : Token × Expr} (hs : s.Ordered)
    (hside : (side (Scope.ofRoom limit n)).Gives s last s') : (badTarget last).LiesAt s := by
  obtain ⟨ht, h⟩ := gives_side.mp hside
  obtain ⟨w, hw, hG, -⟩ := (reads_comparison (inner_ofRoom limit n)).sound hs h
  obtain ⟨t, v, rfl⟩ := List.exists_cons_of_ne_nil hG.1.ne_nil
  refine ⟨?_, ?_⟩
  · rw [badTarget, hG.span_eq, hw.offset_eq (by simp)]
  · rw [badTarget, ht, current_of_passes hw, hw.1]

/-- How the sides of an assignment are refused: one that stands further on is no target, or
one behind a `=` is refused. -/
lemma refuses_sides {first : Token × Expr} (hs : s.Ordered)
    (hside : (side (Scope.ofRoom limit n)).Gives s first s₁)
    (h : (collect (furtherSide (Scope.ofRoom limit n)) first).Refuses s₁ g) :
    ∃ w s₂, s.Passes w s₂ ∧ Sided w ∧ ((∃ last, g = badTarget last ∧ g.LiesAt s₂) ∨
      (w ≠ [] ∧ (comparison (Scope.ofRoom limit n)).Refuses s₂ g)) := by
  have hi := inner_ofRoom limit n
  obtain ⟨v, hv, -⟩ := (reads_comparison hi).sound hs (gives_side.mp hside).2
  obtain ⟨_, last, s₂, hr, h⟩ := refuses_collect (reading_furtherSide hi) (hs.passes hv) h
  obtain ⟨w, s', hw, hsided, hlast⟩ := reaches_side hr hs hside
  obtain ⟨hk, ⟨-, rfl⟩ | ⟨-, h⟩⟩ := refuses_furtherSide h
  · exact ⟨w, s', hw, hsided, Or.inl ⟨last, rfl, liesAt_badTarget (hs.passes hw) hlast⟩⟩
  · obtain ⟨u, hu, hG, -⟩ :=
      (reads_comparison hi).sound (hs.passes hw) (gives_side.mp hlast).2
    have hp := hu.append (passes_advance ((hs.passes hw).passes hu) hk (by simp))
    exact ⟨_, _, hw.append hp, hsided.append (sided_concat hG.balanced hk),
      Or.inr ⟨by simp, h⟩⟩

/-- An assignment starts as its first side does. -/
lemma starts_assignment (hi : StartsInside limit n) :
    (assignment (Scope.ofRoom limit n)).Starts (·.startsOperand = true) where
  ends := fun hs h => by
    obtain ⟨w, hw, -⟩ := (reads_assignment (inner_ofRoom limit n)).sound hs h
    exact ⟨w, hw⟩
  raises := fun hs h => by
    rcases refuses_assignment h with h | ⟨first, s₁, hside, h⟩
    · exact (starts_comparison hi).raises hs h
    · obtain ⟨w, s₂, hw, -, ⟨_, -, hat⟩ | ⟨-, h⟩⟩ := refuses_sides hs hside h
      · exact ⟨w, s₂, hw, hat⟩
      · obtain ⟨v, s₃, hv, hat⟩ := (starts_comparison hi).raises (hs.passes hw) h
        exact ⟨_, s₃, hw.append hv, hat⟩
  reads := fun hs h => by
    obtain ⟨w, hw, hG, -⟩ := (reads_assignment (inner_ofRoom limit n)).sound hs h
    rw [assignment, gives_parts] at h
    obtain ⟨first, s₁, -, hside, -⟩ := h
    exact ⟨hs.offset_lt hw hG.1.ne_nil,
      ((starts_comparison hi).reads hs (gives_side.mp hside).2).2⟩
  declines_iff := fun hs h hg => by
    rcases refuses_assignment h with h | ⟨first, s₁, hside, h⟩
    · exact (starts_comparison hi).declines_iff hs h hg
    · obtain ⟨w, s₂, hw, -, ⟨last, rfl, -⟩ | ⟨hne, h⟩⟩ := refuses_sides hs hside h
      · cases hg
      · have hlt := hs.offset_lt hw hne
        have hle := (starts_comparison hi).offset_le (hs.passes hw) h
        have hfirst := ((starts_comparison hi).reads hs (gives_side.mp hside).2).2
        exact iff_of_false (hlt.trans_le hle).ne' (not_not_intro hfirst)

/-- **The rule for expressions starts where an operand does**, whatever the room. -/
theorem starts_expr (limit : ℤ) (n : ℕ) : (expr limit n).Starts (·.startsOperand = true) :=
  expr_induction (P := fun _ r => r.Starts (·.startsOperand = true)) limit
    (fun _ hi => starts_assignment hi) n

end Parser

end ArrayExpr
