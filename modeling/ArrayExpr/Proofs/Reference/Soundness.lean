/-
The reference machine reads derivations only.

* `Reference.Opens`: tokens open the brackets that are open, up to where the
  item that is being read begins;
* `Reference.Explains`: tokens account for a state;
* `Explains.step`: every token passes that on, so that the tokens read so far
  account for the state reached (`Explains.steps`);
* `exists_derives_iff`: **the machine ends in a sentence exactly on
  derivations**, with the outline of the tree.
-/
import ArrayExpr.Proofs.Reference.Means

namespace ArrayExpr

namespace Reference

open Grammar

variable {t : Token} {u v w : List Token} {x : Outline} {br : List Bracket} {q q' : State}

/-! ### States -/

/-- The tokens open some brackets, and read the items in them that have ended. -/
inductive Opens : List Bracket → List Token → Prop
  | none : Opens [] []
  | group {br : List Bracket} {p : Pending} {u v : List Token} {o : Token}
      (hu : Opens br u) (hv : Pends p v) (ho : o.kind = .openParen) :
      Opens (.group p :: br) (u ++ (v ++ [o]))
  | args {br : List Bracket} {p : Pending} {x : Outline} {items : List Outline}
      {u v s w : List Token} {o : Token} (hu : Opens br u) (hv : Pends p v)
      (hs : Means .suffixed s x) (ho : o.kind = .openParen)
      (hw : Pieces .comma (Means .assignment) items w) :
      Opens (.args p x items :: br) (u ++ (v ++ (s ++ o :: w)))
  | subscripts {br : List Bracket} {p : Pending} {x : Outline} {items : List Outline}
      {u v s w : List Token} {o : Token} (hu : Opens br u) (hv : Pends p v)
      (hs : Means .suffixed s x) (ho : o.kind = .openBracket)
      (hw : Pieces .comma (Means .assignment) items w) :
      Opens (.subscripts p x items :: br) (u ++ (v ++ (s ++ o :: w)))
  | array {br : List Bracket} {p : Pending} {rows items : List Outline} {u v r w : List Token}
      {o : Token} (hu : Opens br u) (hv : Pends p v) (ho : o.kind = .openBracket)
      (hr : Pieces .semicolon MeansRow rows r)
      (hw : Pieces .comma (Means .assignment) items w) :
      Opens (.array p rows items :: br) (u ++ (v ++ o :: (r ++ w)))

/-- The tokens account for a state: for its open brackets, for what is pending
in the innermost, and for the operand in hand. -/
def Explains (w : List Token) : State → Prop
  | .want p br => ∃ u v, w = u ++ v ∧ Opens br u ∧ Pends p v
  | .hold x p br => ∃ u v s, w = u ++ (v ++ s) ∧ Opens br u ∧ Pends p v ∧ Means .suffixed s x
  | .field x p br => ∃ u v s d, w = u ++ (v ++ (s ++ [d])) ∧ Opens br u ∧ Pends p v ∧
      Means .suffixed s x ∧ d.kind = .dot

lemma explains_start : Explains [] .start := ⟨[], [], rfl, .none, .nothing⟩

/-- An item is wanted at its beginning. -/
lemma Opens.explains (h : Opens br u) : Explains u (.want .nothing br) :=
  ⟨u, [], by simp, h, .nothing⟩

/-! ### Ends of items -/

/-- The rows of an array when the last one ends with an item. -/
lemma pieces_row {rows items : List Outline} {r : List Token}
    (hr : Pieces .semicolon MeansRow rows r) (hw : Pieces .comma (Means .assignment) items w)
    (hu : Means .assignment u x) :
    SeveralOrNone .semicolon MeansRow (closeRow rows (x :: items)).reverse (r ++ (w ++ u)) :=
  Or.inr (hr.last ⟨_, rfl, hw.last hu⟩)

/-- The rows of an array when the last one is empty or ends with a separator. -/
lemma pieces_closeRow {rows items : List Outline} {r : List Token}
    (hr : Pieces .semicolon MeansRow rows r) (hw : Pieces .comma (Means .assignment) items w) :
    SeveralOrNone .semicolon MeansRow (closeRow rows items).reverse (r ++ w) := by
  cases items with
  | nil =>
      obtain ⟨ws, hws, hitems⟩ := hw
      obtain rfl := List.forall₂_nil_right_iff.mp hitems
      cases hws
      rw [List.append_nil]
      exact hr.severalOrNone
  | cons x items => exact Or.inr (hr.last ⟨_, rfl, hw.several (by simp)⟩)

/-- **A token after an item** ends it, and maybe its bracket. -/
lemma Opens.endItem (h : Opens br u) (hw : Means .assignment w x)
    (hq : endItem t.kind x br = some q) : Explains (u ++ (w ++ [t])) q := by
  cases h with
  | none => simp [Reference.endItem] at hq
  | @group br p u v o hu hv ho =>
      simp only [Reference.endItem, Option.ite_none_right_eq_some, Option.some.injEq] at hq
      obtain ⟨ht, rfl⟩ := hq
      exact ⟨u, v, o :: w ++ [t], by simp, hu, hv, (means_group ho ht hw).bare⟩
  | @args br p callee items u v s y o hu hv hs ho hy =>
      rw [Reference.endItem] at hq
      split_ifs at hq with h1 h2
      · cases hq
        exact ⟨u, v, s ++ (o :: (y ++ w) ++ [t]), by simp, hu, hv,
          means_call hs ho h1 (Or.inr (hy.last hw))⟩
      · cases hq
        have hopens := Opens.args hu hv hs ho (hy.push hw h2)
        simpa using hopens.explains
  | @subscripts br p base items u v s y o hu hv hs ho hy =>
      rw [Reference.endItem] at hq
      split_ifs at hq with h1 h2
      · cases hq
        exact ⟨u, v, s ++ (o :: (y ++ w) ++ [t]), by simp, hu, hv,
          means_index hs ho h1 (hy.last hw)⟩
      · cases hq
        have hopens := Opens.subscripts hu hv hs ho (hy.push hw h2)
        simpa using hopens.explains
  | @array br p rows items u v r y o hu hv ho hr hy =>
      rw [Reference.endItem] at hq
      split_ifs at hq with h1 h2 h3
      · cases hq
        exact ⟨u, v, o :: (r ++ (y ++ w)) ++ [t], by simp, hu, hv,
          (means_array ho h1 (pieces_row hr hy hw)).bare⟩
      · cases hq
        have hopens := Opens.array hu hv ho hr (hy.push hw h2)
        simpa using hopens.explains
      · cases hq
        have hrow : MeansRow (y ++ w) (.branch "row" (x :: items).reverse) := ⟨_, rfl, hy.last hw⟩
        have hopens := Opens.array hu hv ho (hr.push hrow h3) .nil
        simpa [closeRow] using hopens.explains

/-- **A token where an item is wanted** ends the bracket or an empty row. -/
lemma Opens.endEmpty (h : Opens br u) (hq : endEmpty t.kind br = some q) :
    Explains (u ++ [t]) q := by
  cases h with
  | none => simp [Reference.endEmpty] at hq
  | group => simp [Reference.endEmpty] at hq
  | @args br p callee items u v s y o hu hv hs ho hy =>
      simp only [Reference.endEmpty, Option.ite_none_right_eq_some, Option.some.injEq] at hq
      obtain ⟨ht, rfl⟩ := hq
      exact ⟨u, v, s ++ (o :: y ++ [t]), by simp, hu, hv,
        means_call hs ho ht hy.severalOrNone⟩
  | @subscripts br p base items u v s y o hu hv hs ho hy =>
      simp only [Reference.endEmpty, Option.ite_none_right_eq_some, Option.some.injEq,
        Bool.and_eq_true, decide_eq_true_eq, Bool.not_eq_true', List.isEmpty_eq_false_iff] at hq
      obtain ⟨⟨ht, hne⟩, rfl⟩ := hq
      exact ⟨u, v, s ++ (o :: y ++ [t]), by simp, hu, hv, means_index hs ho ht (hy.several hne)⟩
  | @array br p rows items u v r y o hu hv ho hr hy =>
      rw [Reference.endEmpty] at hq
      split_ifs at hq with h1 h2
      · cases hq
        exact ⟨u, v, o :: (r ++ y) ++ [t], by simp, hu, hv,
          (means_array ho h1 (pieces_closeRow hr hy)).bare⟩
      · cases hq
        simp only [Bool.and_eq_true, decide_eq_true_eq, Bool.not_eq_true',
          List.isEmpty_eq_false_iff] at h2
        have hrow : MeansRow y (.branch "row" items.reverse) := ⟨_, rfl, hy.several h2.2⟩
        have hopens := Opens.array hu hv ho (hr.push hrow h2.1) .nil
        simpa [closeRow, h2.2] using hopens.explains

/-! ### Steps -/

/-- What a token does where an operand is wanted. -/
lemma stepWant_cases {p : Pending} (h : stepWant t p br = some q) :
    ((∃ kind, t.kind = .literal kind) ∨ t.kind = .name) ∧ q = .hold (leaf t) p br ∨
      t.kind = .arith .minus ∧ q = .want { p with signs := p.signs + 1 } br ∨
      t.kind = .openParen ∧ q = .want .nothing (.group p :: br) ∨
      t.kind = .openBracket ∧ q = .want .nothing (.array p [] [] :: br) ∨
      p.isNothing = true ∧ endEmpty t.kind br = some q := by
  rw [stepWant] at h
  split at h <;> rename_i hk
  · exact Or.inl ⟨Or.inl ⟨_, hk⟩, (Option.some.inj h).symm⟩
  · exact Or.inl ⟨Or.inr hk, (Option.some.inj h).symm⟩
  · exact Or.inr (Or.inl ⟨hk, (Option.some.inj h).symm⟩)
  · exact Or.inr (Or.inr (Or.inl ⟨hk, (Option.some.inj h).symm⟩))
  · exact Or.inr (Or.inr (Or.inr (Or.inl ⟨hk, (Option.some.inj h).symm⟩)))
  · split_ifs at h with hp
    exact Or.inr (Or.inr (Or.inr (Or.inr ⟨hp, h⟩)))

/-- What a token with the usual text does after an operand. -/
lemma stepHold_cases {p : Pending} (h : stepHold t.usual x p br = some q) :
    t.kind = .openParen ∧ q = .want .nothing (.args p x [] :: br) ∨
      t.kind = .openBracket ∧ q = .want .nothing (.subscripts p x [] :: br) ∨
      t.kind = .dot ∧ q = .field x p br ∨
      (∃ op, t.kind.isProductOp op ∧ q = .want (p.afterFactor x op.outline) br) ∨
      (∃ op, t.kind.isSumOp op ∧ q = .want (p.afterTerm x op.outline) br) ∨
      (∃ op, t.kind = .compare op ∧ q = .want (p.afterComparand x op.outline) br) ∨
      t.kind = .assign ∧ q = .want (p.afterTarget x) br ∨
      endItem t.kind (p.whole x) br = some q := by
  rw [stepHold, Token.usual_kind] at h
  split at h <;> rename_i hk
  · exact Or.inl ⟨hk, (Option.some.inj h).symm⟩
  · exact Or.inr (Or.inl ⟨hk, (Option.some.inj h).symm⟩)
  · exact Or.inr (Or.inr (Or.inl ⟨hk, (Option.some.inj h).symm⟩))
  · rw [leaf_usual_arith hk] at h
    exact Or.inr (Or.inr (Or.inr (Or.inl
      ⟨.times, ⟨hk, Or.inl rfl⟩, (Option.some.inj h).symm⟩)))
  · rw [leaf_usual_arith hk] at h
    exact Or.inr (Or.inr (Or.inr (Or.inl
      ⟨.divide, ⟨hk, Or.inr rfl⟩, (Option.some.inj h).symm⟩)))
  · rename_i op h1 h2
    have hop : op = .plus ∨ op = .minus := by
      cases op with
      | plus => exact Or.inl rfl
      | minus => exact Or.inr rfl
      | times => exact absurd rfl h1
      | divide => exact absurd rfl h2
    rw [leaf_usual_arith hk] at h
    exact Or.inr (Or.inr (Or.inr (Or.inr (Or.inl
      ⟨op, ⟨hk, hop⟩, (Option.some.inj h).symm⟩))))
  · rw [leaf_usual_compare hk] at h
    exact Or.inr (Or.inr (Or.inr (Or.inr (Or.inr (Or.inl
      ⟨_, hk, (Option.some.inj h).symm⟩)))))
  · exact Or.inr (Or.inr (Or.inr (Or.inr (Or.inr (Or.inr (Or.inl
      ⟨hk, (Option.some.inj h).symm⟩))))))
  · exact Or.inr (Or.inr (Or.inr (Or.inr (Or.inr (Or.inr (Or.inr h))))))

/-- **Every token passes on that the tokens account for the state.** -/
lemma Explains.step (h : Explains w q) (hq : stepUsual q t = some q') : Explains (w ++ [t]) q' := by
  cases q with
  | want p br =>
      obtain ⟨u, v, rfl, hu, hv⟩ := h
      rw [stepUsual_want] at hq
      rcases stepWant_cases hq with ⟨⟨kind, ht⟩ | ht, rfl⟩ | ⟨ht, rfl⟩ | ⟨ht, rfl⟩ | ⟨ht, rfl⟩ |
        ⟨hp, hend⟩
      · exact ⟨u, v, [t], by simp, hu, hv, (means_literal ht).bare⟩
      · exact ⟨u, v, [t], by simp, hu, hv, (means_name ht).bare⟩
      · exact ⟨u, v ++ [t], by simp, hu, hv.minus ht⟩
      · rw [List.append_assoc]
        exact (Opens.group hu hv ht).explains
      · rw [List.append_assoc]
        exact (Opens.array hu hv ht .nil .nil).explains
      · rw [hv.eq_nil hp, List.append_nil]
        exact hu.endEmpty hend
  | hold x p br =>
      obtain ⟨u, v, s, rfl, hu, hv, hs⟩ := h
      rw [stepUsual_hold] at hq
      have happ : u ++ (v ++ s) ++ [t] = u ++ (v ++ (s ++ [t])) := by simp
      rw [happ]
      rcases stepHold_cases hq with ⟨ht, rfl⟩ | ⟨ht, rfl⟩ | ⟨ht, rfl⟩ | ⟨op, ht, rfl⟩ |
        ⟨op, ht, rfl⟩ | ⟨op, ht, rfl⟩ | ⟨ht, rfl⟩ | hend
      · exact (Opens.args hu hv hs ht .nil).explains
      · exact (Opens.subscripts hu hv hs ht .nil).explains
      · exact ⟨u, v, s, t, rfl, hu, hv, hs, ht⟩
      · exact ⟨u, _, rfl, hu, hv.factor hs ht⟩
      · exact ⟨u, _, rfl, hu, hv.term hs ht⟩
      · exact ⟨u, _, rfl, hu, hv.comparand hs ht⟩
      · exact ⟨u, _, rfl, hu, hv.target hs ht⟩
      · have hitem := hu.endItem (hv.whole hs) hend
        simpa using hitem
  | field x p br =>
      obtain ⟨u, v, s, d, rfl, hu, hv, hs, hd⟩ := h
      simp only [stepUsual_field, Option.ite_none_right_eq_some, Option.some.injEq] at hq
      obtain ⟨ht, rfl⟩ := hq
      exact ⟨u, v, s ++ [d, t], by simp, hu, hv, means_field hs hd ht⟩

/-- **The tokens read so far account for the state reached.** -/
lemma Explains.steps {strict : Prop} {limit : ℕ} (h : Explains v q)
    (hs : Steps strict limit q w q') : Explains (v ++ w) q' := by
  induction hs generalizing v with
  | nil q => rwa [List.append_nil]
  | cons _ hq _ ih => simpa using ih (h.step hq)

/-- The tokens of a sentence are a derivation with its outline. -/
lemma Explains.sentence {o : Outline} (h : Explains w q) (hq : q.sentence? = some o) :
    Means .assignment w o := by
  match q, hq with
  | .hold x p [], hq =>
    obtain ⟨u, v, s, rfl, hu, hv, hs⟩ := h
    cases hu
    cases hq
    exact hv.whole hs

/-- **The machine ends in a sentence exactly on derivations**, and then the
sentence is the outline of the tree. -/
theorem exists_derives_iff {o : Outline} :
    (∃ e, Derives .assignment w e ∧ Expr.outline e = o) ↔
      ∃ q, Steps False 0 .start w q ∧ q.sentence? = some o := by
  constructor
  · rintro ⟨e, he, rfl⟩
    obtain ⟨-, hfits⟩ := he.within
    obtain ⟨x, p, hs, hx⟩ := (runs_of_derives he hfits).whole [] False.elim
    exact ⟨_, hs, congrArg some hx⟩
  · rintro ⟨q, hs, hq⟩
    exact (explains_start.steps hs).sentence hq

end Reference

end ArrayExpr
