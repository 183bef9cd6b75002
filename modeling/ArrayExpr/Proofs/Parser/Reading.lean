/-
What the rules of the parser read.

* `Grammar.Stops`: the tokens after which a nonterminal does not go on;
* `Parser.reads_operand`, ..., `Parser.reads_assignment`: each rule reads the
  words that derive from its nonterminal and fit the room it has, if the rule
  for expressions inside brackets does;
* `Parser.reads_expr`: the rule for expressions reads assignments, whatever the
  room.
-/
import ArrayExpr.Proofs.Rule.Reads

namespace ArrayExpr

/-- Whether a suffix begins with a token. -/
def Kind.startsSuffix : Kind → Bool
  | openParen | openBracket | dot => true
  | _ => false

namespace Grammar

/-- The tokens after which a nonterminal does not go on. -/
def Stops : Level → Kind → Prop
  | .operand, _ => True
  | .suffixed, kind | .signed, kind => kind.startsSuffix = false
  | .product, kind => kind.startsSuffix = false ∧ kind.productOp? = none
  | .sum, kind => (kind.startsSuffix = false ∧ kind.productOp? = none) ∧ kind.sumOp? = none
  | .comparison, kind =>
    ((kind.startsSuffix = false ∧ kind.productOp? = none) ∧ kind.sumOp? = none) ∧
      kind.compareOp? = none
  | .assignment, kind =>
    (((kind.startsSuffix = false ∧ kind.productOp? = none) ∧ kind.sumOp? = none) ∧
      kind.compareOp? = none) ∧ kind ≠ .assign

end Grammar

namespace Kind

/-- The parser and the grammar have the same operators of products. -/
lemma productOp?_eq_some_iff (kind : Kind) (op : ArithOp) :
    kind.productOp? = some op ↔ kind.isProductOp op := by
  rw [isProductOp]
  rcases kind with _ | _ | (_ | _ | _ | _) | _ <;> cases op <;> simp [productOp?]

/-- They have the same operators of sums. -/
lemma sumOp?_eq_some_iff (kind : Kind) (op : ArithOp) :
    kind.sumOp? = some op ↔ kind.isSumOp op := by
  rw [isSumOp]
  rcases kind with _ | _ | (_ | _ | _ | _) | _ <;> cases op <;> simp [sumOp?]

/-- They have the same operators of comparisons. -/
lemma compareOp?_eq_some_iff (kind : Kind) (op : CompareOp) :
    kind.compareOp? = some op ↔ kind.isCompareOp op := by
  rw [isCompareOp]
  cases kind <;> simp [compareOp?]

end Kind

namespace Parser

open Rule Grammar

variable {limit : ℤ} {n : ℕ} {s s' : TokenStream} {e : Expr} {w : List Token}

/-! ### Operands -/

/-- The text of the token ahead with its span. -/
lemma gives_text {p : String × Span} :
    (spanned (do
      let token ← current
      advance
      return token.text.getD "")).Gives s p s' ↔
      p = (s.current.text.getD "", s.advance.spanFrom s) ∧ s' = s.advance := by
  rcases p with ⟨text, span⟩
  simp only [gives_spanned, gives_bind_current, gives_bind_advance, gives_pure, Prod.mk.injEq]
  constructor
  · rintro ⟨⟨rfl, rfl⟩, rfl⟩
    exact ⟨⟨rfl, rfl⟩, rfl⟩
  · rintro ⟨⟨rfl, rfl⟩, rfl⟩
    exact ⟨⟨rfl, rfl⟩, rfl⟩

/-- A literal is read where its text is not too long. -/
lemma gives_literal : literal.Gives s e s' ↔ ∃ kind, s.current.kind = .literal kind ∧
    Literal.overlong? ⟨kind, s.current.text.getD ""⟩ = none ∧
    e = ⟨.literal ⟨kind, s.current.text.getD ""⟩, s.advance.spanFrom s⟩ ∧ s' = s.advance := by
  rw [literal, gives_bind_current]
  cases s.current.kind with
  | literal kind =>
      simp only [gives_bind, gives_text]
      constructor
      · rintro ⟨p, s₁, ⟨rfl, rfl⟩, h⟩
        refine ⟨kind, rfl, ?_⟩
        cases ho : Literal.overlong? ⟨kind, s.current.text.getD ""⟩ with
        | none => simpa [ho] using h
        | some digits => simp [ho] at h
      · rintro ⟨_, ⟨⟩, ho, rfl, rfl⟩
        exact ⟨_, _, ⟨rfl, rfl⟩, by simp [ho]⟩
  | _ => simp

/-- A name is read as it stands. -/
lemma gives_name : name.Gives s e s' ↔ s.current.kind = .name ∧
    e = ⟨.name (s.current.text.getD ""), s.advance.spanFrom s⟩ ∧ s' = s.advance := by
  rw [name, gives_bind_current]
  by_cases hk : s.current.kind = .name
  · simp only [hk, if_true, gives_bind, gives_text, gives_pure, true_and]
    constructor
    · rintro ⟨p, s₁, ⟨rfl, rfl⟩, rfl, rfl⟩
      exact ⟨rfl, rfl⟩
    · rintro ⟨rfl, rfl⟩
      exact ⟨_, _, ⟨rfl, rfl⟩, rfl, rfl⟩
  · simp [hk]

/-- A literal is refused where another token stands. -/
lemma refuses_literal (h : ∀ kind, s.current.kind ≠ .literal kind) :
    literal.Refuses s (.unexpected s (.named "literal")) := by
  rw [literal, refuses_bind_current]
  cases hk : s.current.kind with
  | literal kind => exact absurd hk (h kind)
  | _ => simp

/-- A name is refused where another token stands. -/
lemma refuses_name (h : s.current.kind ≠ .name) :
    name.Refuses s (.unexpected s (.named "identifier")) := by
  rw [name, refuses_bind_current, if_neg h, refuses_fail]

/-- In front of a literal the rule for one ends in a value or overruns. -/
lemma not_refuses_literal {kind : LiteralKind} {g : Failure} (hk : s.current.kind = .literal kind) :
    ¬ literal.Refuses s g := by
  rw [literal, refuses_bind_current, hk]
  simp only [refuses_bind, refuses_spanned, not_refuses_current, not_refuses_advance,
    not_refuses_pure, and_false, exists_false, or_false, false_or]
  rintro ⟨p, s₁, -, h⟩
  cases ho : Literal.overlong? ⟨kind, p.1⟩ <;> simp [ho] at h

/-- In front of a name the rule for names gives it. -/
lemma not_refuses_name {g : Failure} (hk : s.current.kind = .name) : ¬ name.Refuses s g := by
  rw [name, refuses_bind_current, if_pos hk]
  simp

lemma refuses_token_of_ne {kind : Kind} (h : s.current.kind ≠ kind) :
    ∃ e, (token kind none none).Refuses s (.unexpected s e) := by
  simp only [Refuses, token, if_neg h]
  exact ⟨_, rfl⟩

/-- A bracket is refused where another token stands. -/
lemma refuses_bracketed {α : Type} (scope : Scope) {opening : Kind} (closing : Kind)
    (inside : Rule Expr → Rule α) (h : s.current.kind ≠ opening) :
    ∃ e, (scope.bracketed opening closing inside).Refuses s (.unexpected s e) := by
  obtain ⟨e, he⟩ := refuses_token_of_ne h
  refine ⟨e, ?_⟩
  rw [Scope.bracketed]
  exact refuses_spanned.mpr (refuses_bind.mpr (Or.inl he))

/-- A group declines without a parenthesis. -/
lemma refuses_group (scope : Scope) (h : s.current.kind ≠ .openParen) :
    ∃ e, (group scope).Refuses s (.unexpected s e) := by
  obtain ⟨e, he⟩ := refuses_bracketed scope _ _ h
  exact ⟨e, refuses_bind.mpr (Or.inl he)⟩

/-- An array declines without a bracket. -/
lemma refuses_array (scope : Scope) (h : s.current.kind ≠ .openBracket) :
    ∃ e, (array scope).Refuses s (.unexpected s e) := by
  obtain ⟨e, he⟩ := refuses_bracketed scope _ _ h
  exact ⟨e, refuses_visited.mpr (refuses_bind.mpr (Or.inl he))⟩

lemma unexpected_isRecoverable (s : TokenStream) (e : Expectation) :
    (Failure.unexpected s e).isRecoverable = true := by
  have h := unexpected_declinesAt s e
  rw [Failure.declinesAt, Bool.and_eq_true] at h
  exact h.1

lemma kind_of_gives_bracketed {α : Type} {scope : Scope} {opening closing : Kind}
    {inside : Rule Expr → Rule α} {p : α × Span}
    (h : (scope.bracketed opening closing inside).Gives s p s') : s.current.kind = opening := by
  by_contra hk
  obtain ⟨e, he⟩ := refuses_bracketed scope closing inside hk
  exact h.not_refuses he

/-- Past an alternative that is refused at once a choice gives what the others
give. -/
private lemma gives_choice_past {first next : String × Rule Expr}
    {others : List (String × Rule Expr)} (h : ∃ x, first.2.Refuses s (.unexpected s x))
    (h' : (choice next others).Gives s e s') : (choice first (next :: others)).Gives s e s' := by
  obtain ⟨x, hx⟩ := h
  exact gives_choice_cons.mpr (Or.inr ⟨_, hx, unexpected_isRecoverable s x, h'⟩)

/-- **An operand is what one of the alternatives reads.** -/
lemma gives_operand {scope : Scope} : (operand scope).Gives s e s' ↔
    literal.Gives s e s' ∨ name.Gives s e s' ∨ (group scope).Gives s e s' ∨
      (array scope).Gives s e s' := by
  have hsteps : (operand scope).Gives s e s' ↔ (operandChoice scope).Gives s e s' := by
    simp [operand]
  have hliteral : (∀ kind, s.current.kind ≠ .literal kind) →
      ∃ x, literal.Refuses s (.unexpected s x) := fun h => ⟨_, refuses_literal h⟩
  have hname : s.current.kind ≠ .name → ∃ x, name.Refuses s (.unexpected s x) :=
    fun h => ⟨_, refuses_name h⟩
  rw [hsteps, operandChoice]
  constructor
  · intro h
    rcases gives_choice_cons.mp h with h | ⟨-, -, -, h⟩
    · exact Or.inl h
    rcases gives_choice_cons.mp h with h | ⟨-, -, -, h⟩
    · exact Or.inr (Or.inl h)
    rcases gives_choice_cons.mp h with h | ⟨-, -, -, h⟩
    · exact Or.inr (Or.inr (Or.inl h))
    · rw [choice_nil, gives_alternative] at h
      exact Or.inr (Or.inr (Or.inr h))
  · rintro (h | h | h | h)
    · exact gives_choice_cons.mpr (Or.inl h)
    · have hk := (gives_name.mp h).1
      exact gives_choice_past (hliteral (by simp [hk])) (gives_choice_cons.mpr (Or.inl h))
    · have hk : s.current.kind = .openParen := by
        obtain ⟨p, s₁, h, -⟩ := gives_bind.mp h
        exact kind_of_gives_bracketed h
      exact gives_choice_past (hliteral (by simp [hk]))
        (gives_choice_past (hname (by simp [hk])) (gives_choice_cons.mpr (Or.inl h)))
    · have hk : s.current.kind = .openBracket := by
        obtain ⟨p, s₁, h, -⟩ := gives_bind.mp (gives_visited.mp h)
        exact kind_of_gives_bracketed h
      exact gives_choice_past (hliteral (by simp [hk]))
        (gives_choice_past (hname (by simp [hk]))
          (gives_choice_past (refuses_group scope (by simp [hk]))
            (by rw [choice_nil, gives_alternative]; exact h)))

/-- A choice all of whose alternatives decline declines. -/
private lemma refuses_choice_of_declines {first : String × Rule Expr}
    {others : List (String × Rule Expr)}
    (h : ∀ r ∈ first :: others, ∃ g, r.2.Refuses s g ∧ g.declinesAt s = true) :
    ∃ g, (choice first others).Refuses s g ∧ g.declinesAt s = true := by
  induction others generalizing first with
  | nil =>
      obtain ⟨g, hg, hd⟩ := h first (by simp)
      exact ⟨g.inAlternative first.1, refuses_alternative.mpr ⟨g, hg, rfl⟩, by
        rw [Failure.inAlternative_declinesAt, hd]⟩
  | cons next others ih =>
      obtain ⟨g, hg, hd⟩ := h first (by simp)
      obtain ⟨g', hg', hd'⟩ := ih fun r hr => h r (List.mem_cons_of_mem _ hr)
      have hrec : g.isRecoverable = true := (Bool.and_eq_true _ _ ▸ hd).1
      have hrec' : g'.isRecoverable = true := (Bool.and_eq_true _ _ ▸ hd').1
      refine ⟨(g.inAlternative first.1).furthest g', ?_, ?_⟩
      · rw [Refuses] at hg' ⊢
        rw [outcome_choice_of_refuses hg hrec, hg']
        simp [hrec']
      · rw [Failure.furthest]
        split
        · exact hd'
        · rw [Failure.inAlternative_declinesAt, hd]

/-- An operand declines where no operand starts: all its alternatives do. -/
lemma declines_operand (scope : Scope) : (operand scope).Declines := by
  intro s _ hk
  have hall : ∀ r ∈ [("literal", literal), ("identifier", name),
      ("parenthesized expression", group scope), ("array literal", array scope)],
      ∃ g, r.2.Refuses s g ∧ g.declinesAt s = true := by
    have hexp : ∀ {r : Rule Expr}, (∃ x, r.Refuses s (.unexpected s x)) →
        ∃ g, r.Refuses s g ∧ g.declinesAt s = true :=
      fun ⟨x, hx⟩ => ⟨_, hx, unexpected_declinesAt s x⟩
    simp only [List.forall_mem_cons]
    refine ⟨hexp ⟨_, refuses_literal fun kind h => ?_⟩, hexp ⟨_, refuses_name fun h => ?_⟩,
      hexp (refuses_group scope fun h => ?_), hexp (refuses_array scope fun h => ?_), by simp⟩ <;>
      rw [h] at hk <;> simp [Kind.startsOperand] at hk
  obtain ⟨g, hg, hd⟩ := refuses_choice_of_declines hall
  rw [operand, refuses_visited]
  exact refuses_called.mpr ⟨g, hg, by rw [if_pos hd]⟩

/-! ### Brackets and what stands inside -/

/-- The rule for expressions inside brackets, where `n` brackets fit, does its
part. -/
structure Inner (limit : ℤ) (n : ℕ) : Prop where
  reads : ∀ m, n = m + 1 →
    (expr limit m).Reads (Within True m .assignment) (Stops .assignment) (Stops .assignment)
  declines : ∀ m, n = m + 1 → (expr limit m).Declines

/-- The words of one expression. -/
lemma wordOf_phrase {G : List Token → Expr → Prop} (w : List Token) (e : Expr) :
    G w e ↔ WordOf Phrase.tokens Phrase.tree (fun p => G p.tokens p.tree) w e :=
  ⟨fun h => ⟨⟨w, e⟩, h, rfl, rfl⟩, fun ⟨_, h, hw, he⟩ => by rwa [hw, he]⟩

/-- The words of a list of expressions. -/
def Items (empty : Bool) (m : ℕ) : List Token → List Expr → Prop :=
  ListOf .comma empty Phrase.tokens Phrase.tree fun p => Within True m .assignment p.tokens p.tree

/-- Expressions with commas between them. -/
lemma reads_items {m : ℕ} {empty : Bool} {name : String} (hi : Inner limit (m + 1)) :
    (separatedList name ⟨true, empty⟩ .comma (expr limit m)).Reads (Items empty m)
      (fun _ => True) (EndsList .comma (Stops .assignment)) :=
  ((hi.reads m rfl).congr wordOf_phrase).list (hi.declines m rfl) (by simp)
    (by simp [Stops, Kind.startsSuffix, Kind.productOp?, Kind.sumOp?, Kind.compareOp?])

lemma stops_assignment_closing {kind : Kind} (h : kind.isClosing = true) :
    Stops .assignment kind := by
  cases kind <;> simp_all [Kind.isClosing, Stops, Kind.startsSuffix, Kind.productOp?, Kind.sumOp?,
    Kind.compareOp?]

/-- What stands behind a list of expressions in brackets. -/
lemma endsList_closing {kind : Kind} (h : kind.isClosing = true) :
    EndsList .comma (Stops .assignment) kind := by
  refine ⟨?_, ?_, stops_assignment_closing h⟩ <;> cases kind <;>
    simp_all [Kind.isClosing, Kind.startsOperand]

/-- A row with its elements. -/
def IsRow (m : ℕ) (r : Row) : Prop :=
  Listed .comma (r.items.map Phrase.tokens) r.tokens ∧
    ∀ a ∈ r.items, Within True m .assignment a.tokens a.tree

/-- The words of rows are lists of items. -/
lemma wordOf_row {m : ℕ} (w : List Token) (es : List Expr) :
    Items false m w es ↔ WordOf Row.tokens Row.trees (IsRow m) w es := by
  constructor
  · rintro ⟨ps, hps, rfl, h⟩
    exact ⟨⟨w, ps⟩, ⟨h.resolve_right (by simp), hps⟩, rfl, rfl⟩
  · rintro ⟨⟨w, ps⟩, ⟨h, hps⟩, rfl, rfl⟩
    exact ⟨ps, hps, rfl, Or.inl h⟩

/-- The words of a list of rows. -/
def Rows (m : ℕ) : List Token → List (List Expr) → Prop :=
  ListOf .semicolon true Row.tokens Row.trees (IsRow m)

/-- Rows with semicolons between them. -/
lemma reads_rows {m : ℕ} {name : String} (hi : Inner limit (m + 1)) :
    (separatedList name ⟨true, true⟩ .semicolon (arrayRow (expr limit m))).Reads (Rows m)
      (fun _ => True) (EndsList .semicolon (EndsList .comma (Stops .assignment))) := by
  refine Reads.list (((reads_items hi).visited).congr wordOf_row) (hi.declines m rfl).list.visited
    (by simp) ⟨by simp, rfl, ?_⟩
  simp [Stops, Kind.startsSuffix, Kind.productOp?, Kind.sumOp?, Kind.compareOp?]

/-! ### Operands -/

/-- The words of an operand that is an expression in parentheses. -/
def IsGroup (n : ℕ) (w : List Token) (e : Expr) : Prop :=
  ∃ p, InBrackets .openParen .closeParen n (fun m => Within True m .assignment) w p ∧
    e = ⟨.group p.1, p.2⟩

/-- The words of an operand that is an array. -/
def IsArray (n : ℕ) (w : List Token) (e : Expr) : Prop :=
  ∃ p, InBrackets .openBracket .closeBracket n Rows w p ∧ e = ⟨.array p.1, p.2⟩

/-- The rule reads groups, and all of them: a parenthesis decides for it. -/
lemma reads_group (hi : Inner limit n) :
    (group (Scope.ofRoom limit n)).Reads (IsGroup n) (fun _ => True) (fun _ => True) := by
  have hr := Reads.bracketed (fun expr => expr) hi.reads (by simp : Kind.openParen ≠ .finish)
    (by simp : Kind.closeParen ≠ .finish) (stops_assignment_closing rfl)
  exact hr.value fun p => rfl

/-- The rule reads arrays, their rows and the items of the rows as lists. -/
lemma reads_array (hi : Inner limit n) :
    (array (Scope.ofRoom limit n)).Reads (IsArray n) (fun _ => True) (fun _ => True) := by
  have hrows : ∀ m, n = m + 1 → (separatedList "array_rows" ⟨true, true⟩ .semicolon
      (arrayRow (expr limit m))).Reads (Rows m) (fun _ => True)
      (EndsList .semicolon (EndsList .comma (Stops .assignment))) := fun m hm =>
    reads_rows (hm ▸ hi)
  have hr := Reads.bracketed (fun expr => separatedList "array_rows" ⟨true, true⟩ .semicolon
    (arrayRow expr)) hrows (by simp : Kind.openBracket ≠ .finish)
    (by simp : Kind.closeBracket ≠ .finish) ⟨by simp, rfl, endsList_closing rfl⟩
  exact (hr.value fun p => rfl).visited

/-- A literal that is short is an operand. -/
lemma within_literal {t : Token} {kind : LiteralKind} (ht : t.kind = .literal kind)
    (hl : ¬ t.IsLongInteger) :
    Within True n .operand [t] (node [t] (.literal ⟨kind, t.text.getD ""⟩)) := by
  refine ⟨.literal ht, fun _ => ?_, atMostOpen_plain (isPlain_of_kind ht ⟨rfl, rfl⟩), ?_⟩
  · simp [targetsValid_node, Node.children]
  · simpa using hl

/-- A name is an operand. -/
lemma within_name {t : Token} (ht : t.kind = .name) :
    Within True n .operand [t] (node [t] (.name (t.text.getD ""))) := by
  refine ⟨.name ht, fun _ => ?_, atMostOpen_plain (isPlain_of_kind ht ⟨rfl, rfl⟩), ?_⟩
  · simp [targetsValid_node, Node.children]
  · simpa using not_isLongInteger ht (by simp)

/-- A group is an operand. -/
lemma IsGroup.within (h : IsGroup n w e) : Within True n .operand w e := by
  obtain ⟨⟨inner, span⟩, ⟨m, u, o, c, rfl, ho, hc, rfl, hG, hspan⟩, rfl⟩ := h
  simp only at hspan hG ⊢
  rw [hspan]
  exact ⟨.group ho hc hG.1, (fits_group ho hc hG.balanced).mpr ⟨m, rfl, hG.2⟩⟩

/-- An array is an operand. -/
lemma IsArray.within (h : IsArray n w e) : Within True n .operand w e := by
  obtain ⟨⟨_, span⟩, ⟨m, u, o, c, rfl, ho, hc, rfl, ⟨rows, hrows, htrees, hlist⟩, hspan⟩, rfl⟩ := h
  simp only at hspan htrees ⊢
  rw [hspan, htrees]
  have hu : ListedOrNone .semicolon (rows.map Row.tokens) u := by
    rcases hlist with h | ⟨-, rfl, rfl⟩
    · exact Or.inr h
    · exact Or.inl ⟨rfl, rfl⟩
  have hr : ∀ r ∈ rows, Listed .comma (r.items.map Phrase.tokens) r.tokens := fun r h =>
    (hrows r h).1
  refine ⟨.array ho hc hu hr fun r h a ha => ((hrows r h).2 a ha).1, ?_⟩
  refine (fits_array ho hc hu hr fun r h a ha => ((hrows r h).2 a ha).balanced).mpr ?_
  exact ⟨m, rfl, fun r h a ha => ((hrows r h).2 a ha).2⟩

/-- The operands that fit. -/
lemma within_operand_iff : Within True n .operand w e ↔
    (∃ t kind, t.kind = .literal kind ∧ ¬ t.IsLongInteger ∧ w = [t] ∧
      e = node [t] (.literal ⟨kind, t.text.getD ""⟩)) ∨
    (∃ t, t.kind = .name ∧ w = [t] ∧ e = node [t] (.name (t.text.getD ""))) ∨
    IsGroup n w e ∨ IsArray n w e := by
  constructor
  · rintro ⟨h, hf⟩
    cases h with
    | @literal t kind ht =>
        exact Or.inl ⟨t, kind, ht, hf.bounds.short trivial t (by simp), rfl, rfl⟩
    | @name t ht => exact Or.inr (Or.inl ⟨t, ht, rfl, rfl⟩)
    | @group u o c inner ho hc hu =>
        obtain ⟨m, rfl, hm⟩ := (fits_group ho hc hu.balanced).mp hf
        exact Or.inr (Or.inr (Or.inl ⟨(inner, _), ⟨m, u, o, c, rfl, ho, hc, rfl, ⟨hu, hm⟩, rfl⟩,
          rfl⟩))
    | @array u o c rows ho hc hu hr ha =>
        obtain ⟨m, rfl, hm⟩ :=
          (fits_array ho hc hu hr fun r h a h' => (ha r h a h').balanced).mp hf
        refine Or.inr (Or.inr (Or.inr ⟨(rows.map Row.trees, _), ⟨m, u, o, c, rfl, ho, hc, rfl,
          ⟨rows, fun r h => ⟨hr r h, fun a h' => ⟨ha r h a h', hm r h a h'⟩⟩, rfl, ?_⟩, rfl⟩,
          rfl⟩))
        rcases hu with ⟨h, rfl⟩ | h
        · exact Or.inr ⟨rfl, List.map_eq_nil_iff.mp h, rfl⟩
        · exact Or.inl h
  · rintro (⟨t, kind, ht, hl, rfl, rfl⟩ | ⟨t, ht, rfl, rfl⟩ | h | h)
    · exact within_literal ht hl
    · exact within_name ht
    · exact h.within
    · exact h.within

/-- **An operand** is read by the alternative that its first token calls for;
the others decline. -/
lemma reads_operand (hi : Inner limit n) : (operand (Scope.ofRoom limit n)).Reads
    (Within True n .operand) (Stops .operand) (Stops .operand) where
  sound := by
    intro s e s' hs h
    simp only [within_operand_iff]
    rcases gives_operand.mp h with h | h | h | h
    · obtain ⟨kind, hk, ho, rfl, rfl⟩ := gives_literal.mp h
      have hp := passes_advance hs hk (by simp)
      refine ⟨_, hp, Or.inl ⟨_, kind, hk, (overlong?_eq_none_iff hk).mp ho, rfl, ?_⟩, trivial⟩
      rw [node, hp.spanFrom_eq (by simp)]
    · obtain ⟨hk, rfl, rfl⟩ := gives_name.mp h
      have hp := passes_advance hs hk (by simp)
      refine ⟨_, hp, Or.inr (Or.inl ⟨_, hk, rfl, ?_⟩), trivial⟩
      rw [node, hp.spanFrom_eq (by simp)]
    · obtain ⟨w, hp, hw, -⟩ := (reads_group hi).sound hs h
      exact ⟨w, hp, Or.inr (Or.inr (Or.inl hw)), trivial⟩
    · obtain ⟨w, hp, hw, -⟩ := (reads_array hi).sound hs h
      exact ⟨w, hp, Or.inr (Or.inr (Or.inr hw)), trivial⟩
  complete := by
    intro s w e s' hs hp h _
    rw [gives_operand]
    rcases within_operand_iff.mp h with ⟨t, kind, ht, hl, rfl, rfl⟩ | ⟨t, ht, rfl, rfl⟩ | h | h
    · have hcur : s.current = t := current_of_passes hp
      have hs' : s' = s.advance := hp.2
      rw [hs'] at hp
      refine Or.inl (gives_literal.mpr ⟨kind, by rw [hcur]; exact ht, ?_, ?_, hs'⟩)
      · rw [hcur]
        exact (overlong?_eq_none_iff ht).mpr hl
      · rw [hcur, hp.spanFrom_eq (by simp), node]
    · have hcur : s.current = t := current_of_passes hp
      have hs' : s' = s.advance := hp.2
      rw [hs'] at hp
      refine Or.inr (Or.inl (gives_name.mpr ⟨by rw [hcur]; exact ht, ?_, hs'⟩))
      rw [hcur, hp.spanFrom_eq (by simp), node]
    · exact Or.inr (Or.inr (Or.inl ((reads_group hi).complete hs hp h trivial)))
    · exact Or.inr (Or.inr (Or.inr ((reads_array hi).complete hs hp h trivial)))

/-! ### Suffixes -/

/-- The words of a call suffix. -/
def IsCall (n : ℕ) : List Token → List Expr × Span → Prop :=
  InBrackets .openParen .closeParen n (Items true)

/-- The words of an index suffix. -/
def IsIndex (n : ℕ) : List Token → List Expr × Span → Prop :=
  InBrackets .openBracket .closeBracket n (Items false)

/-- The rule reads the arguments of a call. -/
lemma reads_callSuffix (hi : Inner limit n) : (callSuffix (Scope.ofRoom limit n)).Reads (IsCall n)
    (fun _ => True) (fun _ => True) := by
  have hr := Reads.bracketed (fun expr => separatedList "call_args" ⟨true, true⟩ .comma expr)
    (fun m (hm : n = m + 1) => reads_items (hm ▸ hi)) (by simp : Kind.openParen ≠ .finish)
    (by simp : Kind.closeParen ≠ .finish) (endsList_closing rfl)
  exact hr.visited

/-- The rule reads the subscripts of an index. -/
lemma reads_indexSuffix (hi : Inner limit n) : (indexSuffix (Scope.ofRoom limit n)).Reads
    (fun w e => ∃ p, IsIndex n w p ∧ e = ⟨.index p.1, p.2⟩) (fun _ => True) (fun _ => True) := by
  have hr := Reads.bracketed (fun expr => separatedList "subscripts" ⟨true, false⟩ .comma expr)
    (fun m (hm : n = m + 1) => reads_items (hm ▸ hi)) (by simp : Kind.openBracket ≠ .finish)
    (by simp : Kind.closeBracket ≠ .finish) (endsList_closing rfl)
  exact (hr.value fun p => rfl).visited

/-- A field is a dot with a name behind it. -/
lemma gives_fieldSuffix : fieldSuffix.Gives s e s' ↔ s.current.kind = .dot ∧
    s.advance.current.kind = .name ∧
    e = ⟨.field (s.advance.current.text.getD ""), s.advance.advance.spanFrom s⟩ ∧
    s' = s.advance.advance := by
  simp only [fieldSuffix, gives_bind, gives_spanned, gives_token, gives_pure]
  constructor
  · rintro ⟨⟨t, span⟩, s₁, ⟨⟨_, s₂, ⟨hd, rfl, rfl⟩, ht, rfl, rfl⟩, rfl⟩, rfl, rfl⟩
    exact ⟨hd, ht, rfl, rfl⟩
  · rintro ⟨hd, ht, rfl, rfl⟩
    exact ⟨(s.advance.current, s.advance.advance.spanFrom s), _,
      ⟨⟨_, _, ⟨hd, rfl, rfl⟩, ht, rfl, rfl⟩, rfl⟩, rfl, rfl⟩

/-- A suffix is a call, an index or a field. -/
lemma isSuffix_iff {x : Suffix} : IsSuffix True n w x ↔
    (∃ p, IsCall n w p ∧ x = .call p.1 p.2) ∨ (∃ p, IsIndex n w p ∧ x = .step ⟨.index p.1, p.2⟩) ∨
      ∃ d t, d.kind = .dot ∧ t.kind = .name ∧ w = [d, t] ∧
        x = .step (node [d, t] (.field (t.text.getD ""))) := by
  constructor
  · intro h
    cases h with
    | @call m u o c args ho hc hu ha =>
        refine Or.inl ⟨(_, _), ⟨m, u, o, c, rfl, ho, hc, rfl, ⟨args, ha, rfl, ?_⟩, rfl⟩, rfl⟩
        rcases hu with ⟨h, rfl⟩ | h
        · exact Or.inr ⟨rfl, List.map_eq_nil_iff.mp h, rfl⟩
        · exact Or.inl h
    | @index m u o c args ho hc hu ha =>
        exact Or.inr (Or.inl ⟨(_, _), ⟨m, u, o, c, rfl, ho, hc, rfl, ⟨args, ha, rfl, Or.inl hu⟩,
          rfl⟩, rfl⟩)
    | @field n d t hd ht => exact Or.inr (Or.inr ⟨d, t, hd, ht, rfl, rfl⟩)
  · rintro (⟨⟨as, span⟩, h, rfl⟩ | ⟨⟨as, span⟩, h, rfl⟩ | ⟨d, t, hd, ht, rfl, rfl⟩)
    · obtain ⟨m, u, o, c, rfl, ho, hc, rfl, ⟨ps, hps, has, hu⟩, hspan⟩ := h
      simp only at hspan has ⊢
      rw [hspan, has]
      refine .call ho hc ?_ hps
      rcases hu with h | ⟨-, rfl, rfl⟩
      · exact Or.inr h
      · exact Or.inl ⟨rfl, rfl⟩
    · obtain ⟨m, u, o, c, rfl, ho, hc, rfl, ⟨ps, hps, has, hu⟩, hspan⟩ := h
      simp only at hspan has ⊢
      rw [hspan, has]
      exact .index ho hc (hu.resolve_right (by simp)) hps
    · exact .field hd ht

/-- No suffix is read where none starts. -/
lemma gives_suffix?_none {scope : Scope} :
    (suffix? scope).Gives s none s' ↔ s.current.kind.startsSuffix = false ∧ s' = s := by
  rw [suffix?, gives_bind_current]
  cases s.current.kind <;> simp [Kind.startsSuffix]

/-- A suffix is read by the rule that its first token calls for. -/
lemma gives_suffix?_some {scope : Scope} {x : Suffix} :
    (suffix? scope).Gives s (some x) s' ↔
      (s.current.kind = .openParen ∧ ∃ p, (callSuffix scope).Gives s p s' ∧ x = .call p.1 p.2) ∨
      (s.current.kind = .openBracket ∧ ∃ e, (indexSuffix scope).Gives s e s' ∧ x = .step e) ∨
      (s.current.kind = .dot ∧ ∃ e, fieldSuffix.Gives s e s' ∧ x = .step e) := by
  rw [suffix?, gives_bind_current]
  cases s.current.kind with
  | openParen => simp [and_comm]
  | openBracket => simp [and_comm]
  | dot => simp [and_comm]
  | _ => simp

/-- Words in brackets begin with the opening one. -/
lemma inBrackets_kind {α : Type} {opening closing : Kind} {G : ℕ → List Token → α → Prop}
    {p : α × Span} (h : InBrackets opening closing n G w p) (hp : s.Passes w s') :
    s.current.kind = opening := by
  obtain ⟨m, u, o, c, -, ho, -, rfl, -⟩ := h
  rw [List.cons_append] at hp
  rw [current_of_passes hp, ho]

/-- A suffix starts with a token that tells it from everything else behind an
operand. -/
lemma IsSuffix.begins {x : Suffix} (h : IsSuffix True n w x) :
    ∃ t u, w = t :: u ∧ t.kind.startsSuffix = true := by
  cases h with
  | call ho => exact ⟨_, _, rfl, by rw [ho]; rfl⟩
  | index ho => exact ⟨_, _, rfl, by rw [ho]; rfl⟩
  | field hd => exact ⟨_, _, rfl, by rw [hd]; rfl⟩

/-- Suffixes are read one after another. -/
lemma reads_suffixes (hi : Inner limit n) :
    ReadsItems (suffix? (Scope.ofRoom limit n)) SuffixPhrase.tokens SuffixPhrase.suffix
      (fun x => IsSuffix True n x.tokens x.suffix) (fun _ => True) (fun _ => True) where
  sound := by
    intro s x s' hs h
    rcases gives_suffix?_some.mp h with ⟨-, p, hg, rfl⟩ | ⟨-, e, hg, rfl⟩ | ⟨-, e, hg, rfl⟩
    · obtain ⟨w, hp, hw, -⟩ := (reads_callSuffix hi).sound hs hg
      exact ⟨⟨w, _⟩, isSuffix_iff.mpr (Or.inl ⟨p, hw, rfl⟩), rfl, hp, trivial⟩
    · obtain ⟨w, hp, ⟨p, hw, rfl⟩, -⟩ := (reads_indexSuffix hi).sound hs hg
      exact ⟨⟨w, _⟩, isSuffix_iff.mpr (Or.inr (Or.inl ⟨p, hw, rfl⟩)), rfl, hp, trivial⟩
    · obtain ⟨hd, ht, rfl, rfl⟩ := gives_fieldSuffix.mp hg
      have hp := passes_advance hs hd (by simp)
      have hp' := hp.append (passes_advance (hs.passes hp) ht (by simp))
      rw [hp'.spanFrom_eq (by simp)]
      exact ⟨⟨_, _⟩, isSuffix_iff.mpr (Or.inr (Or.inr ⟨_, _, hd, ht, rfl, rfl⟩)), rfl, hp', trivial⟩
  complete := by
    rintro s ⟨w, x⟩ s' hs hw hp -
    rw [gives_suffix?_some]
    rcases isSuffix_iff.mp hw with ⟨p, hw, rfl⟩ | ⟨p, hw, rfl⟩ | ⟨d, t, hd, ht, rfl, rfl⟩
    · exact Or.inl ⟨inBrackets_kind hw hp, p, (reads_callSuffix hi).complete hs hp hw trivial, rfl⟩
    · exact Or.inr (Or.inl ⟨inBrackets_kind hw hp, _,
        (reads_indexSuffix hi).complete hs hp ⟨p, hw, rfl⟩ trivial, rfl⟩)
    · have hcur : s.current = d := current_of_passes hp
      have hcur' : s.advance.current = t := current_of_passes hp.2
      have hs' : s' = s.advance.advance := hp.2.2
      refine Or.inr (Or.inr ⟨by rw [hcur]; exact hd, _, gives_fieldSuffix.mpr
        ⟨by rw [hcur]; exact hd, by rw [hcur']; exact ht, ?_, hs'⟩, rfl⟩)
      rw [hs'] at hp
      rw [hcur', hp.spanFrom_eq (by simp), node]
  begins := fun h => by
    obtain ⟨t, u, htu, -⟩ := IsSuffix.begins h
    exact ⟨t, u, htu, trivial⟩

/-- An operand is read with all suffixes that stand behind it. -/
lemma reads_suffixed (hi : Inner limit n) : (suffixed (Scope.ofRoom limit n)).Reads
    (Within True n .suffixed) (Stops .suffixed) (Stops .suffixed) where
  sound := by
    intro s e s' hs h
    rw [suffixed, gives_parts] at h
    obtain ⟨base, s₁, suffixes, hbase, h, rfl⟩ := h
    obtain ⟨v, hv, hb, -⟩ := (reads_operand hi).sound hs hbase
    obtain ⟨xs, s₂, hxs, rfl, hp, -, hnone⟩ := (reads_suffixes hi).many_sound (hs.passes hv) h
    obtain ⟨hk, rfl⟩ := gives_suffix?_none.mp hnone
    exact ⟨_, hv.append hp, within_suffixed_iff.mpr ⟨v, base, xs, hb, hxs, rfl, rfl⟩, hk⟩
  complete := by
    intro s w e s' hs hp hw hk
    obtain ⟨v, base, xs, hb, hxs, rfl, rfl⟩ := within_suffixed_iff.mp hw
    obtain ⟨s₁, hv, hp⟩ := TokenStream.passes_append_iff.mp hp
    have hsuffixes := (reads_suffixes hi).many_complete (hs.passes hv) hxs hp (Or.inr trivial)
      (gives_suffix?_none.mpr ⟨hk, rfl⟩)
    rw [suffixed, gives_parts]
    exact ⟨base, s₁, _, (reads_operand hi).complete hs hv hb trivial, hsuffixes, rfl⟩

/-! ### Minus signs -/

/-- No sign is read where no minus stands. -/
lemma gives_sign?_none : sign?.Gives s none s' ↔ s.current.kind ≠ .arith .minus ∧ s' = s := by
  rw [sign?, gives_bind_current]
  by_cases hk : s.current.kind = .arith .minus <;> simp [hk]

/-- A minus is read as a sign, wherever it stands. -/
lemma gives_sign?_some {span : Span} : sign?.Gives s (some span) s' ↔
    s.current.kind = .arith .minus ∧ span = .point s.current.start.offset ∧ s' = s.advance := by
  rw [sign?, gives_bind_current]
  by_cases hk : s.current.kind = .arith .minus
  · simp only [hk, if_true, gives_bind_stream, gives_bind_advance, gives_pure, Option.some.injEq,
      true_and]
    rfl
  · simp [hk]

/-- Signs are read one after another. -/
lemma reads_signs : ReadsItems sign? (fun t => [t]) (fun t => Span.point t.start.offset)
    (fun t => t.kind = .arith .minus) (fun _ => True) (fun _ => True) where
  sound := by
    intro s x s' hs h
    obtain ⟨hk, rfl, rfl⟩ := gives_sign?_some.mp h
    exact ⟨s.current, hk, rfl, passes_advance hs hk (by simp), trivial⟩
  complete := by
    intro s t s' hs hk hp _
    have hcur : s.current = t := current_of_passes hp
    exact gives_sign?_some.mpr ⟨by rw [hcur]; exact hk, by rw [hcur], hp.2⟩
  begins := fun {t} _ => ⟨t, [], rfl, trivial⟩

/-- A word that an operand may begin with does not begin with a minus sign. -/
lemma Derives.not_minus {l : Level} (h : Derives l w e) (hl : l = .operand ∨ l = .suffixed) :
    ∃ t u, w = t :: u ∧ t.kind.startsOperand = true ∧ t.kind ≠ .arith .minus := by
  induction h with
  | literal ht | name ht => exact ⟨_, _, rfl, by rw [ht]; rfl, by rw [ht]; simp⟩
  | group ho | array ho => exact ⟨_, _, rfl, by rw [ho]; rfl, by rw [ho]; simp⟩
  | bare _ ih => exact ih (Or.inl rfl)
  | call _ _ _ _ _ ih | index _ _ _ _ _ ih | field _ _ _ ih =>
      obtain ⟨t, u, rfl, h⟩ := ih (Or.inr rfl)
      exact ⟨t, _, rfl, h⟩
  | _ => simp at hl

/-- An operand is read under all signs before it. -/
lemma reads_signed (hi : Inner limit n) : (signed (Scope.ofRoom limit n)).Reads
    (Within True n .signed) (Stops .signed) (Stops .signed) where
  sound := by
    intro s e s' hs h
    rw [signed, gives_parts] at h
    obtain ⟨spans, s₁, operand, hsigns, h, rfl⟩ := h
    obtain ⟨signs, s₂, hsg, rfl, hp, -, hnone⟩ := reads_signs.many_sound hs hsigns
    obtain ⟨-, rfl⟩ := gives_sign?_none.mp hnone
    obtain ⟨v, hv, hb, hk⟩ := (reads_suffixed hi).sound (hs.passes hp) h
    rw [List.flatMap_singleton'] at hp
    exact ⟨_, hp.append hv, within_signed_iff.mpr ⟨signs, v, operand, hsg, hb, rfl, rfl⟩, hk⟩
  complete := by
    intro s w e s' hs hp hw hk
    obtain ⟨signs, v, operand, hsg, hb, rfl, rfl⟩ := within_signed_iff.mp hw
    obtain ⟨s₁, hp, hv⟩ := TokenStream.passes_append_iff.mp hp
    have hnone : sign?.Gives s₁ none s₁ := by
      obtain ⟨t, u, rfl, -, ht⟩ := Derives.not_minus hb.1 (Or.inr rfl)
      exact gives_sign?_none.mpr ⟨by rw [current_of_passes hv]; exact ht, rfl⟩
    have hsigns := reads_signs.many_complete hs hsg (by rwa [List.flatMap_singleton'])
      (Or.inr trivial) hnone
    rw [signed, gives_parts]
    exact ⟨_, s₁, operand, hsigns, (reads_suffixed hi).complete (hs.passes hp) hv hb hk, rfl⟩

/-! ### Operators -/

/-- An operator of a product ends its left side. -/
lemma stops_of_productOp (kind : Kind) (op : ArithOp) (h : kind.productOp? = some op) :
    Stops .signed kind := by
  cases kind <;> simp_all [Kind.productOp?, Stops, Kind.startsSuffix]

/-- An operator of a sum ends its left side. -/
lemma stops_of_sumOp (kind : Kind) (op : ArithOp) (h : kind.sumOp? = some op) :
    Stops .product kind := by
  rcases kind with _ | _ | (_ | _ | _ | _) | _ <;>
    simp_all [Kind.sumOp?, Kind.productOp?, Stops, Kind.startsSuffix]

/-- An operator of a comparison ends its left side. -/
lemma stops_of_compareOp (kind : Kind) (op : CompareOp) (h : kind.compareOp? = some op) :
    Stops .sum kind := by
  cases kind <;>
    simp_all [Kind.compareOp?, Kind.sumOp?, Kind.productOp?, Stops, Kind.startsSuffix]

/-- A product is read up to a token that goes on with none. -/
lemma reads_product (hi : Inner limit n) : (product (Scope.ofRoom limit n)).Reads
    (Within True n .product) (Stops .product) (Stops .product) :=
  ((reads_signed hi).chain rfl stops_of_productOp Kind.productOp?_eq_some_iff).congr
    fun _ _ => within_product_iff.symm

/-- So is a sum. -/
lemma reads_sum (hi : Inner limit n) : (sum (Scope.ofRoom limit n)).Reads
    (Within True n .sum) (Stops .sum) (Stops .sum) :=
  ((reads_product hi).chain rfl stops_of_sumOp Kind.sumOp?_eq_some_iff).congr
    fun _ _ => within_sum_iff.symm

/-- So is a comparison. -/
lemma reads_comparison (hi : Inner limit n) : (comparison (Scope.ofRoom limit n)).Reads
    (Within True n .comparison) (Stops .comparison) (Stops .comparison) :=
  ((reads_sum hi).chain rfl stops_of_compareOp Kind.compareOp?_eq_some_iff).congr
    fun _ _ => within_comparison_iff.symm

/-! ### Assignments -/

/-- A side is a comparison with the token that stood in front of it. -/
lemma gives_side {scope : Scope} {p : Token × Expr} :
    (side scope).Gives s p s' ↔ p.1 = s.current ∧ (comparison scope).Gives s p.2 s' := by
  rcases p with ⟨t, e⟩
  rw [side, gives_bind_current]
  simp only [bind_pure_comp, gives_map, Prod.mk.injEq]
  constructor
  · rintro ⟨_, ⟨rfl, rfl⟩, h⟩
    exact ⟨rfl, h⟩
  · rintro ⟨rfl, h⟩
    exact ⟨e, ⟨rfl, rfl⟩, h⟩

/-- No side is read where no `=` stands. -/
lemma gives_furtherSide_none {scope : Scope} {before : Token × Expr} :
    (furtherSide scope before).Gives s none s' ↔ s.current.kind ≠ .assign ∧ s' = s := by
  rw [furtherSide, gives_bind_current]
  by_cases hk : s.current.kind = .assign
  · by_cases ha : before.2.isAssignable <;> simp [hk, ha]
  · simp [hk]

/-- A side is read behind a `=` with a target before it. -/
lemma gives_furtherSide_some {scope : Scope} {before next : Token × Expr} :
    (furtherSide scope before).Gives s (some (e, next)) s' ↔
      s.current.kind = .assign ∧ IsTarget before.2 ∧ e = next.2 ∧
        (side scope).Gives s.advance next s' := by
  rw [furtherSide, gives_bind_current, ← isAssignable_iff]
  by_cases hk : s.current.kind = .assign
  · by_cases ha : before.2.isAssignable
    · simp only [hk, ha, if_true, gives_bind_advance, bind_pure_comp, gives_map, Option.some.injEq,
        Prod.mk.injEq, true_and]
      constructor
      · rintro ⟨_, ⟨rfl, rfl⟩, h⟩
        exact ⟨rfl, h⟩
      · rintro ⟨rfl, h⟩
        exact ⟨next, ⟨rfl, rfl⟩, h⟩
    · simp [hk, ha]
  · simp [hk]

/-- A side is never empty, so the repetition of sides ends. -/
lemma reading_furtherSide (hi : Inner limit n) :
    Reading (furtherSide (Scope.ofRoom limit n)) := by
  rintro before s e next s₁ hs h
  obtain ⟨hk, -, -, h⟩ := gives_furtherSide_some.mp h
  have hp := passes_advance hs hk (by simp)
  obtain ⟨w, hw, -⟩ := (reads_comparison hi).sound (hs.passes hp) (gives_side.mp h).2
  exact ⟨_, by simp, hp.append hw⟩

/-- The sides after the first one. -/
lemma sides_sound (hi : Inner limit n) (hs : s.Ordered) {before last : Token × Expr}
    {others : List Expr} {s₁ : TokenStream}
    (hr : Reaches (furtherSide (Scope.ofRoom limit n)) before s others last s₁)
    (hk : Stops .comparison s.current.kind) :
    ∃ u, s.Passes u s₁ ∧ Sides True n before.2 others u ∧ Stops .comparison s₁.current.kind := by
  induction hr with
  | refl before s => exact ⟨[], rfl, .last _, hk⟩
  | @round before next last s s₁ s₂ e others h _ ih =>
      obtain ⟨ha, ht, rfl, hside⟩ := gives_furtherSide_some.mp h
      have hp := passes_advance hs ha (by simp)
      obtain ⟨w, hw, hG, hk'⟩ :=
        (reads_comparison hi).sound (hs.passes hp) (gives_side.mp hside).2
      obtain ⟨u, hu, hsides, hk''⟩ := ih ((hs.passes hp).passes hw) hk'
      exact ⟨_, (hp.append hw).append hu, .more (fun _ => ht) ha hG hsides, hk''⟩

/-- Sides start with a `=`, each of them. -/
lemma Sides.begins {first : Expr} {others : List Expr} {u : List Token}
    (h : Sides True n first others u) : u = [] ∨ ∃ t v, u = t :: v ∧ t.kind = .assign := by
  cases h with
  | last => exact Or.inl rfl
  | more _ ht => exact Or.inr ⟨_, _, rfl, ht⟩

lemma stops_comparison_assign : Stops .comparison .assign := by
  simp [Stops, Kind.startsSuffix, Kind.productOp?, Kind.sumOp?, Kind.compareOp?]

/-- In front of further sides a side is complete. -/
lemma stops_of_sides {first : Expr} {others : List Expr} {u : List Token}
    (h : Sides True n first others u) (hp : s.Passes u s')
    (hk : Stops .comparison s'.current.kind) : Stops .comparison s.current.kind := by
  rcases Sides.begins h with rfl | ⟨t, v, rfl, ht⟩
  · rw [TokenStream.passes_nil_iff] at hp
    rwa [← hp]
  · rw [current_of_passes hp, ht]
    exact stops_comparison_assign

/-- The sides that the grammar has are read round by round. -/
lemma sides_complete (hi : Inner limit n) (hs : s.Ordered) (before : Token × Expr) {first : Expr}
    {others : List Expr} {u : List Token} (hb : before.2 = first)
    (h : Sides True n first others u) (hp : s.Passes u s')
    (hk : Stops .comparison s'.current.kind) :
    ∃ last, Reaches (furtherSide (Scope.ofRoom limit n)) before s others last s' := by
  induction h generalizing s before with
  | last =>
      rw [TokenStream.passes_nil_iff] at hp
      rw [hp]
      exact ⟨before, .refl _ _⟩
  | @more first next t w u others ht ha hw hu ih =>
      obtain ⟨s₁, hp, hpu⟩ := TokenStream.passes_append_iff.mp hp
      have hcur : s.current = t := current_of_passes hp
      have hk' := stops_of_sides hu hpu hk
      obtain ⟨last, hr⟩ := ih (hs.passes hp) (s.advance.current, next) rfl hpu
      refine ⟨last, .round (gives_furtherSide_some.mpr ⟨by rw [hcur]; exact ha, ?_, rfl,
        gives_side.mpr ⟨rfl, ?_⟩⟩) hr⟩
      · rw [hb]
        exact ht trivial
      · exact (reads_comparison hi).complete (hs.advance hp.1) hp.2 hw hk'

/-- **An assignment** is read side by side from the left, and built from the
right. -/
lemma reads_assignment (hi : Inner limit n) : (assignment (Scope.ofRoom limit n)).Reads
    (Within True n .assignment) (Stops .assignment) (Stops .assignment) where
  sound := by
    intro s e s' hs h
    rw [assignment, gives_parts] at h
    obtain ⟨first, s₁, others, hfirst, h, rfl⟩ := h
    obtain ⟨v, hv, hG, hk⟩ := (reads_comparison hi).sound hs (gives_side.mp hfirst).2
    obtain ⟨last, s₂, hr, hnone⟩ := (gives_collect (reading_furtherSide hi) (hs.passes hv)).mp h
    obtain ⟨ha, rfl⟩ := gives_furtherSide_none.mp hnone
    obtain ⟨u, hu, hsides, hk'⟩ := sides_sound hi (hs.passes hv) hr hk
    exact ⟨_, hv.append hu, within_assignment_iff.mpr ⟨v, u, _, others, hG, hsides, rfl, rfl⟩,
      hk', ha⟩
  complete := by
    rintro s w e s' hs hp hw ⟨hk, ha⟩
    obtain ⟨v, u, first, others, hG, hsides, rfl, rfl⟩ := within_assignment_iff.mp hw
    obtain ⟨s₁, hv, hu⟩ := TokenStream.passes_append_iff.mp hp
    have hfirst := (reads_comparison hi).complete hs hv hG (stops_of_sides hsides hu hk)
    obtain ⟨last, hr⟩ := sides_complete hi (hs.passes hv) (s.current, first) rfl hsides hu hk
    have hothers := (gives_collect (reading_furtherSide hi) (hs.passes hv)).mpr
      ⟨last, s', hr, gives_furtherSide_none.mpr ⟨ha, rfl⟩⟩
    rw [assignment, gives_parts]
    exact ⟨(s.current, first), s₁, others, gives_side.mpr ⟨rfl, hfirst⟩, hothers, rfl⟩

/-! ### Expressions -/

lemma declines_signed (scope : Scope) : (signed scope).Declines := by
  intro s hs hk
  have hminus : s.current.kind ≠ .arith .minus := fun h => by
    rw [h] at hk
    simp [Kind.startsOperand] at hk
  have hsigns : (many sign?).Gives s [] s :=
    reads_signs.many_complete hs (List.forall_mem_nil _) rfl (Or.inl rfl)
      (gives_sign?_none.mpr ⟨hminus, rfl⟩)
  rw [signed, refuses_parts]
  exact Or.inr ⟨[], s, hsigns, (declines_operand scope).bind.visited s hs hk⟩

lemma declines_product (scope : Scope) : (product scope).Declines :=
  (declines_signed scope).bind.visited

lemma declines_sum (scope : Scope) : (sum scope).Declines := (declines_product scope).bind.visited

lemma declines_comparison (scope : Scope) : (comparison scope).Declines :=
  (declines_sum scope).bind.visited

/-- Every level declines where its operand does. -/
lemma declines_assignment (scope : Scope) : (assignment scope).Declines := by
  have hside : (side scope).Declines := by
    intro s hs hk
    rw [side, refuses_bind_current]
    exact refuses_bind.mpr (Or.inl (declines_comparison scope s hs hk))
  exact hside.bind.visited

/-- What an assignment does if the rule for expressions inside brackets does, the
rule for expressions does, whatever the room. -/
lemma expr_induction {P : ℕ → Rule Expr → Prop} (limit : ℤ)
    (h : ∀ n, (∀ m, n = m + 1 → P m (expr limit m)) → P n (assignment (Scope.ofRoom limit n)))
    (n : ℕ) : P n (expr limit n) := by
  induction n with
  | zero =>
      rw [expr_eq]
      exact h 0 fun m hm => by omega
  | succ n ih =>
      rw [expr_eq]
      refine h (n + 1) fun m hm => ?_
      obtain rfl : n = m := Nat.succ.inj hm
      exact ih

/-- The rule for expressions does its part, whatever the room. -/
lemma inner_ofRoom (limit : ℤ) (n : ℕ) : Inner limit n := by
  have hexpr : ∀ n, (expr limit n).Reads (Within True n .assignment) (Stops .assignment)
      (Stops .assignment) ∧ (expr limit n).Declines := by
    refine expr_induction (P := fun n r => r.Reads (Within True n .assignment)
      (Stops .assignment) (Stops .assignment) ∧ r.Declines) limit fun n ih => ?_
    exact ⟨reads_assignment ⟨fun m hm => (ih m hm).1, fun m hm => (ih m hm).2⟩,
      declines_assignment _⟩
  exact ⟨fun m _ => (hexpr m).1, fun m _ => (hexpr m).2⟩

/-- **The rule for expressions reads what derives from the grammar and fits
the room**, and stops where no expression goes on. -/
theorem reads_expr (limit : ℤ) (n : ℕ) : (expr limit n).Reads (Within True n .assignment)
    (Stops .assignment) (Stops .assignment) := by
  rw [expr_eq]
  exact reads_assignment (inner_ofRoom limit n)

end Parser

end ArrayExpr
