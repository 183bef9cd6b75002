/-
The parser run on two layouts.

* `Layouts.Scopes`: scopes that allow the same, or of which the first one is
  closed by its tighter limit;
* `Scopes.operand`, `Scopes.suffixed` and those after them: one lemma for each
  rule of the grammar;
* `agree_expr`: the rules for expressions under two limits agree.
-/
import ArrayExpr.Proofs.Layout.Rule

namespace ArrayExpr

namespace Layouts

open Rule ArrayExpr.Parser

variable {L : Layouts} {tighter : Prop} {α : Type} {R : α → α → Prop} {scope scope' : Scope}
  {s s' : TokenStream}

/-! ### Scopes -/

/-- Scopes that open into rules that agree, that are both closed by one limit,
or of which the first one is closed by a tighter limit. -/
inductive Scopes (L : Layouts) (tighter : Prop) : Scope → Scope → Prop
  | opened (limit limit' : ℤ) {e e' : Rule Expr} (h : L.Agree tighter L.Trees 0 e e') :
      Scopes L tighter ⟨limit, some e⟩ ⟨limit', some e'⟩
  | closed (limit : ℤ) : Scopes L tighter ⟨limit, none⟩ ⟨limit, none⟩
  | cut (limit : ℤ) (scope' : Scope) (h : tighter) : Scopes L tighter ⟨limit, none⟩ scope'

/-- A bracket more: both sides hand down matched rules, or the tighter one is
cut off here. -/
lemma Scopes.descend (h : L.Scopes tighter scope scope') :
    L.Agree tighter (L.Agree tighter L.Trees 0) 0 scope.descend scope'.descend := by
  cases h with
  | opened limit limit' h => exact agree_pure h
  | closed limit => exact agree_fail fun s s' hs => hs.ofKind _ (.nesting limit)
  | cut limit scope' h => exact fun s s' _ => .cut h rfl

/-- A pair of brackets around matched rules; its span is matched, too. -/
lemma Scopes.bracketed (h : L.Scopes tighter scope scope') {opening closing : Kind}
    (ho : opening ≠ .finish) (hc : closing ≠ .finish) {inside inside' : Rule Expr → Rule α}
    (hinside : ∀ e e', L.Agree tighter L.Trees 0 e e' →
      L.Agree tighter R 0 (inside e) (inside' e')) :
    L.Agree tighter (fun x x' => R x.1 x'.1 ∧ L.Spans x.2 x'.2) 1
      (scope.bracketed opening closing inside) (scope'.bracketed opening closing inside') := by
  refine Agree.spanned ((agree_token ho none .none).bind fun o o' hopener =>
    h.descend.bind fun e e' he => (hinside e e' he).bind fun a a' ha => ?_)
  exact ((agree_token hc none (.some hopener)).of_le (Nat.zero_le 1)).bind_pure
    fun _ _ _ => ha

/-! ### Operands -/

/-- The token ahead with its span. -/
lemma run_text (s : TokenStream) :
    (spanned do
      let token ← current
      advance
      return token.text.getD "") s =
      ⟨.success (s.current.text.getD "", s.advance.spanFrom s) s.advance, []⟩ := rfl

/-- A rule that takes the text of the token ahead. -/
lemma agree_text {k k' : String × Span → Rule α} (hs : L.Streams s s')
    (hkind : s.current.kind ≠ .finish)
    (hk : ∀ text sp sp', L.Spans sp sp' → L.Agree tighter R 0 (k (text, sp)) (k' (text, sp'))) :
    L.Runs tighter R s.index
      ((spanned (do
        let token ← current
        advance
        return token.text.getD "") >>= k) s)
      ((spanned (do
        let token ← current
        advance
        return token.text.getD "") >>= k') s') := by
  have hmoved := hs.advance_index hkind
  have hspans := hs.spanFrom hs.advance (by omega)
  rw [bind_run, bind_run, run_text, run_text, ← hs.text_eq]
  exact (((hk _ _ _ hspans) _ _ hs.advance).of_le (by omega)).afterVisits []

/-- Literals with one text have one value. -/
lemma agree_literal : L.Agree tighter L.Trees 0 literal literal := by
  refine agree_current fun s s' hs => ?_
  rw [← hs.kind_eq]
  cases hk : s.current.kind with
  | literal kind =>
      refine agree_text hs (by simp [hk]) fun text sp sp' hspans => ?_
      dsimp only
      split
      · exact agree_overlong _
      · exact agree_pure (trees_literal _ hspans)
  | _ => exact agree_fail (fun s s' hs => hs.unexpected (.named "literal")) s s' hs

/-- A name is its text. -/
lemma agree_name : L.Agree tighter L.Trees 0 name name := by
  refine agree_current fun s s' hs => ?_
  rw [← hs.kind_eq]
  by_cases hk : s.current.kind = .name
  · simp only [if_pos hk]
    exact agree_text hs (by simp [hk]) fun text sp sp' hspans => agree_pure (trees_name _ hspans)
  · simp only [if_neg hk]
    exact agree_fail (fun s s' hs => hs.unexpected (.named "identifier")) s s' hs

/-- An expression in parentheses. -/
lemma Scopes.group (h : L.Scopes tighter scope scope') :
    L.Agree tighter L.Trees 0 (group scope) (group scope') :=
  ((h.bracketed (by decide) (by decide) fun _ _ he => he).of_le (Nat.zero_le 1)).bind_pure
    fun _ _ hinner => hinner.1.group hinner.2

/-- A row is a list of expressions. -/
lemma agree_arrayRow {e e' : Rule Expr} (he : L.Agree tighter L.Trees 0 e e') :
    L.Agree tighter (List.Forall₂ L.Trees) 0 (arrayRow e) (arrayRow e') :=
  (agree_visit _).bind fun _ _ _ => he.separatedList _ _ _

/-- An array is a list of rows. -/
lemma Scopes.array (h : L.Scopes tighter scope scope') :
    L.Agree tighter L.Trees 0 (array scope) (array scope') := by
  refine (agree_visit _).bind fun _ _ _ => Agree.bind_pure (Agree.of_le (h.bracketed (by decide)
    (by decide) fun _ _ he => (agree_arrayRow he).separatedList _ _ _) (Nat.zero_le 1)) ?_
  exact fun _ _ hrows => trees_array hrows.1 hrows.2

/-- An operand: the choice comes to the same alternative on both sides. -/
lemma Scopes.operand (h : L.Scopes tighter scope scope') :
    L.Agree tighter L.Trees 0 (operand scope) (operand scope') :=
  (agree_visit _).bind fun _ _ _ => Agree.called _ (agree_choice ⟨rfl, agree_literal⟩
    (.cons ⟨rfl, agree_name⟩ (.cons ⟨rfl, h.group⟩ (.cons ⟨rfl, h.array⟩ .nil))))

/-! ### Suffixes -/

/-- The arguments of a call. -/
lemma Scopes.callSuffix (h : L.Scopes tighter scope scope') :
    L.Agree tighter (fun x x' => List.Forall₂ L.Trees x.1 x'.1 ∧ L.Spans x.2 x'.2) 0
      (callSuffix scope) (callSuffix scope') :=
  (agree_visit _).bind fun _ _ _ => Agree.of_le (h.bracketed (by decide) (by decide)
    fun _ _ he => he.separatedList _ _ _) (Nat.zero_le 1)

/-- The subscripts of an index. -/
lemma Scopes.indexSuffix (h : L.Scopes tighter scope scope') :
    L.Agree tighter L.Trees 0 (indexSuffix scope) (indexSuffix scope') := by
  refine (agree_visit _).bind fun _ _ _ => Agree.bind_pure (Agree.of_le (h.bracketed (by decide)
    (by decide) fun _ _ he => he.separatedList _ _ _) (Nat.zero_le 1)) ?_
  exact fun _ _ hargs => trees_index hargs.1 hargs.2

/-- The name of a field. -/
lemma agree_fieldSuffix : L.Agree tighter L.Trees 0 fieldSuffix fieldSuffix := by
  have hfield : L.Agree tighter L.Same 1
      (do
        let _ ← token .dot none none
        token .name (some "field name after '.'") none)
      (do
        let _ ← token .dot none none
        token .name (some "field name after '.'") none) :=
    (agree_token (by decide) none .none).bind fun _ _ _ =>
      (agree_token (by decide) _ .none).of_le (Nat.zero_le 1)
  refine (hfield.spanned.of_le (Nat.zero_le 1)).bind_pure fun x x' hx => ?_
  rw [← hx.1.alike.text]
  exact trees_field _ hx.2

/-- A suffix is decided by the kind of one token. -/
lemma Scopes.suffix? (h : L.Scopes tighter scope scope') :
    L.Agree tighter (Option.Rel L.Suffixes) 0 (suffix? scope) (suffix? scope') := by
  refine agree_current fun s s' hs => ?_
  rw [← hs.kind_eq]
  cases s.current.kind with
  | openParen => exact (h.callSuffix.bind_pure fun _ _ hx => .some (.call hx.1 hx.2)) s s' hs
  | openBracket => exact (h.indexSuffix.bind_pure fun _ _ hx => .some (.step hx)) s s' hs
  | dot => exact (agree_fieldSuffix.bind_pure fun _ _ hx => .some (.step hx)) s s' hs
  | _ => exact agree_pure .none s s' hs

/-- An operand with its suffixes. -/
lemma Scopes.suffixed (h : L.Scopes tighter scope scope') :
    L.Agree tighter L.Trees 0 (suffixed scope) (suffixed scope') :=
  (agree_visit _).bind fun _ _ _ => h.operand.bind fun _ _ hbase =>
    h.suffix?.many.bind_pure fun _ _ hsuffixes => hbase.attach hsuffixes .nil

/-! ### Operators -/

/-- An operator with its right side is decided by the kind of one token. -/
lemma agree_link? {ω : Type} (op? : Kind → Option ω) {r r' : Rule Expr}
    (hr : L.Agree tighter L.Trees 0 r r') :
    L.Agree tighter (Option.Rel L.Links) 0 (link? op? r) (link? op? r') := by
  refine agree_current fun s s' hs => ?_
  rw [← hs.kind_eq]
  cases op? s.current.kind with
  | none => exact agree_pure .none s s' hs
  | some op =>
      exact (agree_advance.bind fun _ _ _ => hr.bind_pure fun _ _ he => .some ⟨rfl, he⟩) s s' hs

/-- Operands with operators between them. -/
lemma agree_chain {ω : Type} (name : String) (op? : Kind → Option ω) {r r' : Rule Expr}
    (hr : L.Agree tighter L.Trees 0 r r') {k : Expr → List (ω × Expr) → Expr}
    (hk : ∀ {e e' ls ls'}, L.Trees e e' → List.Forall₂ L.Links ls ls' →
      L.Trees (k e ls) (k e' ls')) :
    L.Agree tighter L.Trees 0
      (do
        visit name
        let first ← r
        let links ← many (link? op? r)
        return k first links)
      (do
        visit name
        let first ← r'
        let links ← many (link? op? r')
        return k first links) :=
  (agree_visit _).bind fun _ _ _ => hr.bind fun _ _ hfirst =>
    (agree_link? op? hr).many.bind_pure fun _ _ hlinks => hk hfirst hlinks

/-- A minus sign is kept with the place where it starts. -/
lemma agree_sign? : L.Agree tighter (Option.Rel L.Starts) 0 sign? sign? := by
  refine agree_current fun s s' hs => ?_
  rw [← hs.kind_eq]
  split_ifs
  · exact (agree_stream.bind fun _ _ hsign =>
      agree_advance.bind_pure fun _ _ _ => .some hsign.offsets) s s' hs
  · exact agree_pure .none s s' hs

/-- An operand under minus signs. -/
lemma Scopes.signed (h : L.Scopes tighter scope scope') :
    L.Agree tighter L.Trees 0 (signed scope) (signed scope') :=
  (agree_visit _).bind fun _ _ _ => agree_sign?.many.bind fun _ _ hsigns =>
    h.suffixed.bind_pure fun _ _ he => he.negateAll hsigns

/-- The levels of operators between operands. -/
lemma Scopes.comparison (h : L.Scopes tighter scope scope') :
    L.Agree tighter L.Trees 0 (comparison scope) (comparison scope') := by
  have hproduct : L.Agree tighter L.Trees 0 (product scope) (product scope') :=
    agree_chain _ _ h.signed fun he hls => he.arithAll hls
  have hsum : L.Agree tighter L.Trees 0 (sum scope) (sum scope') :=
    agree_chain _ _ hproduct fun he hls => he.arithAll hls
  exact agree_chain _ _ hsum fun he hls => he.compareWith hls

/-! ### Assignments -/

/-- One side of an assignment in both layouts. -/
def Sides (L : Layouts) (side side' : Token × Expr) : Prop :=
  L.Same side.1 side'.1 ∧ L.Trees side.2 side'.2

/-- A side of an assignment with the token behind it. -/
lemma Scopes.side (h : L.Scopes tighter scope scope') :
    L.Agree tighter L.Sides 0 (side scope) (side scope') :=
  agree_current fun s s' hs =>
    (h.comparison.bind_pure fun _ _ he => ⟨hs.current, he⟩) s s' hs

/-- A side behind a `=`: matched trees are targets or not alike. -/
lemma Scopes.furtherSide (h : L.Scopes tighter scope scope') {before before' : Token × Expr}
    (hbefore : L.Sides before before') :
    L.Agree tighter (StepRel L.Trees L.Sides) 0 (furtherSide scope before)
      (furtherSide scope' before') := by
  refine agree_current fun s s' hs => ?_
  rw [← hs.kind_eq, ← hbefore.2.isAssignable_eq]
  split_ifs
  · exact (agree_advance.bind fun _ _ _ => h.side.bind_pure fun _ _ hnext =>
      .some ⟨hnext.2, hnext⟩) s s' hs
  · exact .failure ⟨rfl, hbefore.2.spans.start, .named _, .some hbefore.1, rfl⟩
  · exact agree_pure .none s s' hs

/-- The sides of an assignment, joined from the right. -/
lemma Scopes.assignment (h : L.Scopes tighter scope scope') :
    L.Agree tighter L.Trees 0 (assignment scope) (assignment scope') :=
  (agree_visit _).bind fun _ _ _ => h.side.bind fun _ _ hfirst =>
    (agree_collect (fun _ _ hbefore => h.furtherSide hbefore) hfirst).bind_pure
      fun _ _ hothers => hfirst.2.assignAll hothers

/-- **The rules for expressions under two limits agree**, in two layouts of the
same tokens: equal limits in all that does not name places, and a tighter limit
up to where it cuts off. -/
theorem agree_expr (L : Layouts) {limit limit' : ℤ} {n n' : ℕ} (hn : n ≤ n')
    (heq : limit < limit' ∨ limit = limit' ∧ n = n') :
    L.Agree (limit < limit') L.Trees 0 (expr limit n) (expr limit' n') := by
  -- On the brackets that the tighter limit leaves; the looser one leaves at least as many.
  induction n generalizing n' with
  | zero =>
      rw [expr_eq limit' n', Parser.expr]
      refine Scopes.assignment ?_
      rcases heq with hlt | ⟨rfl, rfl⟩
      · exact .cut limit _ hlt
      · exact .closed limit
  | succ n ih =>
      obtain ⟨n', rfl⟩ := Nat.exists_eq_add_of_le' (Nat.zero_lt_of_lt hn)
      exact Scopes.assignment (.opened limit limit' (ih (by omega) (by omega)))

/-- Under one limit the rule for expressions agrees with itself. -/
lemma agree_expr_self (L : Layouts) (limit : ℤ) (n : ℕ) :
    L.Agree (limit < limit) L.Trees 0 (expr limit n) (expr limit n) :=
  agree_expr L (Nat.le_refl n) (.inr ⟨rfl, rfl⟩)

/-- What the rule for expressions gives in one layout it gives in the other. -/
theorem gives_expr (L : Layouts) {limit : ℤ} {n : ℕ} {e : Expr} {rest : TokenStream}
    (h : (expr limit n).Gives (.ofTokens L.first) e rest) :
    ∃ e' rest', (expr limit n).Gives (.ofTokens L.second) e' rest' ∧ L.Trees e e' ∧
      L.Streams rest rest' := by
  have hruns := agree_expr_self L limit n _ _ streams_ofTokens
  rw [Gives] at h
  simp only [Gives]
  generalize expr limit n (.ofTokens L.first) = run at h hruns
  generalize expr limit n (.ofTokens L.second) = run' at hruns
  cases hruns with
  | success value streams moved =>
      obtain ⟨rfl, rfl⟩ := Outcome.success.inj h
      exact ⟨_, _, rfl, value, streams⟩
  | failure failures => cases h
  | overlong n visits => cases h
  | cut hlt deep => exact absurd hlt (lt_irrefl limit)

end Layouts

end ArrayExpr
