/-
Activations of the rule for expressions inside each other.

* `Parser.marked`: the rule for expressions, with marks where each of its activations
  begins and ends;
* `marks_bracketed`: what stands inside a bracket begins behind the opening token;
* `marks_operand`, `marks_suffixed` and those after them: one lemma for each rule of
  the grammar;
* `marks_expr`: the marked rule for expressions does what the plain one does, and its
  activations are nested, one more deep than there is room for brackets.
-/
import ArrayExpr.Proofs.Rule.Activations
import ArrayExpr.Parser.Expression

namespace ArrayExpr

/-- The rule for expressions, with marks where each of its activations begins and
ends, those inside brackets included. -/
def Parser.marked (limit : ℤ) : (room : ℕ) → Rule Expr
  | 0 => (assignment ⟨limit, none⟩).marked
  | room + 1 => (assignment ⟨limit, some (marked limit room)⟩).marked

/-- The rule inside the brackets of a scope marks its activations, that of the plain
scope does not. -/
inductive Scope.Marks : (scope plain : Scope) → (deep : ℕ) → Prop
  | full (limit : ℤ) (deep : ℕ) : Scope.Marks ⟨limit, none⟩ ⟨limit, none⟩ deep
  | room {e e' : Rule Expr} {deep : ℕ} (limit : ℤ) (h : e.Marks e' deep 0) :
      Scope.Marks ⟨limit, some e⟩ ⟨limit, some e'⟩ deep

namespace Parser

open Rule

variable {α ω : Type} {scope plain : Scope} {deep : ℕ}

/-! ### Brackets -/

/-- A rule in brackets is marked if it is for every expression that the scope may hand down. -/
lemma marks_descend {k k' : Rule Expr → Rule α} {skip : ℕ} (hs : scope.Marks plain deep)
    (hk : ∀ e e', e.Marks e' deep 0 → (k e).Marks (k' e') deep skip) :
    (scope.descend >>= k).Marks (plain.descend >>= k') deep skip := by
  cases hs with
  | full limit => exact marks_fail _
  | room limit h =>
      rw [Scope.descend, Scope.descend, pure_bind, pure_bind]
      exact hk _ _ h

/-- What stands inside a bracket begins behind the opening token. -/
lemma marks_bracketed (hs : scope.Marks plain deep) {opening : Kind} (ho : opening ≠ .finish)
    (closing : Kind) {inside inside' : Rule Expr → Rule α}
    (h : ∀ e e', e.Marks e' deep 0 → (inside e).Marks (inside' e') deep 0) :
    (scope.bracketed opening closing inside).Marks (plain.bracketed opening closing inside')
      deep 1 := by
  have hinside : ∀ (opener : Token) (e e' : Rule Expr), e.Marks e' deep 0 →
      (inside e >>= fun a => token closing none (some opener) >>= fun _ => pure a).Marks
        (inside' e' >>= fun a => token closing none (some opener) >>= fun _ => pure a) deep 0 :=
    fun opener e e' he => (h e e' he).bind fun _ => (marks_token _ _ _).bind fun _ => marks_pure _
  exact (Marks.behind_token ho none none fun opener =>
    marks_descend hs (hinside opener)).spanned

/-! ### Operands -/

/-- The text of a token has no activation in it. -/
lemma marks_text {skip : ℕ} : (spanned (do
      let token ← current
      advance
      return token.text.getD "")).Marks (spanned (do
      let token ← current
      advance
      return token.text.getD "")) deep skip :=
  (marks_current.bind fun _ => marks_advance.bind fun _ => marks_pure _).spanned

/-- A literal activates nothing that has a mark. -/
lemma marks_literal {skip : ℕ} : literal.Marks literal deep skip := by
  refine marks_current.bind fun t => ?_
  split
  · refine marks_text.bind fun x => ?_
    dsimp only
    split
    · exact marks_overlong _
    · exact marks_pure _
  · exact marks_fail _

/-- Nor does a name. -/
lemma marks_name {skip : ℕ} : name.Marks name deep skip := by
  refine marks_current.bind fun t => ?_
  split_ifs
  · exact marks_text.bind fun _ => marks_pure _
  · exact marks_fail _

/-- The expression in parentheses is activated behind the parenthesis. -/
lemma marks_group (hs : scope.Marks plain deep) : (group scope).Marks (group plain) deep 1 :=
  (marks_bracketed hs (by decide) _ fun _ _ he => he).bind fun _ => marks_pure _

/-- The expressions of an array are activated behind its bracket. -/
lemma marks_array (hs : scope.Marks plain deep) : (array scope).Marks (array plain) deep 1 := by
  have hrow : ∀ e e', e.Marks e' deep 0 → (arrayRow e).Marks (arrayRow e') deep 0 := fun e e' he =>
    (marks_visit (by decide)).bind fun _ => he.separatedList (by decide) _ _
  have hrows : ∀ e e', e.Marks e' deep 0 →
      (separatedList "array_rows" ⟨true, true⟩ .semicolon (arrayRow e)).Marks
        (separatedList "array_rows" ⟨true, true⟩ .semicolon (arrayRow e')) deep 0 :=
    fun e e' he => (hrow e e' he).separatedList (by decide) _ _
  exact (marks_visit (by decide)).bind fun _ =>
    (marks_bracketed hs (by decide) _ hrows).bind fun _ => marks_pure _

/-- An operand activates expressions in its last two alternatives only. -/
lemma marks_operand (hs : scope.Marks plain deep) :
    (operand scope).Marks (operand plain) deep 1 := by
  have hchoice : (operandChoice scope).Marks (operandChoice plain) deep 1 :=
    marks_choice ⟨rfl, marks_literal⟩ (.cons ⟨rfl, marks_name⟩ (.cons ⟨rfl, marks_group hs⟩
      (.cons ⟨rfl, marks_array hs⟩ .nil)))
  exact (marks_visit (by decide)).bind fun _ => hchoice.called _

/-! ### Suffixes -/

/-- A list in brackets: its items are activated behind the opening one. -/
lemma marks_listed (hs : scope.Marks plain deep) {opening : Kind} (ho : opening ≠ .finish)
    (closing : Kind) {name : String} (hname : name ∉ Visit.markNames) (style : ListStyle) :
    (scope.bracketed opening closing fun e => separatedList name style .comma e).Marks
      (plain.bracketed opening closing fun e => separatedList name style .comma e) deep 1 :=
  marks_bracketed hs ho closing fun _ _ he => he.separatedList hname style _

/-- The arguments of a call. -/
lemma marks_callSuffix (hs : scope.Marks plain deep) :
    (callSuffix scope).Marks (callSuffix plain) deep 1 :=
  (marks_visit (by decide)).bind fun _ => marks_listed hs (by decide) _ (by decide) _

/-- The subscripts of an index. -/
lemma marks_indexSuffix (hs : scope.Marks plain deep) :
    (indexSuffix scope).Marks (indexSuffix plain) deep 1 :=
  (marks_visit (by decide)).bind fun _ =>
    (marks_listed hs (by decide) _ (by decide) _).bind fun _ => marks_pure _

/-- A field activates nothing that has a mark. -/
lemma marks_fieldSuffix {skip : ℕ} : fieldSuffix.Marks fieldSuffix deep skip :=
  ((marks_token _ _ _).bind fun _ => marks_token _ _ _).spanned.bind fun _ => marks_pure _

/-- A suffix, by the token that it starts with. -/
lemma marks_suffix? (hs : scope.Marks plain deep) :
    (suffix? scope).Marks (suffix? plain) deep 1 := by
  refine marks_current.bind fun t => ?_
  split
  · exact (marks_callSuffix hs).bind fun _ => marks_pure _
  · exact (marks_indexSuffix hs).bind fun _ => marks_pure _
  · exact marks_fieldSuffix.bind fun _ => marks_pure _
  · exact marks_pure _

/-- An operand with its suffixes. -/
lemma marks_suffixed (hs : scope.Marks plain deep) :
    (suffixed scope).Marks (suffixed plain) deep 1 :=
  (marks_visit (by decide)).bind fun _ => (marks_operand hs).bind fun _ =>
    (marks_suffix? hs).many.bind fun _ => marks_pure _

/-! ### Operators -/

/-- An operator with the operand behind it. -/
lemma marks_link? (op? : Kind → Option ω) {r r' : Rule Expr} {skip : ℕ} (h : r.Marks r' deep skip) :
    (link? op? r).Marks (link? op? r') deep skip := by
  refine marks_current.bind fun t => ?_
  split
  · exact marks_pure _
  · exact marks_advance.bind fun _ => h.bind fun _ => marks_pure _

/-- Operands with operators between them. -/
lemma marks_chain {name : String} (hname : name ∉ Visit.markNames) (op? : Kind → Option ω)
    {r r' : Rule Expr} {skip : ℕ} (h : r.Marks r' deep skip) (k : Expr → List (ω × Expr) → Expr) :
    Rule.Marks (do
      visit name
      let first ← r
      let links ← many (link? op? r)
      return k first links) (do
      visit name
      let first ← r'
      let links ← many (link? op? r')
      return k first links) deep skip :=
  (marks_visit hname).bind fun _ => h.bind fun _ =>
    (marks_link? op? h).many.bind fun _ => marks_pure _

/-- A minus sign activates nothing. -/
lemma marks_sign? {skip : ℕ} : sign?.Marks sign? deep skip := by
  refine marks_current.bind fun t => ?_
  split_ifs
  · exact marks_stream.bind fun _ => marks_advance.bind fun _ => marks_pure _
  · exact marks_pure _

/-- An operand under minus signs. -/
lemma marks_signed (hs : scope.Marks plain deep) : (signed scope).Marks (signed plain) deep 1 :=
  (marks_visit (by decide)).bind fun _ => marks_sign?.many.bind fun _ =>
    (marks_suffixed hs).bind fun _ => marks_pure _

/-- The levels of operators down to the operands. -/
lemma marks_comparison (hs : scope.Marks plain deep) :
    (comparison scope).Marks (comparison plain) deep 1 :=
  marks_chain (by decide) _ (marks_chain (by decide) _ (marks_chain (by decide) _
    (marks_signed hs) _) _) _

/-- The sides of an assignment. -/
lemma marks_assignment (hs : scope.Marks plain deep) :
    (assignment scope).Marks (assignment plain) deep 1 := by
  have hside : (side scope).Marks (side plain) deep 1 :=
    marks_current.bind fun _ => (marks_comparison hs).bind fun _ => marks_pure _
  have hfurther : ∀ before, (furtherSide scope before).Marks (furtherSide plain before) deep 1 :=
    fun before => marks_current.bind fun t => by
      split_ifs
      · exact marks_advance.bind fun _ => hside.bind fun _ => marks_pure _
      · exact marks_fail _
      · exact marks_pure _
  exact (marks_visit (by decide)).bind fun _ => hside.bind fun _ =>
    (marks_collect hfurther _).bind fun _ => marks_pure _

/-- **The marks change nothing else, and are nested**, one more deep than there is room
for brackets. -/
theorem marks_expr (limit : ℤ) (n : ℕ) : (marked limit n).Marks (expr limit n) (n + 1) 0 := by
  induction n with
  | zero => exact (marks_assignment (.full limit 0)).marked
  | succ n ih => exact (marks_assignment (.room limit ih)).marked

end Parser

end ArrayExpr
