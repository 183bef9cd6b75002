/-
The parser comes to an end, and how deep it recurses on the way.

* `Parser.LoopStep`: the repetitions of the grammar, by the step that they repeat;
* `Parser.upTo`: the rule for expressions on a bound on its levels, with a rule that
  stands in for the levels beyond it;
* `Parser.Terminates`, `parser_terminates`: **the parser comes to an end**, with no more
  activations inside each other than the limit allows, however long the input.
-/
import ArrayExpr.Proofs.Parser.Activations
import ArrayExpr.Proofs.Parser.Overlong
import ArrayExpr.Proofs.Rule.Loop

namespace ArrayExpr

namespace Parser

open Rule

variable {limit : ℤ} {n : ℕ}

/-- The repetitions of the grammar in a scope, each by the step that it repeats. -/
inductive LoopStep (scope : Scope) : {β σ : Type} → (σ → Rule (Option (β × σ))) → Prop
  /-- minus signs before an operand -/
  | signs : LoopStep scope (stateless sign?)
  /-- suffixes after an operand -/
  | suffixes : LoopStep scope (stateless (suffix? scope))
  | factors : LoopStep scope (stateless (link? Kind.productOp? (signed scope)))
  | terms : LoopStep scope (stateless (link? Kind.sumOp? (product scope)))
  | comparands : LoopStep scope (stateless (link? Kind.compareOp? (sum scope)))
  /-- the sides of an assignment -/
  | sides : LoopStep scope (furtherSide scope)
  /-- arguments, subscripts and the items of a row -/
  | items {expr : Rule Expr} (h : scope.inner = some expr) (empty : Bool) :
      LoopStep scope (stateless (furtherItem ⟨true, empty⟩ .comma expr))
  /-- the rows of an array -/
  | rows {expr : Rule Expr} (h : scope.inner = some expr) :
      LoopStep scope (stateless (furtherItem ⟨true, true⟩ .semicolon (arrayRow expr)))

/-- Every repetition of the grammar reads where it goes on. -/
lemma LoopStep.reading {β σ : Type} {step : σ → Rule (Option (β × σ))}
    (h : LoopStep (.ofRoom limit n) step) : Reading step := by
  have hi := inner_ofRoom limit n
  cases h with
  | signs => exact reads_signs.reading.reading
  | suffixes => exact (reads_suffixes hi).reading.reading
  | factors => exact (reads_links (reads_signed hi) rfl stops_of_productOp).reading.reading
  | terms => exact (reads_links (reads_product hi) rfl stops_of_sumOp).reading.reading
  | comparands => exact (reads_links (reads_sum hi) rfl stops_of_compareOp).reading.reading
  | sides => exact reading_furtherSide hi
  | items h empty =>
      obtain ⟨m, rfl, rfl⟩ := ofRoom_inner.mp h
      refine (reading_furtherItem (by simp) fun hs h => ?_).reading
      obtain ⟨w, hw, -⟩ := (reads_expr limit m).sound hs h
      exact ⟨w, hw⟩
  | rows h =>
      obtain ⟨m, rfl, rfl⟩ := ofRoom_inner.mp h
      refine (reading_furtherItem (by simp) fun hs h => ?_).reading
      obtain ⟨w, hw, -⟩ := (reads_items hi).visited.sound hs h
      exact ⟨w, hw⟩

/-! ### Levels on a bound -/

/-- The rule for expressions inside `depth` brackets, on fewer than `fuel` levels; `stuck`
stands in for the others. Only the limit decides whether a bracket may be opened. -/
def upTo (stuck : Rule Expr) (limit : ℤ) : (fuel : ℕ) → (depth : ℤ) → Rule Expr
  | 0, _ => stuck
  | fuel + 1, depth =>
    assignment ⟨limit, if depth < limit then some (upTo stuck limit fuel (depth + 1)) else none⟩

/-- **The rule for expressions is not stuck** if there are more levels than there is
room for brackets. -/
lemma upTo_eq (stuck : Rule Expr) (limit : ℤ) {fuel : ℕ} (depth : ℤ)
    (hfuel : (limit - depth).toNat < fuel) :
    upTo stuck limit fuel depth = expr limit (limit - depth).toNat := by
  induction fuel generalizing depth with
  | zero => omega
  | succ fuel ih =>
      rw [upTo]
      by_cases hdepth : depth < limit
      · have hroom : (limit - depth).toNat = (limit - (depth + 1)).toNat + 1 := by omega
        rw [if_pos hdepth, ih (depth + 1) (by omega), hroom, expr]
      · have hroom : (limit - depth).toNat = 0 := by omega
        rw [if_neg hdepth, hroom, expr]

/-! ### The whole parse -/

/-- The parser comes to an end over some tokens. -/
structure Terminates (limit : ℤ) (tokens : Tokens) : Prop where
  /-- There is a tree, a failure, or an integer of too many digits. -/
  ends : (∃ tree rest, (root limit).Gives (.ofTokens tokens) tree rest) ∨
    (∃ g, (root limit).Refuses (.ofTokens tokens) g) ∨
    ∃ n, (root limit).Overruns (.ofTokens tokens) n ∧
      ∃ t ∈ tokens.items, t.IsLongInteger ∧ (t.text.getD "").length = n
  /-- The marked parser does what the parser does, -/
  outcome : (marked limit limit.toNat (.ofTokens tokens)).outcome =
    (root limit (.ofTokens tokens)).outcome
  /-- and its log differs in the marks only. -/
  erased : (marked limit limit.toNat (.ofTokens tokens)).visits.filter (!·.isMark) =
    (root limit (.ofTokens tokens)).visits
  /-- At each moment every open activation begins behind the first token of the one around
  it, and the limit bounds how many are open. -/
  nested : ∀ log, log <+: (marked limit limit.toNat (.ofTokens tokens)).visits →
    (openAfter log).Pairwise (· > ·) ∧ ((openAfter log).length : ℤ) ≤ max limit 0 + 1
  /-- In the end none is open. -/
  closed : openAfter (marked limit limit.toNat (.ofTokens tokens)).visits = []
  /-- One level more than the limit is never met, -/
  levels : ∀ (stuck : Rule Expr) (fuel : ℕ), max limit 0 + 1 ≤ fuel →
    upTo stuck limit fuel 0 = root limit
  /-- and all repetitions run down, wherever they begin. -/
  loops : ∀ {w s}, (TokenStream.ofTokens tokens).Passes w s → ∀ {room : ℕ} {β σ : Type}
    {step : σ → Rule (Option (β × σ))}, LoopStep (.ofRoom limit room) step → RunsDown step s

end Parser

/-- **The parser comes to an end**, and its recursion is bounded by the limit. -/
theorem parser_terminates {source : String} {tokens : Tokens} (ht : tokenize source = .ok tokens)
    (limit : ℤ) : Parser.Terminates limit tokens := by
  have hs := tokenize_ordered ht
  have hmarks := Parser.marks_expr limit limit.toNat _ hs
  refine ⟨?ends, hmarks.outcome, hmarks.erased, fun log hlog => ?nested, hmarks.nested.closed [],
    fun stuck fuel hfuel => ?levels, fun hp _ _ _ _ hloop => hloop.reading.runsDown (hs.passes hp)⟩
  case ends =>
    rcases Rule.ends (Parser.root limit) (.ofTokens tokens) with h | h | ⟨n, h⟩
    · exact .inl h
    · exact .inr (.inl h)
    · obtain ⟨i, t, hlong, hdigits⟩ := (Parser.overruns_root_iff hs).mp h
      exact .inr (.inr ⟨n, h, t, List.mem_of_getElem? hlong.token, hlong.long, hdigits⟩)
  case nested =>
    obtain ⟨opened, hopen, hlen, hpair, -⟩ := hmarks.nested.open_prefix hlog []
    rw [List.append_nil] at hopen
    rw [openAfter, hopen]
    exact ⟨hpair, by omega⟩
  case levels =>
    rw [Parser.upTo_eq stuck limit 0 (by omega), Int.sub_zero]
    rfl

/-- The theorem at the source `f((x))`, under the limit one, where the second bracket is
one too many. -/
theorem parser_terminates_full :
    ∃ tokens, tokenize "f((x))" = .ok tokens ∧ Parser.Terminates 1 tokens := by
  have h : tokenize "f((x))" = .ok ⟨[⟨.name, some "f", ⟨0, 1, 1⟩, 1⟩,
      ⟨.openParen, some "(", ⟨1, 1, 2⟩, 2⟩, ⟨.openParen, some "(", ⟨2, 1, 3⟩, 3⟩,
      ⟨.name, some "x", ⟨3, 1, 4⟩, 4⟩, ⟨.closeParen, some ")", ⟨4, 1, 5⟩, 5⟩,
      ⟨.closeParen, some ")", ⟨5, 1, 6⟩, 6⟩], ⟨.finish, none, ⟨6, 1, 7⟩, 6⟩⟩ := rfl
  exact ⟨_, h, parser_terminates h 1⟩

end ArrayExpr
