/-
How the parser handles streams, operators and failures.

* `TokenStream.Over`: a stream over the tokens of a source;
* `Parser.namedLink`, `namedLink_eq`: an operator may be looked up by the name of its
  token, and is always found;
* `Rule.tryInTurn`, `tryInTurn_eq`: a choice may be made with the best failure so far at
  hand, and never ends without one;
* `Parser.Part`: the rules and lists of the grammar, with the tokens that start them;
* `Parser.Disciplined`, `parser_disciplined`: **streams stay over the tokens and go
  forward**, and a failure tells how far its rule came.
-/
import ArrayExpr.Proofs.Parser.Progress
import ArrayExpr.Proofs.Parser.Linear

namespace ArrayExpr

/-! ### Streams over tokens -/

namespace TokenStream

variable {tokens : Tokens} {s s' : TokenStream} {w : List Token}

/-- A stream over some tokens: it stands in front of one of them, and those from there on
are ahead. -/
structure Over (s : TokenStream) (tokens : Tokens) : Prop where
  inside : s.index < tokens.toList.length
  ahead : s.ahead = tokens.items.drop s.index
  finish : s.finish = tokens.finish

lemma over_ofTokens (tokens : Tokens) : (ofTokens tokens).Over tokens :=
  ⟨by simp [ofTokens, Tokens.toList], rfl, rfl⟩

/-- Passing tokens keeps a stream over the same tokens. -/
lemma Over.passes (h : s.Over tokens) (hp : s.Passes w s') : s'.Over tokens := by
  have hindex := hp.index_eq
  have hahead : tokens.items.drop s.index = w ++ s'.ahead := h.ahead.symm.trans hp.ahead_eq
  have hlen := congrArg List.length hahead
  have hinside := h.inside
  rw [Tokens.toList, List.length_append, List.length_singleton] at hinside
  rw [List.length_drop, List.length_append] at hlen
  refine ⟨?_, ?_, hp.finish_eq.trans h.finish⟩
  · rw [Tokens.toList, List.length_append, List.length_singleton]
    omega
  · rw [hindex, ← List.drop_drop, hahead, List.drop_left]

/-- Over the tokens of a source a stream is ordered. -/
lemma Over.ordered (h : s.Over tokens) (ht : (ofTokens tokens).Ordered) : s.Ordered where
  increasing := by
    have hle : s.index ≤ tokens.items.length := by
      have := h.inside
      rw [Tokens.toList, List.length_append, List.length_singleton] at this
      omega
    rw [h.ahead, h.finish, ← List.drop_append_of_le_length hle]
    exact ht.increasing.drop
  finish_kind := by rw [h.finish, ← ht.finish_kind]; rfl

end TokenStream

/-! ### Operators by name -/

/-- All arithmetic operators. -/
def ArithOp.all : List ArithOp := [.plus, .minus, .times, .divide]

/-- All comparison operators. -/
def CompareOp.all : List CompareOp :=
  [.equal, .notEqual, .less, .lessEqual, .greater, .greaterEqual]

/-- The arithmetic operator with a name, if there is one. -/
def ArithOp.named? (name : String) : Option ArithOp := all.find? (·.label = name)

/-- The comparison operator with a name, if there is one. -/
def CompareOp.named? (name : String) : Option CompareOp := all.find? (·.label = name)

namespace Parser

open Rule

variable {ω : Type}

/-- Where one of the tokens `kinds` is ahead, the operator that has the name of that
token, and the operand after it; `stuck` stands in where no operator has that name. -/
def namedLink (kinds : List Kind) (named? : String → Option ω)
    (stuck : Rule (Option (ω × Expr))) (operand : Rule Expr) : Rule (Option (ω × Expr)) := do
  if (← stream).check kinds then
    match named? (← current).kind.label with
    | some op =>
      advance
      return some (op, ← operand)
    | none => stuck
  else
    return none

/-- **No operator is looked up in vain**, if each of the tokens has its name. -/
lemma namedLink_eq {kinds : List Kind} {named? : String → Option ω} {op? : Kind → Option ω}
    (hin : ∀ kind ∈ kinds, ∃ op, op? kind = some op ∧ named? kind.label = some op)
    (hout : ∀ kind ∉ kinds, op? kind = none) (stuck : Rule (Option (ω × Expr)))
    (operand : Rule Expr) : namedLink kinds named? stuck operand = link? op? operand := by
  funext s
  rw [namedLink, link?, bind_stream_run, bind_current_run]
  by_cases hk : s.current.kind ∈ kinds
  · obtain ⟨op, hop, hnamed⟩ := hin _ hk
    rw [if_pos (by simpa [TokenStream.check] using hk), bind_current_run, hnamed, hop]
  · rw [if_neg (by simpa [TokenStream.check] using hk), hout _ hk]

end Parser

namespace Rule

variable {α : Type}

/-- Tries alternatives in turn, with the best failure so far at hand; where none is left
that failure is the outcome, if there is one. -/
def tryInTurn (best : Option Failure) :
    List (String × Rule α) → TokenStream → Option (Outcome α) × List Visit
  | [], _ => (best.map .failure, [])
  | (name, r) :: others, s =>
    match alternative name r s with
    | ⟨.failure f, visits⟩ =>
      if f.isRecoverable then
        let best := match best with
          | some best => best.furthest f
          | none => f
        let (outcome, more) := tryInTurn (some best) others s
        (outcome, visits ++ more)
      else (some (.failure f), visits)
    | ⟨outcome, visits⟩ => (some outcome, visits)

/-- Of three failures the furthest may be kept in any order. -/
lemma keepFurthest_keepFurthest (best : Failure) {f : Failure} (hf : f.isRecoverable = true)
    (run : Run α) :
    keepFurthest best (keepFurthest f run) = keepFurthest (best.furthest f) run := by
  obtain ⟨⟨a, rest⟩ | e | n, visits⟩ := run
  · rfl
  · simp only [keepFurthest, Failure.furthest]
    split_ifs <;> simp_all <;> omega
  · rfl

/-- With a failure at hand the others are tried in its place. -/
lemma tryInTurn_some (best : Failure) (next : String × Rule α) (others : List (String × Rule α))
    (s : TokenStream) : tryInTurn (some best) (next :: others) s =
      (some (keepFurthest best (choice next others s)).outcome,
        (choice next others s).visits) := by
  induction others generalizing best next with
  | nil =>
      rw [choice_nil, tryInTurn]
      rcases alternative next.1 next.2 s with ⟨⟨a, rest⟩ | f | n, visits⟩
      · rfl
      · simp only [keepFurthest]
        split_ifs <;> simp [tryInTurn]
      · rfl
  | cons third others ih =>
      rw [tryInTurn]
      rcases hrun : alternative next.1 next.2 s with ⟨⟨a, rest⟩ | f | n, visits⟩
      · simp only [choice, hrun, keepFurthest]
      · cases hf : f.isRecoverable with
        | true =>
            rw [choice_of_refused hrun hf]
            simp only [if_pos hf, ih, ← keepFurthest_keepFurthest best hf, Run.afterVisits,
              Run.joinVisits_eq]
            rcases choice third others s with ⟨_ | _ | _, _⟩ <;> rfl
        | false =>
            simp [choice, hrun, hf, keepFurthest]
      · simp only [choice, hrun, keepFurthest]

/-- **A choice never ends without an outcome**, and with the best failure so far at hand it
is the choice between the alternatives. -/
theorem tryInTurn_eq (first : String × Rule α) (others : List (String × Rule α))
    (s : TokenStream) : tryInTurn none (first :: others) s =
      (some (choice first others s).outcome, (choice first others s).visits) := by
  cases others with
  | nil =>
      rw [choice_nil, tryInTurn]
      rcases alternative first.1 first.2 s with ⟨⟨a, rest⟩ | f | n, visits⟩
      · rfl
      · dsimp only
        split_ifs <;> simp [tryInTurn]
      · rfl
  | cons next others =>
      rw [tryInTurn]
      rcases hrun : alternative first.1 first.2 s with ⟨⟨a, rest⟩ | f | n, visits⟩
      · simp only [choice, hrun]
      · cases hf : f.isRecoverable with
        | true =>
            rw [choice_of_refused hrun hf]
            simp only [if_pos hf, tryInTurn_some, Run.afterVisits, Run.joinVisits_eq]
            rcases choice next others s with ⟨_ | _ | _, _⟩ <;> rfl
        | false =>
            simp [choice, hrun, hf]
      · simp only [choice, hrun]

end Rule

namespace Parser

open Rule

variable {limit : ℤ} {n : ℕ}

/-! ### The parts of the parser -/

/-- The rules and lists of the grammar in a scope, each with the tokens that start it. -/
inductive Part (scope : Scope) : {α : Type} → Rule α → (first : Kind → Prop) → Prop
  | token {kind : Kind} (hk : kind ≠ .finish) (what : Option String) (opener : Option Token) :
      Part scope (token kind what opener) (· = kind)
  | assignment : Part scope (assignment scope) (·.startsOperand = true)
  | comparison : Part scope (comparison scope) (·.startsOperand = true)
  | sum : Part scope (sum scope) (·.startsOperand = true)
  | product : Part scope (product scope) (·.startsOperand = true)
  | signed : Part scope (signed scope) (·.startsOperand = true)
  | suffixed : Part scope (suffixed scope) (Begins .operand)
  | callSuffix : Part scope (callSuffix scope) (· = .openParen)
  | indexSuffix : Part scope (indexSuffix scope) (· = .openBracket)
  | fieldSuffix : Part scope fieldSuffix (· = .dot)
  | operand : Part scope (operand scope) (Begins .operand)
  | operandChoice : Part scope (operandChoice scope) (Begins .operand)
  | literal : Part scope literal fun kind => ∃ k, kind = .literal k
  | name : Part scope name (· = .name)
  | group : Part scope (group scope) (· = .openParen)
  | array : Part scope (array scope) (· = .openBracket)
  | arrayRow {e : Rule Expr} (he : scope.inner = some e) :
      Part scope (arrayRow e) (·.startsOperand = true)
  /-- a list inside a bracket that needs an item: subscripts, and the items of a row -/
  | items {e : Rule Expr} (he : scope.inner = some e) (name : String) :
      Part scope (separatedList name ⟨true, false⟩ .comma e) (·.startsOperand = true)
  /-- a list inside a bracket that may be empty, and then reads nothing -/
  | arguments {e : Rule Expr} (he : scope.inner = some e) (name : String) :
      Part scope (separatedList name ⟨true, true⟩ .comma e) fun _ => True
  | rows {e : Rule Expr} (he : scope.inner = some e) (name : String) :
      Part scope (separatedList name ⟨true, true⟩ .semicolon (arrayRow e)) fun _ => True

/-- **Every part stops and fails further on**, in front of the token ahead only where that
does not start it. -/
lemma Part.tells {α : Type} {r : Rule α} {first : Kind → Prop}
    (h : Part (.ofRoom limit n) r first) : r.Tells first := by
  have hi : StartsInside limit n := fun m _ => starts_expr limit m
  have hinside : ∀ {e : Rule Expr}, (Scope.ofRoom limit n).inner = some e →
      e.Starts (·.startsOperand = true) := fun he => by
    obtain ⟨m, -, rfl⟩ := ofRoom_inner.mp he
    exact starts_expr limit m
  cases h with
  | token hk what opener => exact (starts_token hk what opener).toTells
  | assignment => exact (starts_assignment hi).toTells
  | comparison => exact (starts_comparison hi).toTells
  | sum => exact (starts_sum hi).toTells
  | product => exact (starts_product hi).toTells
  | signed => exact (starts_signed hi).toTells
  | suffixed => exact (starts_suffixed hi).toTells
  | callSuffix => exact (starts_callSuffix hi).toTells
  | indexSuffix => exact (starts_indexSuffix hi).toTells
  | fieldSuffix => exact starts_fieldSuffix.toTells
  | operand => exact (starts_operand hi).toTells
  | operandChoice => exact (starts_operandChoice hi).toTells
  | literal => exact starts_literal.toTells
  | name => exact starts_name.toTells
  | group => exact (starts_group hi).toTells
  | array => exact (starts_array hi).toTells
  | arrayRow he => exact (starts_arrayRow (hinside he)).toTells
  | items he name => exact ((hinside he).list (by simp) name).toTells
  | arguments he name => exact ((hinside he).emptyList (by simp) name).tells
  | rows he name => exact ((starts_arrayRow (hinside he)).emptyList (by simp) name).tells

/-! ### The whole parse -/

/-- How the parser over some tokens handles streams, operators, choices and failures. -/
structure Disciplined (limit : ℤ) (tokens : Tokens) : Prop where
  /-- The parse begins over the tokens, -/
  start : (TokenStream.ofTokens tokens).Over tokens
  /-- no step over a token leaves them or goes back, -/
  advance : ∀ {s : TokenStream}, s.Over tokens → s.advance.Over tokens ∧ s.index ≤ s.advance.index
  /-- nor does a part of the parser that succeeds, -/
  succeeds : ∀ {s : TokenStream}, s.Over tokens → ∀ {n α first} {r : Rule α},
    Part (.ofRoom limit n) r first → ∀ {a s'}, r.Gives s a s' → s'.Over tokens ∧ s.index ≤ s'.index
  /-- and a rule or list is entered in front of a token only. -/
  visits : ∀ v ∈ (root limit (.ofTokens tokens)).visits, v.index < tokens.toList.length
  /-- A part that fails has come to a token further on, after the tokens `w`; if another
  rule may be tried, its failure stands in front of the token ahead exactly if it has read
  nothing, which is where that token does not start it. -/
  fails : ∀ {s : TokenStream}, s.Over tokens → ∀ {n α first} {r : Rule α},
    Part (.ofRoom limit n) r first → ∀ {g}, r.Refuses s g →
      s.offset ≤ g.offset ∧ ∃ w s₁, s.Passes w s₁ ∧ s₁.Over tokens ∧ g.LiesAt s₁ ∧
        (g.isRecoverable = true →
          (g.offset = s.offset ↔ w = []) ∧ (w = [] ↔ ¬ first s.current.kind))
  /-- The operators of comparisons, sums and products are found by the names of their
  tokens, -/
  compareOps : ∀ stuck operand, namedLink (CompareOp.all.map .compare) CompareOp.named? stuck
    operand = link? Kind.compareOp? operand
  sumOps : ∀ stuck operand, namedLink [.arith .plus, .arith .minus] ArithOp.named? stuck
    operand = link? Kind.sumOp? operand
  productOps : ∀ stuck operand, namedLink [.arith .times, .arith .divide] ArithOp.named? stuck
    operand = link? Kind.productOp? operand
  /-- and a choice has an outcome. -/
  choices : ∀ {α} (first : String × Rule α) (others : List (String × Rule α)) (s : TokenStream),
    tryInTurn none (first :: others) s =
      (some (choice first others s).outcome, (choice first others s).visits)

end Parser

/-- **The discipline of the parser**, over the tokens of every source. -/
theorem parser_disciplined {source : String} {tokens : Tokens} (ht : tokenize source = .ok tokens)
    (limit : ℤ) : Parser.Disciplined limit tokens where
  start := TokenStream.over_ofTokens tokens
  advance := fun {s} hs => by
    obtain ⟨w, hw⟩ := s.exists_passes_advance
    exact ⟨hs.passes hw, hw.index_eq ▸ Nat.le_add_right _ _⟩
  succeeds := fun hs _ _ _ _ hr _ _ h => by
    obtain ⟨w, hw⟩ := hr.tells.ends (hs.ordered (tokenize_ordered ht)) h
    exact ⟨hs.passes hw, hw.index_eq ▸ Nat.le_add_right _ _⟩
  visits := fun v hv => by
    have hle := ((Parser.frugal_expr limit limit.toNat _ (tokenize_ordered ht)).within v hv).2
    rw [Tokens.toList, List.length_append, List.length_singleton]
    simp only [TokenStream.ofTokens] at hle
    omega
  fails := fun {s} hs {n α first r} hr {g} h => by
    have hordered := hs.ordered (tokenize_ordered ht)
    obtain ⟨w, s₁, hw, hat⟩ := hr.tells.raises hordered h
    have hiff : g.offset = s.offset ↔ w = [] := by
      rw [hat.offset]
      exact hordered.offset_eq_iff hw
    exact ⟨hr.tells.offset_le hordered h, w, s₁, hw, hs.passes hw, hat,
      fun hg => ⟨hiff, hiff.symm.trans (hr.tells.declines_iff hordered h hg)⟩⟩
  compareOps := Parser.namedLink_eq (by decide) fun kind hk => by
    rcases kind with _ | _ | _ | op | _ <;> first | rfl | cases op <;> simp [CompareOp.all] at hk
  sumOps := Parser.namedLink_eq (by decide) fun kind hk => by
    rcases kind with _ | _ | op | _ <;> first | rfl | cases op <;> simp [Kind.sumOp?] at hk ⊢
  productOps := Parser.namedLink_eq (by decide) fun kind hk => by
    rcases kind with _ | _ | op | _ <;> first | rfl | cases op <;> simp [Kind.productOp?] at hk ⊢
  choices := Rule.tryInTurn_eq

/-- The theorem at the source `x=[y`, where every list and choice comes to its end before
the bracket that is missing. -/
theorem parser_disciplined_array :
    ∃ tokens, tokenize "x=[y" = .ok tokens ∧ ∀ limit, Parser.Disciplined limit tokens := by
  have h : tokenize "x=[y" = .ok ⟨[⟨.name, some "x", ⟨0, 1, 1⟩, 1⟩,
      ⟨.assign, some "=", ⟨1, 1, 2⟩, 2⟩, ⟨.openBracket, some "[", ⟨2, 1, 3⟩, 3⟩,
      ⟨.name, some "y", ⟨3, 1, 4⟩, 4⟩], ⟨.finish, none, ⟨4, 1, 5⟩, 4⟩⟩ := rfl
  exact ⟨_, h, parser_disciplined h⟩

end ArrayExpr
