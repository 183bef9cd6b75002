/-
The parser visits every rule at most once in front of every token.

* `frugal_choice_of_refused`, `frugal_choice_last`: choices whose alternatives
  refuse the token ahead, without a visit or after one;
* `frugal_operand`, `frugal_suffixed` and those after them: one lemma for each
  rule of the grammar;
* `frugal_expr`: the rule for expressions is frugal;
* `parse_visits_once`: no rule is visited twice in front of one token, so that
  no rule is visited more often than there are tokens.
-/
import ArrayExpr.Proofs.Rule.Counting
import ArrayExpr.Proofs.Rule.Visits
import ArrayExpr.Proofs.Parser.Reading
import ArrayExpr.Proofs.Scanner.Round
import ArrayExpr.Parser.Parse

namespace ArrayExpr

namespace Rule

variable {α : Type} {r : Rule α} {first next : String × Rule α} {others : List (String × Rule α)}
  {names : List String} {skip peek least : ℕ} {s : TokenStream} {e : Expectation}

/-! ### Choices -/

/-- The name of an alternative costs no visit. -/
lemma frugal_alternative (name : String) (h : (r s).Frugal s names skip peek least) :
    (alternative name r s).Frugal s names skip peek least := by
  simp only [alternative]
  generalize r s = run at h
  obtain ⟨outcome, visits⟩ := run
  cases outcome with
  | success a rest => exact h
  | overlong n => exact h
  | failure g =>
      refine ⟨h.nodup, h.within, h.named, fun ho => (by cases ho), fun ho hg => ?_⟩
      cases ho
      rw [Failure.inAlternative_isRecoverable] at hg
      rw [Failure.inAlternative_offset]
      exact h.failure rfl hg

/-- A first alternative after which no other is tried. -/
lemma frugal_choice_first (h : (first.2 s).Frugal s names skip peek least)
    (hlast : ∀ g, first.2.Refuses s g → g.isRecoverable = false) :
    (choice first others s).Frugal s names skip peek least := by
  have halt := frugal_alternative first.1 h
  cases others with
  | nil => exact halt
  | cons next others =>
      simp only [choice]
      cases hrun : alternative first.1 first.2 s with
      | mk outcome visits =>
        rw [hrun] at halt
        cases outcome with
        | success a rest => exact halt
        | overlong n => exact halt
        | failure g =>
            have hrefuses : (alternative first.1 first.2).Refuses s g := by rw [Refuses, hrun]
            obtain ⟨g', hg', rfl⟩ := refuses_alternative.mp hrefuses
            have hg : (g'.inAlternative first.1).isRecoverable = false := by
              rw [Failure.inAlternative_isRecoverable, hlast g' hg']
            simp only [hg]
            exact halt

/-- A failure at the token ahead leaves a run frugal. -/
lemma frugal_keepFurthest {f : Failure} {run : Run α} (hf : f.offset = s.offset)
    (h : run.Frugal s names skip peek least) :
    (keepFurthest f run).Frugal s names skip peek least := by
  obtain ⟨outcome, visits⟩ := run
  cases outcome with
  | success a rest => exact h
  | overlong n => exact h
  | failure g =>
      refine ⟨h.nodup, h.within, h.named, fun ho => (by cases ho), fun ho hrec => ?_⟩
      cases ho
      cases hg : g.isRecoverable with
      | false =>
          simp only [hg, Bool.false_eq_true, if_false] at hrec
      | true =>
          obtain ⟨hle, hat⟩ := h.failure rfl hg
          simp only [if_true, Failure.furthest]
          split_ifs with hlt
          · exact ⟨hle, hat⟩
          · exact ⟨hf.ge, fun _ => hat (by omega)⟩

/-- A first alternative that refuses the token ahead without a visit. -/
lemma frugal_choice_of_refused (h : first.2 s = ⟨.failure (.unexpected s e), []⟩)
    (hothers : (choice next others s).Frugal s names skip peek least) :
    (choice first (next :: others) s).Frugal s names skip peek least := by
  have hfirst : alternative first.1 first.2 s =
      ⟨.failure ((Failure.unexpected s e).inAlternative first.1), []⟩ := by rw [alternative, h]
  have hrec : ((Failure.unexpected s e).inAlternative first.1).isRecoverable = true := by
    rw [Failure.inAlternative_isRecoverable, Parser.unexpected_isRecoverable]
  have hoff : ((Failure.unexpected s e).inAlternative first.1).offset = s.offset :=
    Failure.inAlternative_offset _ _
  rw [choice_of_refused hfirst hrec]
  simp only [Run.afterVisits, Run.joinVisits_eq, List.nil_append]
  exact frugal_keepFurthest hoff hothers

/-- A failed run whose visits all stand behind the token ahead may be followed by a visit
in front of that token. -/
lemma frugal_concat_visit {name : String} {visits : List Visit} {f : Failure}
    (h : (⟨.failure f, visits⟩ : Run α).Frugal s [] 1 peek least) (hrec : f.isRecoverable = true) :
    (⟨.failure f, visits ++ [⟨name, s.index⟩]⟩ : Run α).Frugal s [name] 0 peek least := by
  have hbehind : ∀ v ∈ visits, s.index < v.index := fun v hv => (h.within v hv).1
  obtain ⟨hle, hat⟩ := h.failure rfl hrec
  refine ⟨?nodup, ?within, ?named, fun ho => (by cases ho), fun {e} ho _ => ?fails⟩
  case nodup =>
    refine List.nodup_append.mpr
      ⟨h.nodup, List.nodup_singleton _, fun v hv v' hv' heq => ?_⟩
    have hlt := hbehind v hv
    rw [heq, List.mem_singleton.mp hv'] at hlt
    exact Nat.lt_irrefl _ hlt
  case within =>
    refine List.forall_mem_append.mpr ⟨fun v hv => ⟨(hbehind v hv).le, (h.within v hv).2⟩, ?_⟩
    exact List.forall_mem_singleton.mpr ⟨Nat.le_refl _, Nat.le_add_right _ _⟩
  case named =>
    refine List.forall_mem_append.mpr ⟨fun v hv hi => absurd hi (hbehind v hv).ne', ?_⟩
    exact List.forall_mem_singleton.mpr fun _ => List.mem_singleton.mpr rfl
  case fails =>
    cases ho
    refine ⟨hle, fun heq => List.forall_mem_append.mpr ⟨hat heq, ?_⟩⟩
    exact List.forall_mem_singleton.mpr rfl

/-- A first alternative that visits nothing in front of the token ahead, and a
second one that refuses that token after a visit. -/
lemma frugal_choice_last {name : String} (h : (first.2 s).Frugal s [] 1 peek least)
    (hnext : next.2 s = ⟨.failure (.unexpected s e), [⟨name, s.index⟩]⟩) :
    (choice first [next] s).Frugal s [name] 0 peek least := by
  have halt := frugal_alternative first.1 h
  cases hrun : alternative first.1 first.2 s with
  | mk outcome visits =>
    rw [hrun] at halt
    have hloose := halt.weaken (List.nil_subset [name]) (Nat.zero_le 1) (Nat.le_refl peek)
      (Nat.le_refl least)
    cases outcome with
    | success a rest =>
        simp only [choice, hrun]
        exact hloose
    | overlong n =>
        simp only [choice, hrun]
        exact hloose
    | failure f =>
        cases hrec : f.isRecoverable with
        | false =>
            simp only [choice, hrun, hrec]
            exact hloose
        | true =>
            have hle : s.offset ≤ f.offset := (halt.failure rfl hrec).1
            have hkept : keepFurthest f (choice next [] s) = ⟨.failure f, [⟨name, s.index⟩]⟩ := by
              have hoff : ((Failure.unexpected s e).inAlternative next.1).offset = s.offset :=
                Failure.inAlternative_offset _ _
              rw [choice_nil, alternative, hnext]
              simp only [keepFurthest, Failure.inAlternative_isRecoverable,
                Parser.unexpected_isRecoverable, if_true, Failure.furthest, hoff,
                if_neg (Nat.not_lt.mpr hle)]
            rw [choice_of_refused hrun hrec, hkept]
            simp only [Run.afterVisits, Run.joinVisits_eq]
            exact frugal_concat_visit halt hrec

end Rule

namespace Parser

open Rule

variable {α ω : Type} {scope : Scope} {s : TokenStream} {names : List String}
  {skip peek least : ℕ}

/-! ### Rules that refuse the token ahead -/

/-- Where no literal stands the rule for one fails at once. -/
lemma run_literal (h : ∀ kind, s.current.kind ≠ .literal kind) :
    literal s = ⟨.failure (.unexpected s (.named "literal")), []⟩ := by
  simp only [literal, bind_run, current, Run.afterVisits]
  cases hk : s.current.kind with
  | literal kind => exact absurd hk (h kind)
  | _ => rfl

/-- So does the rule for names. -/
lemma run_name (h : s.current.kind ≠ .name) :
    name s = ⟨.failure (.unexpected s (.named "identifier")), []⟩ := by
  simp only [name, bind_run, current, Run.afterVisits, if_neg h]
  rfl

/-- So does a pair of brackets in front of another token. -/
lemma run_bracketed {opening closing : Kind} {inside : Rule Expr → Rule α}
    (h : s.current.kind ≠ opening) :
    scope.bracketed opening closing inside s =
      ⟨.failure (.unexpected s (.named opening.describe)), []⟩ := by
  simp only [Scope.bracketed, spanned, bind_run, stream, token, if_neg h, Run.afterVisits]
  rfl

/-- A group fails at once without a parenthesis. -/
lemma run_group (h : s.current.kind ≠ .openParen) :
    group scope s = ⟨.failure (.unexpected s (.named Kind.openParen.describe)), []⟩ := by
  simp only [group, bind_run, run_bracketed h]

/-- An array fails at once without a bracket, but not before it is visited. -/
lemma run_array (h : s.current.kind ≠ .openBracket) :
    array scope s = ⟨.failure (.unexpected s (.named Kind.openBracket.describe)),
      [⟨"array_literal", s.index⟩]⟩ := by
  simp only [array, bind_run, visit, run_bracketed h, Run.afterVisits]
  rfl

/-! ### Brackets -/

/-- The rules visited in front of the first token of an expression. -/
def expressionRules : List String :=
  ["assign_expr", "cmp_expr", "sum_expr", "product_expr", "unary_expr", "postfix_expr",
    "primary_expr", "array_literal"]

/-- The rule inside brackets, if there is one, is frugal. -/
def FrugalScope (scope : Scope) : Prop :=
  ∀ e, scope.inner = some e → e.Frugal expressionRules 0 0 1

/-- A bracket visits nothing in front of its opening token. -/
lemma frugal_bracketed (hi : FrugalScope scope) {opening closing : Kind} (ho : opening ≠ .finish)
    (hc : closing ≠ .finish) {inside : Rule Expr → Rule α}
    (h : ∀ e : Rule Expr, e.Frugal expressionRules 0 0 1 → (inside e).Frugal names 0 1 0) :
    (scope.bracketed opening closing inside).Frugal [] 1 0 1 := by
  have hinside : ∀ (opener : Token) (e : Rule Expr), e.Frugal expressionRules 0 0 1 →
      (inside e >>= fun a => token closing none (some opener) >>= fun _ => pure a).Frugal
        names 0 0 1 :=
    fun opener e he => (h e he).bind (fun a =>
      ((frugal_token hc none (some opener)).bind_pure : Rule.Frugal _ [] 1 0 1)) (Nat.le_refl 1)
        (Nat.le_refl 1) (Nat.zero_le _) (Nat.le_refl 1) (.inl Nat.one_pos)
  have hdescend : ∀ opener : Token, (scope.descend >>= fun e => inside e >>= fun a =>
      token closing none (some opener) >>= fun _ => pure a).Frugal names 0 0 1 := by
    intro opener
    rw [Scope.descend]
    split
    · next e he =>
      rw [pure_bind]
      exact hinside opener e (hi e he)
    · exact frugal_fail fun s hg => Nat.le_refl _
  have hopening : (token opening none none).Frugal [] 1 0 1 := frugal_token ho none none
  exact (hopening.bind_read hdescend (Nat.le_refl 1)).spanned

/-! ### Operands -/

/-- The text of a token is read without a visit. -/
lemma frugal_text {k : String × Span → Rule α} (hs : s.Ordered) (hk : s.current.kind ≠ .finish)
    (h : ∀ x, (k x).Frugal names skip peek 0) :
    ((spanned (do
      let token ← current
      advance
      return token.text.getD "") >>= k) s).Frugal s names skip peek 1 := by
  have hword : (spanned (do
      let token ← current
      advance
      return token.text.getD "") s).Frugal s names skip 0 1 :=
    Run.frugal_of_visits_nil rfl
      (fun _ _ ho => by
        cases ho
        exact ⟨_, TokenStream.passes_one (hs.peek_current hk), Nat.le_refl _⟩)
      fun _ ho => by cases ho
  exact frugal_bind_run hs hword h (Nat.zero_le 1) (Nat.zero_le skip) (Nat.le_add_left skip 1)
    (Nat.zero_le _) (.inr (List.Subset.refl names))

/-- A literal visits nothing that comes twice. -/
lemma frugal_literal : literal.Frugal names skip peek 1 := by
  refine frugal_current fun s hs => ?_
  cases hk : s.current.kind with
  | literal kind =>
      refine frugal_text hs (by simp [hk]) fun x => ?_
      dsimp only
      split
      · exact frugal_overlong _
      · exact frugal_pure _
  | _ => exact frugal_fail (fun s _ => Nat.le_refl _) s hs

/-- Nor does a name. -/
lemma frugal_name : name.Frugal names skip peek 1 := by
  refine frugal_current fun s hs => ?_
  split_ifs with hk
  · exact frugal_text hs (by simp [hk]) fun x => frugal_pure _
  · exact frugal_fail (fun s _ => Nat.le_refl _) s hs

/-- A group visits behind its parenthesis. -/
lemma frugal_group (hi : FrugalScope scope) : (group scope).Frugal [] 1 0 1 :=
  (frugal_bracketed hi (by decide) (by decide) fun _ he => he.any_peek.any_least).bind_pure

/-- An array visits itself in front of its bracket. -/
lemma frugal_array (hi : FrugalScope scope) : (array scope).Frugal ["array_literal"] 0 0 1 := by
  have hrow : ∀ e : Rule Expr, e.Frugal expressionRules 0 0 1 →
      (arrayRow e).Frugal ("array_row" :: "row_items" :: expressionRules) 0 1 1 := fun e he =>
    Frugal.visited (he.any_peek.separatedList ⟨true, false⟩ (by decide) (by decide)) (by decide)
      (by decide)
  have hbracketed : (scope.bracketed .openBracket .closeBracket fun expr =>
      separatedList "array_rows" ⟨true, true⟩ .semicolon (arrayRow expr)).Frugal [] 1 0 1 :=
    frugal_bracketed hi (by decide) (by decide) fun e he =>
      (hrow e he).separatedList ⟨true, true⟩ (by decide) (by decide)
  exact Frugal.visited hbracketed.bind_pure.any_skip (by decide) Nat.one_pos

/-- A choice: of the alternatives that fail only the array visits anything. -/
lemma frugal_operandChoice (hi : FrugalScope scope) :
    (operandChoice scope).Frugal ["array_literal"] 0 0 1 := by
  intro s hs
  by_cases hliteral : ∃ kind, s.current.kind = .literal kind
  · obtain ⟨kind, hkind⟩ := hliteral
    exact frugal_choice_first (frugal_literal s hs) fun g hg =>
      absurd hg (not_refuses_literal hkind)
  refine frugal_choice_of_refused (run_literal (by simpa using hliteral)) ?_
  by_cases hname : s.current.kind = .name
  · exact frugal_choice_first (frugal_name s hs) fun g hg => absurd hg (not_refuses_name hname)
  refine frugal_choice_of_refused (run_name hname) ?_
  by_cases hgroup : s.current.kind = .openParen
  -- Once a group has failed an array is tried, which visits its rule and refuses the parenthesis.
  · exact frugal_choice_last (frugal_group hi s hs) (run_array (by rw [hgroup]; decide))
  refine frugal_choice_of_refused (run_group hgroup) ?_
  exact frugal_alternative _ (frugal_array hi s hs)

/-- An operand visits itself and what its alternatives visit. -/
lemma frugal_operand (hi : FrugalScope scope) :
    (operand scope).Frugal ["primary_expr", "array_literal"] 0 0 1 :=
  Frugal.visited ((frugal_operandChoice hi).called _) (by decide) Nat.one_pos

/-! ### Suffixes -/

/-- A list of expressions inside brackets visits the list rule behind the
opening token. -/
lemma frugal_listed (hi : FrugalScope scope) {opening closing : Kind} (ho : opening ≠ .finish)
    (hc : closing ≠ .finish) {name : String} (hname : name ∉ expressionRules) (style : ListStyle) :
    (scope.bracketed opening closing fun expr =>
      separatedList name style .comma expr).Frugal [] 0 0 1 := by
  have hlist : ∀ e : Rule Expr, e.Frugal expressionRules 0 0 1 →
      (separatedList name style .comma e).Frugal (name :: expressionRules) 0 1 0 := fun e he =>
    (he.any_peek.separatedList style hname (by decide)).any_least
  exact (frugal_bracketed hi ho hc hlist).any_skip

/-- The arguments of a call visit behind their parenthesis. -/
lemma frugal_callSuffix (hi : FrugalScope scope) :
    (callSuffix scope).Frugal ["call_suffix"] 0 0 1 :=
  Frugal.visited (frugal_listed hi (by decide) (by decide) (by decide) ⟨true, true⟩) (by decide)
    Nat.one_pos

/-- The subscripts of an index visit behind their bracket. -/
lemma frugal_indexSuffix (hi : FrugalScope scope) :
    (indexSuffix scope).Frugal ["index_suffix"] 0 0 1 :=
  Frugal.visited (frugal_listed hi (by decide) (by decide) (by decide) ⟨true, false⟩).bind_pure
    (by decide) Nat.one_pos

lemma frugal_fieldSuffix : fieldSuffix.Frugal names 0 0 1 := by
  have hname : ∀ (_ : Token) (what : Option String), (token .name what none).Frugal [] 0 0 1 :=
    fun _ what => frugal_token (by decide) what none
  have hdot : (token .dot none none).Frugal names 0 0 1 := frugal_token (by decide) none none
  exact (hdot.bind_read (fun t => hname t _) (Nat.zero_le 1)).spanned.bind_pure

/-- The rules visited in front of a suffix. -/
def suffixRules : List String := ["call_suffix", "index_suffix"]

/-- A suffix visits the one rule that its token calls for. -/
lemma frugal_suffix? (hi : FrugalScope scope) : (suffix? scope).Frugal suffixRules 0 0 0 := by
  refine frugal_current fun s hs => ?_
  cases s.current.kind with
  | openParen =>
      exact ((frugal_callSuffix hi).bind_pure.any_least s hs).allow (by decide)
  | openBracket =>
      exact ((frugal_indexSuffix hi).bind_pure.any_least s hs).allow (by decide)
  | dot =>
      exact frugal_fieldSuffix.bind_pure.any_least s hs
  | _ => exact frugal_pure _ s hs

/-- An operand with suffixes: every suffix starts behind the one before. -/
lemma frugal_suffixed (hi : FrugalScope scope) :
    (suffixed scope).Frugal ["postfix_expr", "primary_expr", "array_literal"] 0 0 1 :=
  Frugal.visited ((frugal_operand hi).bind_read
    (fun _ => ((frugal_suffix? hi).many (Nat.zero_le 1)).bind_pure) (Nat.zero_le 1)) (by decide)
    Nat.one_pos

/-! ### Operators -/

/-- An operator and its operand visit nothing in front of the operator. -/
lemma frugal_link? {op? : Kind → Option ω} (hop : op? .finish = none) {r : Rule Expr}
    (hr : r.Frugal names 0 0 1) : (link? op? r).Frugal [] 0 0 0 := by
  refine frugal_current fun s hs => ?_
  cases hk : op? s.current.kind with
  | none => exact frugal_pure _ s hs
  | some op =>
      have hadvance : (advance s).Frugal s [] 0 0 1 :=
        frugal_advance_of_kind hs fun h => by rw [h, hop] at hk; cases hk
      exact (frugal_bind_read hs hadvance (fun _ => hr.bind_pure) (Nat.zero_le 1)).any_least

/-- Operands with operators between them. -/
lemma frugal_chain {name : String} {op? : Kind → Option ω} (hop : op? .finish = none)
    {r : Rule Expr} (hr : r.Frugal names 0 0 1) (hname : name ∉ names)
    (k : Expr → List (ω × Expr) → Expr) :
    Rule.Frugal (do
      visit name
      let first ← r
      let links ← many (link? op? r)
      return k first links) (name :: names) 0 0 1 :=
  Frugal.visited (hr.bind_read (fun _ => ((frugal_link? hop hr).many (Nat.zero_le 1)).bind_pure)
    (Nat.zero_le 1)) hname Nat.one_pos

lemma frugal_sign? : sign?.Frugal names 0 0 0 := by
  refine frugal_current fun s hs => ?_
  split_ifs
  · have hstream : stream.Frugal names 0 0 0 := frugal_stream
    have hadvance : advance.Frugal names 0 0 0 := frugal_advance
    exact hstream.bind (fun _ => hadvance.bind_pure) (Nat.zero_le 1) (Nat.le_refl 0)
      (Nat.le_refl 0) (Nat.le_refl 0) (.inr (List.Subset.refl names)) s hs
  · exact frugal_pure _ s hs

/-- An operand under minus signs; signs are no rules. -/
lemma frugal_signed (hi : FrugalScope scope) : (signed scope).Frugal
    ["unary_expr", "postfix_expr", "primary_expr", "array_literal"] 0 0 1 :=
  Frugal.visited ((frugal_sign?.many (Nat.zero_le 1)).bind
    (fun _ => (frugal_suffixed hi).bind_pure) (Nat.zero_le 1) (Nat.le_refl 0) (Nat.zero_le 0)
    (Nat.zero_le 1) (.inr (List.Subset.refl _))) (by decide) Nat.one_pos

/-- The levels down to the operand visit one after another at one token. -/
lemma frugal_comparison (hi : FrugalScope scope) : (comparison scope).Frugal
    ["cmp_expr", "sum_expr", "product_expr", "unary_expr", "postfix_expr", "primary_expr",
      "array_literal"] 0 0 1 :=
  frugal_chain rfl (frugal_chain rfl (frugal_chain rfl (frugal_signed hi) (by decide) _)
    (by decide) _) (by decide) _

/-- An assignment: every side starts behind a `=`. -/
lemma frugal_assignment (hi : FrugalScope scope) :
    (assignment scope).Frugal expressionRules 0 0 1 := by
  have hside : (side scope).Frugal _ 0 0 1 :=
    frugal_current fun s hs => (frugal_comparison hi).bind_pure s hs
  have hfurther : ∀ before, (furtherSide scope before).Frugal [] 0 0 0 := fun before => by
    refine frugal_current fun s hs => ?_
    split_ifs with hk
    · have hadvance : (advance s).Frugal s [] 0 0 1 :=
        frugal_advance_of_kind hs (by rw [hk]; decide)
      exact (frugal_bind_read hs hadvance (fun _ => hside.bind_pure) (Nat.zero_le 1)).any_least
    · exact frugal_fail (fun _ hg => by cases hg) s hs
    · exact frugal_pure _ s hs
  exact Frugal.visited (hside.bind_read
    (fun _ => (frugal_collect hfurther (Nat.zero_le 1) _).bind_pure) (Nat.zero_le 1)) (by decide)
    Nat.one_pos

/-- **The rule for expressions is frugal.** -/
theorem frugal_expr (limit : ℤ) (n : ℕ) : (expr limit n).Frugal expressionRules 0 0 1 := by
  induction n with
  | zero => exact frugal_assignment fun e he => by cases he
  | succ n ih => exact frugal_assignment fun e he => by cases he; exact ih

end Parser

/-- Distinct visits in front of `n` tokens are at most `n` to one rule. -/
lemma count_le_of_nodup {visits : List Visit} {n : ℕ} (h : visits.Nodup)
    (hlt : ∀ v ∈ visits, v.index < n) (rule : String) :
    (Stats.empty.add visits).count rule ≤ n := by
  rw [Stats.count_add, Stats.count_empty, Nat.zero_add, List.countP_eq_length_filter]
  have hnodup : ((visits.filter (·.rule = rule)).map (·.index)).Nodup := by
    refine (h.filter _).map_on fun v hv v' hv' hi => ?_
    rw [List.mem_filter, decide_eq_true_eq] at hv hv'
    obtain ⟨rule₁, index⟩ := v
    obtain ⟨rule₂, index'⟩ := v'
    rw [show index = index' from hi, show rule₁ = rule from hv.2, show rule₂ = rule from hv'.2]
  have hsub : (visits.filter (·.rule = rule)).map (·.index) ⊆ List.range n := fun i hi => by
    obtain ⟨v, hv, rfl⟩ := List.mem_map.mp hi
    exact List.mem_range.mpr (hlt v (List.mem_of_mem_filter hv))
  have hle := (hnodup.subperm hsub).length_le
  rwa [List.length_map, List.length_range] at hle

lemma Report.ofRun_visits {α : Type} (text : List Char) (run : Run α) :
    (Report.ofRun text run).visits = run.visits := by
  unfold Report.ofRun
  split <;> rfl

/-- **Linear work.** Whatever the outcome of a parse, no rule is visited twice
in front of one token, and so none more often than there are tokens. -/
theorem parse_visits_once {source : String} {tokens : Tokens} (h : tokenize source = .ok tokens)
    (limit : ℤ) :
    (parse limit source).visits.Nodup ∧
      (∀ v ∈ (parse limit source).visits, v.index < tokens.toList.length) ∧
        ∀ rule, (Stats.empty.add (parse limit source).visits).count rule ≤
          tokens.toList.length := by
  have hvisits : (parse limit source).visits =
      (Parser.root limit (.ofTokens tokens)).visits := by
    change (parseTokens limit source).visits = _
    rw [parseTokens, h]
    exact Report.ofRun_visits _ _
  have hfrugal := Parser.frugal_expr limit limit.toNat _ (tokenize_ordered h)
  rw [hvisits]
  have hlt : ∀ v ∈ (Parser.root limit (.ofTokens tokens)).visits,
      v.index < tokens.toList.length := fun v hv => by
    have hle := (hfrugal.within v hv).2
    rw [Tokens.toList, List.length_append, List.length_singleton]
    simp only [TokenStream.ofTokens] at hle
    omega
  exact ⟨hfrugal.nodup, hlt, count_le_of_nodup hfrugal.nodup hlt⟩

/-- The theorem at the source `[(1,`, where the parse tries an array behind a
group that failed. -/
theorem parse_visits_once_open :
    ∃ tokens, tokenize "[(1," = .ok tokens ∧ ∀ limit,
      (parse limit "[(1,").visits.Nodup ∧
        (∀ v ∈ (parse limit "[(1,").visits, v.index < tokens.toList.length) ∧
          ∀ rule, (Stats.empty.add (parse limit "[(1,").visits).count rule ≤
            tokens.toList.length := by
  have h : tokenize "[(1," = .ok ⟨[⟨.openBracket, some "[", ⟨0, 1, 1⟩, 1⟩,
      ⟨.openParen, some "(", ⟨1, 1, 2⟩, 2⟩, ⟨.literal .number, some "1", ⟨2, 1, 3⟩, 3⟩,
      ⟨.comma, some ",", ⟨3, 1, 4⟩, 4⟩], ⟨.finish, none, ⟨4, 1, 5⟩, 4⟩⟩ := rfl
  exact ⟨_, h, parse_visits_once h⟩

end ArrayExpr
