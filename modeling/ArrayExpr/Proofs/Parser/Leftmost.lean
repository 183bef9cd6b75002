/-
The leftmost problem decides the error.

* `Grammar.Reports`: what the error for a problem at a token is;
  `Reports.unique`: the problem determines it;
* `Parser.Offends.reports`: where the reference machine stops there is a
  problem, and the failure reports it;
* `parseSource_leftmost_problem`: a source is accepted exactly if no token has
  a problem; otherwise the error reports the leftmost problem.
-/
import ArrayExpr.Proofs.Parser.Acceptance
import ArrayExpr.Proofs.Parser.Blame
import ArrayExpr.Proofs.Parser.Overrun

namespace ArrayExpr

namespace Grammar

/-- What an error says about a problem at the token `i`, by its kind and its
offset: a token that no sentence goes on with stands where the error is
reported, a bad target begins there, and a bracket too much stands just
before. -/
inductive Reports (limit : ℕ) (tokens : Tokens) (i : ℕ) : ErrorKind → ℕ → Prop
  | unexpected (h : SyntaxProblem tokens.items i) (hi : i < tokens.items.length)
      (hs : ¬ IsSentence (tokens.items.take i)) :
      Reports limit tokens i .unexpectedToken
        (tokens.items[i]?.getD tokens.finish).start.offset
  | trailing (h : SyntaxProblem tokens.items i) (hi : i < tokens.items.length)
      (hs : IsSentence (tokens.items.take i)) :
      Reports limit tokens i .trailingInput
        (tokens.items[i]?.getD tokens.finish).start.offset
  | finish {kind : ErrorKind} (h : SyntaxProblem tokens.items i) (hi : i = tokens.items.length)
      (hk : kind = .unexpectedEndOfInput ∨ kind = .unterminatedBracket) :
      Reports limit tokens i kind tokens.finish.start.offset
  | target {v : List Token} (h : TargetProblem tokens.items i v) :
      Reports limit tokens i .invalidAssignmentTarget (extent v).start
  | depth (h : DepthProblem limit tokens.items i) :
      Reports limit tokens i .nestingTooDeep
        (tokens.items[i + 1]?.getD tokens.finish).start.offset

variable {limit i : ℕ} {tokens : Tokens} {items v : List Token} {kind kind' : ErrorKind}
  {offset offset' : ℕ}

lemma Reports.problem (h : Reports limit tokens i kind offset) : Problem limit tokens.items i := by
  cases h with
  | unexpected h | trailing h | finish h => exact Or.inl h
  | target h => exact Or.inr (Or.inl ⟨_, h⟩)
  | depth h => exact Or.inr (Or.inr h)

lemma SyntaxProblem.not_viable (h : SyntaxProblem items i)
    (hi : i < items.length) : ¬ Viable (items.take (i + 1)) := by
  rcases h.2 with ⟨-, h⟩ | ⟨h, -⟩
  · exact h
  · omega

lemma TargetProblem.viable (h : TargetProblem items i v) :
    i < items.length ∧ Viable (items.take (i + 1)) := by
  obtain ⟨t, e, ht, -, hv, -⟩ := h
  exact ⟨(List.getElem?_eq_some_iff.mp ht).1, hv⟩

lemma DepthProblem.viable (h : DepthProblem limit items i) :
    i < items.length ∧ Viable (items.take (i + 1)) := by
  obtain ⟨t, ht, -, hv, -⟩ := h
  exact ⟨(List.getElem?_eq_some_iff.mp ht).1, hv⟩

lemma TargetProblem.not_depth (h : TargetProblem items i v) :
    ¬ DepthProblem limit items i := by
  obtain ⟨t, e, ht, hk, -⟩ := h
  rintro ⟨t', ht', hk', -⟩
  rw [ht, Option.some.injEq] at ht'
  rw [← ht', hk] at hk'
  cases hk'

/-- **A problem determines what the error says.** At the end of input either of
two kinds may be reported. -/
theorem Reports.unique (h : Reports limit tokens i kind offset)
    (h' : Reports limit tokens i kind' offset') :
    offset' = offset ∧ (i < tokens.items.length → kind' = kind) := by
  cases h with
  | unexpected h hi hs =>
      cases h' with
      | unexpected => exact ⟨rfl, fun _ => rfl⟩
      | trailing _ _ hs' => exact absurd hs' hs
      | finish _ hi' => exact absurd hi' hi.ne
      | target h' => exact absurd h'.viable.2 (h.not_viable hi)
      | depth h' => exact absurd h'.viable.2 (h.not_viable hi)
  | trailing h hi hs =>
      cases h' with
      | unexpected _ _ hs' => exact absurd hs hs'
      | trailing => exact ⟨rfl, fun _ => rfl⟩
      | finish _ hi' => exact absurd hi' hi.ne
      | target h' => exact absurd h'.viable.2 (h.not_viable hi)
      | depth h' => exact absurd h'.viable.2 (h.not_viable hi)
  | finish h hi hk =>
      cases h' with
      | unexpected _ hi' | trailing _ hi' => exact absurd hi hi'.ne
      | finish => exact ⟨rfl, fun hi' => absurd hi hi'.ne⟩
      | target h' => exact absurd hi h'.viable.1.ne
      | depth h' => exact absurd hi h'.viable.1.ne
  | target h =>
      cases h' with
      | unexpected h' hi' | trailing h' hi' => exact absurd h.viable.2 (h'.not_viable hi')
      | finish _ hi' => exact absurd hi' h.viable.1.ne
      | target h' =>
          obtain ⟨_, _, -, -, -, hv, -⟩ := h
          obtain ⟨_, _, -, -, -, hv', -⟩ := h'
          rw [hv.unique hv']
          exact ⟨rfl, fun _ => rfl⟩
      | depth h' => exact absurd h' h.not_depth
  | depth h =>
      cases h' with
      | unexpected h' hi' | trailing h' hi' => exact absurd h.viable.2 (h'.not_viable hi')
      | finish _ hi' => exact absurd hi' h.viable.1.ne
      | target h' => exact absurd h h'.not_depth
      | depth => exact ⟨rfl, fun _ => rfl⟩

end Grammar

namespace Reference

open Grammar

variable {strict : Prop} {limit i : ℕ} {items w : List Token} {t : Token} {q : State}

lemma take_succ_of_getElem? (ht : items[i]? = some t) :
    items.take (i + 1) = items.take i ++ [t] := by
  rw [List.take_add_one, ht]
  rfl

lemma Steps.isSentence_iff (h : Steps strict limit .start w q) :
    IsSentence w ↔ q.sentence? ≠ none := by
  rw [Reference.isSentence_iff]
  constructor
  · rintro ⟨q', hs, hq⟩
    rwa [h.unique hs]
  · exact fun hq => ⟨q, h.weaken, hq⟩

/-- A token keeps the beginning of a sentence viable where the machine takes
it. -/
lemma Steps.viable_succ_iff (h : Steps strict limit .start (items.take i) q)
    (ht : items[i]? = some t) : Viable (items.take (i + 1)) ↔ stepUsual q t ≠ none := by
  rw [take_succ_of_getElem? ht, h.viable_concat_iff]

/-- Where the machine does not go on there is a problem. -/
lemma Steps.syntaxProblem (h : Steps strict limit .start (items.take i) q)
    (hi : i ≤ items.length) (hstep : ∀ t, items[i]? = some t → stepUsual q t = none)
    (hq : i = items.length → q.sentence? = none) : SyntaxProblem items i := by
  refine ⟨h.viable, ?_⟩
  rcases hi.lt_or_eq with hlt | rfl
  · have ht := List.getElem?_eq_getElem hlt
    refine Or.inl ⟨hlt, ?_⟩
    rw [h.viable_succ_iff ht, not_not]
    exact hstep _ ht
  · rw [List.take_length] at h
    exact Or.inr ⟨rfl, by rw [h.isSentence_iff, not_not]; exact hq rfl⟩

end Reference

namespace TokenStream

variable {tokens : Tokens} {w : List Token} {s : TokenStream}

lemma peek?_of_passes_ofTokens (h : (ofTokens tokens).Passes w s) :
    s.peek? = tokens.items[s.index]? := by
  rw [items_of_passes_ofTokens h, index_of_passes_ofTokens h, List.getElem?_append_right le_rfl,
    Nat.sub_self, peek?, List.head?_eq_getElem?]

lemma offset_of_passes_ofTokens (h : (ofTokens tokens).Passes w s) :
    s.offset = (tokens.items[s.index]?.getD tokens.finish).start.offset := by
  rw [offset, current_of_passes_ofTokens h]

lemma atEnd_of_passes_ofTokens (h : (ofTokens tokens).Passes w s) :
    s.atEnd = true ↔ tokens.items.length ≤ s.index := by
  rw [← peek?_eq_none_iff, peek?_of_passes_ofTokens h, List.getElem?_eq_none_iff]

end TokenStream

namespace Parser

open Rule Grammar Reference

variable {cap : ℕ} {tokens : Tokens} {s : TokenStream} {w : List Token} {q : State} {g : Failure}

/-- **Where the machine stops there is a problem**, and the failure reports
it. -/
lemma Offends.reports (hp : (TokenStream.ofTokens tokens).Passes w s)
    (hs : Steps True cap .start w q) (ho : Offends cap w q s g) :
    Reports cap tokens s.index g.kind g.offset := by
  obtain ⟨hi, rfl⟩ := TokenStream.take_of_passes_ofTokens hp
  have hpeek := TokenStream.peek?_of_passes_ofTokens hp
  have hoffset := TokenStream.offset_of_passes_ofTokens hp
  have hend := TokenStream.atEnd_of_passes_ofTokens hp
  cases ho with
  | stops hq hstep hg _ =>
      have hproblem := hs.syntaxProblem hi (fun t ht => hstep t (hpeek.trans ht)) fun _ => hq
      rw [hg.offset]
      rcases hi.lt_or_eq with hlt | heq
      · have hne : s.atEnd = false := by
          rw [← Bool.not_eq_true, hend]
          omega
        rw [hg.unexpected hne, hoffset]
        exact .unexpected hproblem hlt (by rw [hs.isSentence_iff, not_not]; exact hq)
      · have hfinish : s.offset = tokens.finish.start.offset := by
          rw [hoffset, List.getElem?_eq_none heq.ge]
          rfl
        rw [hfinish]
        exact .finish hproblem heq (hg.finish (hend.mpr heq.ge))
  | @target t v e ht hk hstep hv he hg ho =>
      rw [hg, ho]
      have ht' := hpeek.symm.trans ht
      exact .target ⟨t, e, ht', hk, (hs.viable_succ_iff ht').mpr hstep, hv, he⟩
  | @depth t ht hk hstep hd hg ho =>
      have ht' := hpeek.symm.trans ht
      have hnext := hp.append (TokenStream.passes_one ht)
      have hadvance := TokenStream.offset_of_passes_ofTokens hnext
      rw [TokenStream.advance_index ht] at hadvance
      rw [hg, ho, hadvance]
      refine .depth ⟨t, ht', hk, (hs.viable_succ_iff ht').mpr hstep, ?_⟩
      obtain ⟨q', hq'⟩ := Option.ne_none_iff_exists'.mp hstep
      have hopen := (hs.weaken.append (steps_one (admits_false q t) hq')).openBrackets_eq
      have hbrackets := step_brackets hq'
      rw [opened, closed, if_pos hk, opening_not_closing hk] at hbrackets
      rw [take_succ_of_getElem? ht', hopen]
      simp at hbrackets
      omega

/-- Where an expression fails from the start, some token offends. -/
lemma faults_root {limit : ℤ} (hs : (TokenStream.ofTokens tokens).Ordered)
    (hg : (expr limit limit.toNat).Refuses (.ofTokens tokens) g) :
    Faults limit.toNat [] (.ofTokens tokens) .start g := by
  cases hk : (TokenStream.ofTokens tokens).current.kind.startsOperand with
  | true =>
      exact blames_expr limit limit.toNat limit.toNat hs explains_start (Nat.zero_add _)
        ⟨rfl, rfl, rfl, rfl⟩ ⟨hk, by simp⟩ hg
  | false =>
      rw [hg.unique (declines_expr limit limit.toNat _ hs hk)]
      exact .here (offends_item hk (fun _ => rfl) _)

end Parser

open Grammar Reference

/-- How the parse of a whole source ends, in terms of its one expression. -/
lemma parseSource_eq {source : String} {tokens : Tokens} (ht : tokenize source = .ok tokens)
    (limit : ℤ) : parseSource limit false source =
      match (Parser.expr limit limit.toNat (.ofTokens tokens)).outcome with
      | .success tree rest =>
        if rest.atEnd then .accepted tree else .rejected (trailingError rest source.toList)
      | .failure f => .rejected (.ofFailure f source.toList)
      | .overlong n => .overlong n := by
  simp only [parseSource, parseTokens, ht, Parser.root, Report.ofRun]
  rcases (Parser.expr limit limit.toNat (.ofTokens tokens)).outcome with ⟨tree, rest⟩ | f | n
  · simp only [Bool.false_or]
  · simp only
  · simp only

/-- **A tree takes the machine to the token in front of which the parse stops**,
and there is a problem with that token, if there is one. -/
lemma Parser.steps_root {tokens : Tokens} {limit : ℤ} {tree : Expr} {rest : TokenStream}
    (hs : (TokenStream.ofTokens tokens).Ordered)
    (h : (Parser.expr limit limit.toNat).Gives (.ofTokens tokens) tree rest) :
    rest.index ≤ tokens.items.length ∧
      Derives .assignment (tokens.items.take rest.index) tree ∧
      (∃ q, Steps True limit.toNat .start (tokens.items.take rest.index) q ∧
        q.sentence? ≠ none) ∧
      (rest.index < tokens.items.length → SyntaxProblem tokens.items rest.index) := by
  obtain ⟨w, hp, hw, hstop⟩ := (Parser.reads_expr limit limit.toNat).sound hs h
  obtain ⟨hi, rfl⟩ := TokenStream.take_of_passes_ofTokens hp
  obtain ⟨x, p, hsteps, -⟩ := (runs_of_derives hw.1 hw.2).whole [] fun _ => (Nat.zero_add _).le
  refine ⟨hi, hw.1, ⟨_, hsteps, by simp [State.sentence?]⟩, fun hlt => ?_⟩
  refine Steps.syntaxProblem hsteps hi (fun t ht => ?_) fun h => absurd h hlt.ne
  rw [← TokenStream.peek?_of_passes_ofTokens hp] at ht
  rw [TokenStream.current_of_peek ht] at hstop
  rw [Parser.step_hold_of_stops hstop, endItem]

/-- **A whole source is accepted, and the machine takes all its tokens; or it
is rejected for a problem with the token in front of which the machine
stands.** -/
lemma parseSource_ends {source : String} {tokens : Tokens} (ht : tokenize source = .ok tokens)
    (hlong : ∀ t ∈ tokens.items, ¬ t.IsLongInteger) (limit : ℤ) :
    (∃ tree q, parseSource limit false source = .accepted tree ∧
      Steps True limit.toNat .start tokens.items q ∧ q.sentence? ≠ none) ∨
    ∃ error i q, parseSource limit false source = .rejected error ∧ i ≤ tokens.items.length ∧
      Steps True limit.toNat .start (tokens.items.take i) q ∧
      Reports limit.toNat tokens i error.kind error.offset := by
  have hs := tokenize_ordered ht
  have heq := parseSource_eq ht limit
  rcases Rule.ends (Parser.expr limit limit.toNat) (.ofTokens tokens) with
    ⟨tree, rest, h⟩ | ⟨g, h⟩ | ⟨n, h⟩
  · obtain ⟨w, hp, -⟩ := (Parser.reads_expr limit limit.toNat).sound hs h
    obtain ⟨hi, hd, ⟨q, hsteps, hq⟩, hproblem⟩ := Parser.steps_root hs h
    have hat := TokenStream.atEnd_of_passes_ofTokens hp
    rw [Rule.Gives] at h
    rw [h] at heq
    by_cases hend : rest.atEnd = true
    · rw [List.take_of_length_le (hat.mp hend)] at hsteps
      exact Or.inl ⟨tree, q, by rw [heq]; simp [hend], hsteps, hq⟩
    · have hlt : rest.index < tokens.items.length := by rwa [hat, not_le] at hend
      refine Or.inr ⟨trailingError rest source.toList, rest.index, q, by rw [heq]; simp [hend], hi,
        hsteps, ?_⟩
      have hoffset : (trailingError rest source.toList).offset = rest.offset := rfl
      rw [hoffset, TokenStream.offset_of_passes_ofTokens hp]
      exact .trailing (hproblem hlt) hlt ⟨tree, hd⟩
  · obtain ⟨w, s, q, hp, hsteps, ho⟩ := Parser.faults_root hs h
    obtain ⟨hi, rfl⟩ := TokenStream.take_of_passes_ofTokens hp
    rw [Rule.Refuses] at h
    rw [h] at heq
    exact Or.inr ⟨_, s.index, q, heq, hi, hsteps, ho.reports hp hsteps⟩
  · have hshort : (TokenStream.ofTokens tokens).Short :=
      ⟨hlong, fun hf => by simp [Token.IsLongInteger, hs.finish_kind] at hf⟩
    exact absurd h ((Parser.short_expr limit limit.toNat).ends hshort)

/-- Tokens that the machine takes up to the end of a sentence have no
problem. -/
lemma no_problem_of_sentence {limit : ℕ} {items : List Token} {q : State}
    (hs : Steps True limit .start items q) (hq : q.sentence? ≠ none) (i : ℕ) :
    ¬ Problem limit items i := by
  by_cases hi : i < items.length
  · exact Steps.no_problem (k := items.length) (by rwa [List.take_length]) le_rfl hi
  · have hnone : items[i]? = none := List.getElem?_eq_none (not_lt.mp hi)
    rintro (⟨-, h⟩ | ⟨v, t, e, ht, -⟩ | ⟨t, ht, -⟩)
    · rcases h with ⟨h, -⟩ | ⟨-, h⟩
      · exact hi h
      · exact h (hs.isSentence_iff.mpr hq)
    · rw [hnone] at ht
      cases ht
    · rw [hnone] at ht
      cases ht

/-- **The leftmost problem decides the error.** A source is accepted exactly if
none of its tokens has a problem; otherwise the error reports the problem of
the first token that has one. -/
theorem parseSource_leftmost_problem {source : String} {tokens : Tokens}
    (ht : tokenize source = .ok tokens) (hlong : ∀ t ∈ tokens.items, ¬ t.IsLongInteger)
    (limit : ℤ) :
    ((∃ tree, parseSource limit false source = .accepted tree) ↔
      ∀ i, ¬ Problem limit.toNat tokens.items i) ∧
    ∀ i, Problem limit.toNat tokens.items i → (∀ j < i, ¬ Problem limit.toNat tokens.items j) →
      ∃ error, parseSource limit false source = .rejected error ∧
        Reports limit.toNat tokens i error.kind error.offset := by
  rcases parseSource_ends ht hlong limit with
    ⟨tree, q, htree, hs, hq⟩ | ⟨error, k, q, herror, hk, hs, hreports⟩
  · have hno := no_problem_of_sentence hs hq
    exact ⟨⟨fun _ => hno, fun _ => ⟨tree, htree⟩⟩, fun i hi => absurd hi (hno i)⟩
  · have hproblem := hreports.problem
    have hbefore : ∀ j < k, ¬ Problem limit.toNat tokens.items j := fun j hj =>
      hs.no_problem hk hj
    refine ⟨⟨fun ⟨tree, htree⟩ => ?_, fun hno => absurd hproblem (hno k)⟩, fun i hi hfirst => ?_⟩
    · rw [herror] at htree
      cases htree
    · have hik : i = k := by
        rcases lt_trichotomy i k with h | h | h
        · exact absurd hi (hbefore i h)
        · exact h
        · exact absurd hproblem (hfirst k h)
      rw [hik]
      exact ⟨error, herror, hreports⟩

/-- The theorem at the source `(x`. -/
theorem parseSource_leftmost_problem_open :
    ∃ tokens, tokenize "(x" = .ok tokens ∧ (∀ t ∈ tokens.items, ¬ t.IsLongInteger) ∧
      ∀ limit : ℤ,
        ((∃ tree, parseSource limit false "(x" = .accepted tree) ↔
          ∀ i, ¬ Problem limit.toNat tokens.items i) ∧
        ∀ i, Problem limit.toNat tokens.items i →
          (∀ j < i, ¬ Problem limit.toNat tokens.items j) →
          ∃ error, parseSource limit false "(x" = .rejected error ∧
            Reports limit.toNat tokens i error.kind error.offset := by
  have ht : tokenize "(x" = .ok ⟨[⟨.openParen, some "(", ⟨0, 1, 1⟩, 1⟩,
      ⟨.name, some "x", ⟨1, 1, 2⟩, 2⟩], ⟨.finish, none, ⟨2, 1, 3⟩, 2⟩⟩ := rfl
  have hlong : ∀ t ∈ [⟨.openParen, some "(", ⟨0, 1, 1⟩, 1⟩,
      (⟨.name, some "x", ⟨1, 1, 2⟩, 2⟩ : Token)], ¬ t.IsLongInteger := by
    simp [Token.IsLongInteger]
  exact ⟨_, ht, hlong, parseSource_leftmost_problem ht hlong⟩

end ArrayExpr
