/-
The nesting limit only cuts off.

* `Layouts.refl`: one layout as both; there what corresponds is equal;
* `parseTokens_limit`: unless a parse is cut off by its limit, every larger
  limit gives the same report;
* `parse_limit`: moreover, a source that a larger limit accepts is accepted
  exactly if no more brackets than the limit are open at once in the tokens
  that were read.
-/
import ArrayExpr.Proofs.Layout.Parser
import ArrayExpr.Proofs.Parser.Acceptance

namespace ArrayExpr

open Grammar

namespace Layouts

/-- One layout as both layouts. -/
def refl (tokens : Tokens) (h : (TokenStream.ofTokens tokens).Ordered) : Layouts :=
  ⟨tokens, tokens, List.forall₂_same.mpr fun _ _ => ⟨rfl, rfl⟩, h, h⟩

section Refl

variable {tokens : Tokens} {h : (TokenStream.ofTokens tokens).Ordered} {t t' : Token}
  {sp sp' : Span} {e e' : Expr} {g g' : Failure} {s s' : TokenStream}

/-- In one layout matched tokens are equal. -/
lemma Same.eq (ht : (refl tokens h).Same t t') : t = t' := by
  obtain ⟨i, hi, hi'⟩ := ht
  exact Option.some.inj (hi.symm.trans hi')

/-- So are matched offsets. -/
lemma Offsets.eq {o o' : ℕ} (ho : (refl tokens h).Offsets o o') : o = o' := by
  obtain ⟨t, t', ht, rfl, rfl⟩ := ho
  rw [ht.eq]

/-- So are matched spans. -/
lemma Spans.eq (hs : (refl tokens h).Spans sp sp') : sp = sp' := by
  obtain ⟨t, t', u, u', ht, hu, rfl, rfl⟩ := hs
  rw [ht.eq, hu.eq]

/-- So are matched trees. -/
lemma Trees.eq (he : (refl tokens h).Trees e e') : e = e' := by
  obtain ⟨t, rfl, rfl⟩ := he
  exact congrArg (Tree.relabel · t) (funext fun p => p.property.eq)

/-- So are matched failures. -/
lemma Failures.eq (hg : (refl tokens h).Failures g g') : g = g' := by
  obtain ⟨kind, offset, expected, found, alternative⟩ := g
  obtain ⟨kind', offset', expected', found', alternative'⟩ := g'
  have hexpected : expected = expected' := by
    cases hg.expected with
    | named what => rfl
    | closing what opener => rw [opener.eq]
    | nesting limit => rfl
  have hfound : found = found' := by
    have := hg.found
    cases this with
    | none => rfl
    | some hf => rw [Same.eq hf]
  obtain rfl : kind = kind' := hg.kind
  obtain rfl : offset = offset' := hg.offset.eq
  obtain rfl : alternative = alternative' := hg.alternative
  rw [hexpected, hfound]

/-- So are matched streams. -/
lemma Streams.eq (hs : (refl tokens h).Streams s s') : s = s' := by
  obtain ⟨v, v', hlen, hv, hv'⟩ := hs
  have hw : v ++ s.ahead = v' ++ s'.ahead :=
    (TokenStream.items_of_passes_ofTokens hv).symm.trans
      (TokenStream.items_of_passes_ofTokens hv')
  obtain ⟨rfl, -⟩ := List.append_inj hw hlen
  exact hv.unique hv'

/-- Runs over one layout are equal, unless the first is cut off. -/
lemma Runs.eq_or_deep {tighter : Prop} {n : ℕ} {run run' : Run Expr}
    (hr : (refl tokens h).Runs tighter (refl tokens h).Trees n run run') :
    run' = run ∨ ∃ g, run.outcome = .failure g ∧ g.kind = .nestingTooDeep := by
  cases hr with
  | success value streams moved => exact .inl (by rw [value.eq, streams.eq])
  | failure failures => exact .inl (by rw [failures.eq])
  | overlong n visits => exact .inl rfl
  | @cut g visits run' h deep => exact .inr ⟨g, rfl, deep⟩

end Refl

end Layouts

variable {source : String} {limit limit' : ℤ}

lemma Report.ofRun_failure {run : Run Expr} {g : Failure} {text : List Char}
    (h : run.outcome = .failure g) :
    (Report.ofRun text run).verdict = .rejected (.ofFailure g text) := by
  obtain ⟨outcome, visits⟩ := run
  obtain rfl : outcome = _ := h
  rfl

lemma parse_rejected_iff {e : ParseError} :
    (parse limit source).verdict = .rejected e ↔
      (parseTokens limit source).verdict = .rejected e := by
  rw [parse, Report.map]
  cases (parseTokens limit source).verdict <;> simp [Verdict.map]

/-- Unless a parse is cut off by its limit, a larger limit changes nothing. -/
lemma parseTokens_limit (hle : limit ≤ limit')
    (h : ∀ e, (parseTokens limit source).verdict = .rejected e → e.kind ≠ .nestingTooDeep) :
    parseTokens limit' source = parseTokens limit source := by
  rw [parseTokens, parseTokens]
  cases ht : tokenize source with
  | error e => rfl
  | ok tokens =>
      have hs := tokenize_ordered ht
      have heq : limit < limit' ∨ limit = limit' ∧ limit.toNat = limit'.toNat := by omega
      have hagree := Layouts.agree_expr (Layouts.refl tokens hs) (Int.toNat_le_toNat hle) heq
        _ _ Layouts.streams_ofTokens
      rcases hagree.eq_or_deep with heq | ⟨g, hg, hdeep⟩
      · exact congrArg (Report.ofRun source.toList) heq
      · refine absurd hdeep (h (.ofFailure g source.toList) ?_)
        rw [parseTokens, ht]
        exact Report.ofRun_failure hg

/-- The brackets that an accepted source opens inside each other are within the
limit, and a limit that allows them accepts the same. -/
lemma parseTokens_accepted_iff_atMostOpen {tokens : Tokens} (ht : tokenize source = .ok tokens)
    {tree : Expr} {rest : TokenStream}
    (h : (parseTokens limit' source).verdict = .accepted (tree, rest)) :
    (parseTokens limit source).verdict = .accepted (tree, rest) ↔
      AtMostOpen limit.toNat (tokens.items.take rest.index) := by
  have hs := tokenize_ordered ht
  rw [parseTokens_accepted_iff ht] at h ⊢
  obtain ⟨w, hp, ⟨hd, hf⟩, hstop⟩ := (Parser.reads_expr limit' limit'.toNat).sound hs h
  obtain ⟨-, rfl⟩ := TokenStream.take_of_passes_ofTokens hp
  have hr := Parser.reads_expr limit limit.toNat
  constructor
  · intro hg
    obtain ⟨w, hp', ⟨-, hf'⟩, -⟩ := hr.sound hs hg
    obtain ⟨-, rfl⟩ := TokenStream.take_of_passes_ofTokens hp'
    exact hf'.bounds.depth
  · intro hdepth
    exact hr.complete hs hp ⟨hd, hf.targets, hdepth, hf.bounds.short⟩ hstop

/-- **The nesting limit only cuts off.** A larger limit gives the same report,
tree, spans, error and visits, unless the parse failed for its limit; and a
source that the larger limit accepts is accepted exactly if no more brackets
than the limit are open at once in the tokens that were read. -/
theorem parse_limit (hle : limit ≤ limit') :
    ((∀ e, (parse limit source).verdict = .rejected e → e.kind ≠ .nestingTooDeep) →
        parse limit' source = parse limit source) ∧
      ∀ tree rest, (parseTokens limit' source).verdict = .accepted (tree, rest) →
        ∃ tokens, tokenize source = .ok tokens ∧
          ((∃ parsed, (parse limit source).verdict = .accepted parsed) ↔
            AtMostOpen limit.toNat (tokens.items.take rest.index)) := by
  constructor
  · intro h
    rw [parse, parse, parseTokens_limit hle fun e he => h e (parse_rejected_iff.mpr he)]
  · intro tree rest h
    cases ht : tokenize source with
    | error e =>
        rw [parseTokens, ht] at h
        cases h
    | ok tokens =>
        refine ⟨tokens, rfl, ?_⟩
        rw [← parseTokens_accepted_iff_atMostOpen ht h]
        constructor
        · rintro ⟨parsed, hp⟩
          have hnot : ∀ e, (parseTokens limit source).verdict ≠ .rejected e := fun e he => by
            rw [parse_rejected_iff.mpr he] at hp
            cases hp
          rw [← parseTokens_limit hle fun e he => absurd he (hnot e)]
          exact h
        · exact fun hp => ⟨_, parse_verdict_eq hp⟩

/-- The theorem at the source `f()()` and the limits one and two: calls next to
each other do not add up. -/
theorem parse_limit_calls :
    (1 : ℤ) ≤ 2 ∧ parse 2 "f()()" = parse 1 "f()()" ∧
      ∃ tree rest, (parseTokens 2 "f()()").verdict = .accepted (tree, rest) ∧
        ∃ tokens, tokenize "f()()" = .ok tokens ∧
          ((∃ parsed, (parse 1 "f()()").verdict = .accepted parsed) ↔
            AtMostOpen (1 : ℤ).toNat (tokens.items.take rest.index)) := by
  have ht : tokenize "f()()" = .ok ⟨[⟨.name, some "f", ⟨0, 1, 1⟩, 1⟩,
      ⟨.openParen, some "(", ⟨1, 1, 2⟩, 2⟩, ⟨.closeParen, some ")", ⟨2, 1, 3⟩, 3⟩,
      ⟨.openParen, some "(", ⟨3, 1, 4⟩, 4⟩, ⟨.closeParen, some ")", ⟨4, 1, 5⟩, 5⟩],
      ⟨.finish, none, ⟨5, 1, 6⟩, 5⟩⟩ := rfl
  have haccepted : ∀ limit : ℤ, limit = 1 ∨ limit = 2 → (parseTokens limit "f()()").verdict =
      .accepted (⟨.call ⟨.call ⟨.name "f", ⟨0, 1⟩⟩ [], ⟨0, 3⟩⟩ [], ⟨0, 5⟩⟩,
        ⟨5, 5, [], ⟨.finish, none, ⟨5, 1, 6⟩, 5⟩⟩) := by
    rintro limit (rfl | rfl) <;> rw [parseTokens, ht] <;> cbv
  obtain ⟨hsame, hdepth⟩ := @parse_limit "f()()" 1 2 (by decide)
  refine ⟨by decide, hsame fun e he => ?_, _, _, haccepted 2 (.inr rfl),
    hdepth _ _ (haccepted 2 (.inr rfl))⟩
  rw [parse_rejected_iff, haccepted 1 (.inl rfl)] at he
  cases he

end ArrayExpr
