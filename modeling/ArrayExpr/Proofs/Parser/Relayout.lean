/-
Parsing looks at tokens only.

* `Layouts.ofSources`: two sources whose tokens are alike, as layouts;
* `Layouts.Verdicts`: verdicts that differ at most in the places they name;
* `parse_relayout`: sources with alike tokens have such verdicts, and their
  parses pay the same visits.
-/
import ArrayExpr.Proofs.Layout.Parser
import ArrayExpr.Proofs.Scanner.Tiling
import ArrayExpr.Parser.Parse

namespace ArrayExpr

variable {source source' : String} {tokens tokens' : Tokens}

/-- An error quotes the text of the token found. -/
lemma tokenize_quoted (h : tokenize source = .ok tokens) {t : Token} (ht : t ∈ tokens.toList) :
    String.ofList (t.span.text source.toList) = t.text.getD "" := by
  rw [Tokens.toList, List.mem_append, List.mem_singleton] at ht
  rcases ht with ht | rfl
  · rw [tokenize_text h ht]
    rfl
  · rw [(tokenize_eq_ok_iff.mp h).2]
    simp [closingToken, Token.span, Span.text, Place.after_offset, Place.origin]

namespace Layouts

/-- Two sources whose tokens are alike. -/
def ofSources (h : tokenize source = .ok tokens) (h' : tokenize source' = .ok tokens')
    (halike : List.Forall₂ Token.Alike tokens.items tokens'.items) : Layouts where
  first := tokens
  second := tokens'
  alike := by
    rw [Tokens.toList, Tokens.toList, (tokenize_eq_ok_iff.mp h).2, (tokenize_eq_ok_iff.mp h').2]
    exact List.rel_append halike (.cons ⟨rfl, rfl⟩ .nil)
  first_ordered := tokenize_ordered h
  second_ordered := tokenize_ordered h'

/-- Verdicts that differ at most in the places they name: equal trees behind
the same token, with spans of the same tokens; errors at the same token, that
quote the same; or the same overlong integer. -/
inductive Verdicts (L : Layouts) :
    Verdict (Expr × TokenStream) → Verdict (Expr × TokenStream) → Prop
  | accepted {e e' : Expr} {rest rest' : TokenStream} (same : e.same e' = true)
      (consumed : rest.index = rest'.index)
      (spans : List.Forall₂ (fun n n' => L.Spans n.span n'.span) e.walk e'.walk) :
      Verdicts L (.accepted (e, rest)) (.accepted (e', rest'))
  | rejected {e e' : ParseError} (kind : e.kind = e'.kind) (offset : L.Offsets e.offset e'.offset)
      (expected : L.Expectations e.expected e'.expected) (found : e.found = e'.found)
      (alternative : e.alternative = e'.alternative) :
      Verdicts L (.rejected e) (.rejected e')
  | overlong (digits : ℕ) : Verdicts L (.overlong digits) (.overlong digits)

variable {h : tokenize source = .ok tokens} {h' : tokenize source' = .ok tokens'}
  {halike : List.Forall₂ Token.Alike tokens.items tokens'.items} {g g' : Failure}

/-- Failures that name the same tokens are reported alike. -/
lemma Failures.rejected (hg : (ofSources h h' halike).Failures g g') :
    (ofSources h h' halike).Verdicts (.rejected (.ofFailure g source.toList))
      (.rejected (.ofFailure g' source'.toList)) := by
  refine .rejected hg.kind hg.offset hg.expected ?_ hg.alternative
  have hfound := hg.found
  simp only [ParseError.ofFailure]
  generalize g.found = found at hfound
  generalize g'.found = found' at hfound
  cases hfound with
  | none => rfl
  | @some t t' hsame =>
      obtain ⟨i, ht, ht'⟩ := id hsame
      rw [Option.map_some, Option.map_some, tokenize_quoted h (List.mem_of_getElem? ht),
        tokenize_quoted h' (List.mem_of_getElem? ht'), hsame.alike.text]

end Layouts

/-- **Parsing looks at tokens only.** Two sources whose tokens agree in kind and
text have the same verdict under every limit, up to the places it names, and
their parses pay the same visits. -/
theorem parse_relayout (h : tokenize source = .ok tokens) (h' : tokenize source' = .ok tokens')
    (halike : List.Forall₂ Token.Alike tokens.items tokens'.items) (limit : ℤ) :
    (parseTokens limit source).visits = (parseTokens limit source').visits ∧
      (Layouts.ofSources h h' halike).Verdicts (parseTokens limit source).verdict
        (parseTokens limit source').verdict := by
  have hruns := (Layouts.ofSources h h' halike).agree_expr_self limit limit.toNat _ _
    Layouts.streams_ofTokens
  change Layouts.Runs _ _ _ _ (Parser.root limit (.ofTokens tokens))
    (Parser.root limit (.ofTokens tokens')) at hruns
  rw [parseTokens, parseTokens, h, h']
  dsimp only
  generalize Parser.root limit (.ofTokens tokens) = run at hruns
  generalize Parser.root limit (.ofTokens tokens') = run' at hruns
  cases hruns with
  | success value streams moved =>
      have hsame : Expr.same _ _ = true := decide_eq_true value.shape_eq
      exact ⟨rfl, .accepted hsame streams.index_eq (value.walk.imp fun _ _ => Layouts.Trees.spans)⟩
  | failure failures => exact ⟨rfl, failures.rejected⟩
  | overlong n visits => exact ⟨rfl, .overlong n⟩
  | cut hlt deep => exact absurd hlt (lt_irrefl limit)

/-- The theorem at the sources `-x` and `- x#`. -/
theorem parse_relayout_comment :
    ∃ tokens tokens', ∃ (h : tokenize "-x" = .ok tokens) (h' : tokenize "- x#" = .ok tokens')
      (halike : List.Forall₂ Token.Alike tokens.items tokens'.items), ∀ limit,
        (parseTokens limit "-x").visits = (parseTokens limit "- x#").visits ∧
          (Layouts.ofSources h h' halike).Verdicts (parseTokens limit "-x").verdict
            (parseTokens limit "- x#").verdict := by
  have h : tokenize "-x" = .ok ⟨[⟨.arith .minus, some "-", ⟨0, 1, 1⟩, 1⟩,
      ⟨.name, some "x", ⟨1, 1, 2⟩, 2⟩], ⟨.finish, none, ⟨2, 1, 3⟩, 2⟩⟩ := rfl
  have h' : tokenize "- x#" = .ok ⟨[⟨.arith .minus, some "-", ⟨0, 1, 1⟩, 1⟩,
      ⟨.name, some "x", ⟨2, 1, 3⟩, 3⟩], ⟨.finish, none, ⟨4, 1, 5⟩, 4⟩⟩ := rfl
  exact ⟨_, _, h, h', .cons ⟨rfl, rfl⟩ (.cons ⟨rfl, rfl⟩ .nil), parse_relayout h h' _⟩

end ArrayExpr
