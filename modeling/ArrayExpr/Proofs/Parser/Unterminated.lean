/-
Brackets that are left open.

* `parseSource_accepts_iff`: a source is accepted exactly if the reference machine
  takes its tokens to the end of a sentence;
* `bracket_text`: a bracket token is a character of the source;
* `parse_failure`: where a parse fails at the end of input the machine has read all
  tokens, and the failure asks for what is missing;
* `parse_unterminated_iff`: a source that ends too early has an unterminated bracket
  exactly if closing all brackets makes it an expression.
-/
import ArrayExpr.Proofs.Parser.Leftmost
import ArrayExpr.Proofs.Scanner.Covering
import ArrayExpr.Proofs.Scanner.NextLine

namespace ArrayExpr

open Grammar Reference

variable {limit : ℤ} {source : String} {tokens : Tokens}

/-! ### Acceptance -/

/-- **A source is accepted exactly if the machine takes its tokens to the end of a
sentence.** -/
theorem parseSource_accepts_iff (ht : tokenize source = .ok tokens) (limit : ℤ) :
    (∃ tree, parseSource limit false source = .accepted tree) ↔
      ∃ q, Steps True limit.toNat .start tokens.items q ∧ q.sentence? ≠ none := by
  constructor
  · rintro ⟨tree, htree⟩
    rw [parseSource_eq ht] at htree
    rcases Rule.ends (Parser.expr limit limit.toNat) (.ofTokens tokens) with
      ⟨e, rest, h⟩ | ⟨g, h⟩ | ⟨n, h⟩
    · obtain ⟨w, hp, -⟩ := (Parser.reads_expr limit limit.toNat).sound (tokenize_ordered ht) h
      obtain ⟨-, -, ⟨q, hsteps, hq⟩, -⟩ := Parser.steps_root (tokenize_ordered ht) h
      rw [Rule.Gives] at h
      rw [h] at htree
      by_cases hend : rest.atEnd = true
      · have hall := (TokenStream.atEnd_of_passes_ofTokens hp).mp hend
        rw [List.take_of_length_le hall] at hsteps
        exact ⟨q, hsteps, hq⟩
      · simp [hend] at htree
    · rw [Rule.Refuses] at h
      simp [h] at htree
    · rw [Rule.Overruns] at h
      simp [h] at htree
  · rintro ⟨q, hsteps, hq⟩
    rcases parseSource_ends ht (hsteps.short trivial) limit with
      ⟨tree, -, htree, -⟩ | ⟨error, i, -, -, -, -, hreports⟩
    · exact ⟨tree, htree⟩
    · exact absurd hreports.problem (no_problem_of_sentence hsteps hq i)

/-! ### Bracket tokens -/

/-- **A bracket token is a character of the source**, at the line and the column
that it carries. -/
lemma bracket_text (ht : tokenize source = .ok tokens) {o : Token} (ho : o ∈ tokens.items)
    (hk : o.kind.isOpening = true) :
    o.text = some (String.singleton o.kind.openingCharacter) ∧
      source.toList[o.start.offset]? = some o.kind.openingCharacter ∧
      lineColumn source.toList o.start.offset = (o.start.line, o.start.column) := by
  obtain ⟨htiles, -⟩ := tokenize_eq_ok_iff.mp ht
  obtain ⟨front, kind, piece, rest, hsource, rfl, hscan⟩ := htiles.exists_token ho
  have hpiece : piece = [kind.openingCharacter] := by
    have hmem := Lexical.mem_lexeme_of_scan hscan
    have hkind : kind.isOpening = true := hk
    simp only [Kind.isOpening, Bool.or_eq_true, decide_eq_true_eq] at hkind
    have hsymbol : kind.symbol? = some (String.ofList piece) := by
      rcases hkind with rfl | rfl <;> exact hmem
    have hlist : (kind.symbol?.getD "").toList = piece := by
      rw [hsymbol, Option.getD_some, String.toList_ofList]
    rw [← hlist]
    rcases hkind with rfl | rfl <;> rfl
  have hoffset : (Place.origin.after front).offset = front.length := by
    simp [Place.after_offset, Place.origin]
  refine ⟨by rw [hpiece]; rfl, ?_, ?_⟩
  · rw [Lexeme.tokenAt, hoffset, hsource, hpiece, List.getElem?_append_right le_rfl, Nat.sub_self]
    rfl
  · rw [Lexeme.tokenAt, hoffset, hsource, lineColumn_after]

/-- The wording that asks to close a bracket: it quotes the bracket, with its line
and its column. -/
def Kind.closingText (kind : Kind) (line column : ℕ) : String :=
  s!"'{kind.closingCharacter}' to close '{kind.openingCharacter}' from line {line}, col {column}"

lemma closing_text {o : Token} (ht : o.text = some (String.singleton o.kind.openingCharacter)) :
    (Expectation.closing o.kind.closer.describe o).text =
      o.kind.closingText o.start.line o.start.column := by
  have hquote : "' to close '" = "'" ++ " to close '" := rfl
  rw [Expectation.text, ht, Kind.describe_closer, Kind.closingText, hquote]
  simp only [toString, Option.getD_some, String.append_assoc]
  rfl

/-! ### The end of input -/

/-- Where a parse fails at the end of input the machine has read all tokens, and
the failure asks for what is missing. -/
lemma parse_failure {error : ParseError} (h : (parse limit source).verdict = .rejected error)
    (hk : error.kind = .unterminatedBracket ∨ error.kind = .unexpectedEndOfInput) :
    ∃ tokens q g, tokenize source = .ok tokens ∧ error = .ofFailure g source.toList ∧
      Steps True limit.toNat .start tokens.items q ∧ q.sentence? = none ∧
      g.offset = tokens.finish.start.offset ∧ g.Asks tokens.items q := by
  rw [parse, parseTokens] at h
  cases ht : tokenize source with
  | error e =>
      rw [ht] at h
      obtain rfl := Verdict.rejected.inj h
      rcases hk with hk | hk <;> cases hk
  | ok tokens =>
      rw [ht] at h
      rcases Rule.ends (Parser.expr limit limit.toNat) (.ofTokens tokens) with
        ⟨e, rest, hrun⟩ | ⟨g, hrun⟩ | ⟨n, hrun⟩
      · rw [Rule.Gives] at hrun
        simp [Report.map, Report.ofRun, Parser.root, hrun, Verdict.map] at h
      · have hs := tokenize_ordered ht
        obtain ⟨w, s, q, hp, hsteps, hoff⟩ := Parser.faults_root hs hrun
        rw [Rule.Refuses] at hrun
        simp only [Report.map, Report.ofRun, Parser.root, hrun, Verdict.map,
          Verdict.rejected.injEq] at h
        subst h
        cases hoff with
        | stops hq _ hg hask =>
            have hend : s.atEnd = true := by
              by_contra hne
              have hkind := hg.unexpected (Bool.eq_false_iff.mpr hne)
              rcases hk with hk | hk <;> cases hkind.symm.trans hk
            obtain ⟨-, rfl⟩ := TokenStream.take_of_passes_ofTokens hp
            have hall := (TokenStream.atEnd_of_passes_ofTokens hp).mp hend
            have hoffset := TokenStream.offset_of_passes_ofTokens hp
            rw [List.getElem?_eq_none hall] at hoffset
            rw [List.take_of_length_le hall] at hsteps hask
            exact ⟨tokens, q, g, rfl, rfl, hsteps, hq, hg.offset.trans hoffset, hask hend⟩
        | target _ _ _ _ _ hg => rcases hk with hk | hk <;> cases hg.symm.trans hk
        | depth _ _ _ _ hg => rcases hk with hk | hk <;> cases hg.symm.trans hk
      · rw [Rule.Overruns] at hrun
        simp [Report.map, Report.ofRun, Parser.root, hrun, Verdict.map] at h

/-- What an error at the end of a source says about the brackets of its tokens. -/
structure ParseError.TellsOpen (error : ParseError) (limit : ℤ) (source : String)
    (tokens : Tokens) : Prop where
  /-- it stands at the end of the source -/
  offset : error.offset = source.length
  /-- a bracket is unterminated exactly if closing all that are open, on a new line,
  makes the source an expression -/
  mended : error.kind = .unterminatedBracket ↔
    ∃ tree, parseSource limit false
      (source ++ "\n" ++ String.ofList (closers tokens.items)) = .accepted tree
  /-- then the error quotes the innermost open bracket, its line and its column -/
  quoted : error.kind = .unterminatedBracket → ∃ o outer line column,
    unclosed tokens.items = o :: outer ∧
    source.toList[o.start.offset]? = some o.kind.openingCharacter ∧
    lineColumn source.toList o.start.offset = (line, column) ∧
    error.expected.text = o.kind.closingText line column

/-- **An unterminated bracket is one that closing would mend.** Where a source ends
too early, the error says that a bracket is unterminated exactly if the source with
all its brackets closed on a new line is an expression, and then it quotes the
innermost open bracket. -/
theorem parse_unterminated_iff {error : ParseError}
    (h : (parse limit source).verdict = .rejected error)
    (hk : error.kind = .unterminatedBracket ∨ error.kind = .unexpectedEndOfInput) :
    ∃ tokens, tokenize source = .ok tokens ∧ error.TellsOpen limit source tokens := by
  obtain ⟨tokens, q, g, ht, rfl, hsteps, hq, hoffset, hask⟩ := parse_failure h hk
  obtain ⟨-, hfinish⟩ := tokenize_eq_ok_iff.mp ht
  refine ⟨tokens, ht, ?_, ?_, fun hkind => ?_⟩
  · have hend : tokens.finish.start.offset = source.length := by
      rw [hfinish, closingToken, Place.after_offset, Place.origin, Nat.zero_add,
        String.length_toList]
    exact hoffset.trans hend
  · obtain ⟨added, finish, hadded, hkinds⟩ := tokenize_closed ht tokens.items
    rw [parseSource_accepts_iff hadded]
    refine hask.closable_iff.trans ?_
    rw [closable_iff hq (hkinds.trans hsteps.unclosed)]
    constructor
    · rintro ⟨q', hs, hq'⟩
      exact ⟨q', hsteps.append hs, hq'⟩
    · rintro ⟨q', hs, hq'⟩
      obtain ⟨q₁, hs₁, hs'⟩ := steps_append_iff.mp hs
      rw [hsteps.unique hs₁]
      exact ⟨q', hs', hq'⟩
  · obtain ⟨o, outer, hopen, hexpected⟩ := hask.opener hkind
    obtain ⟨hmem, ho⟩ := isOpening_of_mem_unclosed (hopen ▸ List.mem_cons_self : o ∈ unclosed _)
    obtain ⟨htext, hchar, hplace⟩ := bracket_text ht hmem ho
    exact ⟨o, outer, _, _, hopen, hchar, hplace, (congrArg _ hexpected).trans (closing_text htext)⟩

/-- The theorem at the source `f([x`. -/
theorem parse_unterminated_iff_array :
    ∃ error, (parse 2 "f([x").verdict = .rejected error ∧
      (error.kind = .unterminatedBracket ∨ error.kind = .unexpectedEndOfInput) ∧
      ∃ tokens, tokenize "f([x" = .ok tokens ∧ error.TellsOpen 2 "f([x" tokens := by
  have ht : tokenize "f([x" = .ok ⟨[⟨.name, some "f", ⟨0, 1, 1⟩, 1⟩,
      ⟨.openParen, some "(", ⟨1, 1, 2⟩, 2⟩, ⟨.openBracket, some "[", ⟨2, 1, 3⟩, 3⟩,
      ⟨.name, some "x", ⟨3, 1, 4⟩, 4⟩], ⟨.finish, none, ⟨4, 1, 5⟩, 4⟩⟩ := rfl
  have h : (parse 2 "f([x").verdict = .rejected ⟨.unterminatedBracket, 4,
      .closing "']'" ⟨.openBracket, some "[", ⟨2, 1, 3⟩, 3⟩, ['f', '(', '[', 'x'], none,
      some "array literal", none⟩ := by
    rw [parse, parseTokens, ht]
    cbv
  exact ⟨_, h, .inl rfl, parse_unterminated_iff h (.inl rfl)⟩

end ArrayExpr
