/-
Errors point at tokens and quote them.

* `Offends.place`: where a failure lies in view of where the reference machine stops;
* `Parser.Fails`: what is wrong with a source: its expression fails, or something
  follows it; `exists_fails`: every error of a source that has tokens says so;
* `Parser.Fails.stands`: it stands in front of a token, the closing one exactly if the
  source ends too early;
* `ParseError.PointsAt`: an error has the offset, the line and the column of one token and
  quotes it;
* `exists_pointsAt`: every error of a source that has tokens points at one of them.
-/
import ArrayExpr.Proofs.Parser.Leftmost
import ArrayExpr.Proofs.Parser.Progress
import ArrayExpr.Proofs.Scanner.Covering

namespace ArrayExpr

open Grammar

/-! ### Streams by their offsets -/

namespace TokenStream

variable {s s₁ s₂ : TokenStream} {t : Token} {v w : List Token}

/-- Offsets tell the streams behind an ordered one apart. -/
lemma Ordered.word_eq_of_offset_eq (hs : s.Ordered) (hv : s.Passes v s₁) (hw : s.Passes w s₂)
    (h : s₁.offset = s₂.offset) : v = w := by
  have heq := hv.ahead_eq.symm.trans hw.ahead_eq
  rcases List.append_eq_append_iff.mp heq with ⟨x, rfl, -⟩ | ⟨x, rfl, -⟩
  · obtain ⟨s₃, hv', hx⟩ := passes_append_iff.mp hw
    rw [hv.unique hv', eq_comm, (hs.passes hv').offset_eq_iff hx] at h
    rw [h, List.append_nil]
  · obtain ⟨s₃, hw', hx⟩ := passes_append_iff.mp hv
    rw [hw.unique hw', (hs.passes hw').offset_eq_iff hx] at h
    rw [h, List.append_nil]

/-- Of tokens in order one alone has its offset. -/
lemma filter_offset_eq {w : List Token}
    (hw : w.Pairwise fun t u => t.start.offset < u.start.offset) (ht : t ∈ w) :
    w.filter (fun u => u.start.offset = t.start.offset) = [t] := by
  obtain ⟨v, x, rfl⟩ := List.append_of_mem ht
  obtain ⟨-, hx, hlt⟩ := List.pairwise_append.mp hw
  have hbefore : ∀ u ∈ v, ¬ decide (u.start.offset = t.start.offset) = true := fun u hu => by
    simpa using (hlt u hu t List.mem_cons_self).ne
  have hbehind : ∀ u ∈ x, ¬ decide (u.start.offset = t.start.offset) = true := fun u hu => by
    simpa using ((List.pairwise_cons.mp hx).1 u hu).ne'
  rw [List.filter_append, List.filter_eq_nil_iff.mpr hbefore, List.nil_append,
    List.filter_cons_of_pos (by simp), List.filter_eq_nil_iff.mpr hbehind]

end TokenStream

variable {source : String} {tokens : Tokens} {limit : ℤ} {allowPartial : Bool} {e : ParseError}
  {g : Failure}

/-! ### Failures of a source -/

namespace Parser

open Rule Reference

/-- **Where a failure lies** in view of where the machine stops: there, in front of the target
that the machine has read, or behind the bracket too much. -/
lemma Offends.place {cap : ℕ} {v w : List Token} {q : State} {s₀ s s₁ : TokenStream}
    (hs : s₀.Ordered) (hw : s₀.Passes w s) (hat : g.LiesAt s) (hv : s₀.Passes v s₁)
    (ho : Offends cap v q s₁ g) :
    g.StopsAt s₁ ∧ w = v ∨
      (g.kind = .invalidAssignmentTarget ∧ ∃ x e, v = w ++ x ∧ Derives .comparison x e) ∨
      (g.kind = .nestingTooDeep ∧ ∃ t, s₁.peek? = some t ∧ w = v ++ [t]) := by
  cases ho with
  | stops _ _ hg _ =>
      exact .inl ⟨hg, hs.word_eq_of_offset_eq hw hv (hat.offset.symm.trans hg.offset)⟩
  | target _ _ _ hleft _ hk ho =>
      obtain ⟨u, rfl⟩ := hleft.suffix
      obtain ⟨s₂, hu, hx⟩ := TokenStream.passes_append_iff.mp hv
      have hoffset := hx.offset_eq hleft.derives.ne_nil
      obtain rfl := hs.word_eq_of_offset_eq hw hu (by rw [← hat.offset, ho, hoffset])
      exact .inr (.inl ⟨hk, _, _, rfl, hleft.derives⟩)
  | @depth t ht _ _ _ hk ho =>
      have hnext := hv.append (TokenStream.passes_one ht)
      exact .inr (.inr ⟨hk, t, ht,
        hs.word_eq_of_offset_eq hw hnext (hat.offset.symm.trans ho)⟩)

/-- What is wrong with a source: its expression fails, or is followed by a token. -/
def Fails (limit : ℤ) (tokens : Tokens) (g : Failure) : Prop :=
  (expr limit limit.toNat).Refuses (.ofTokens tokens) g ∨
    ∃ tree rest, (expr limit limit.toNat).Gives (.ofTokens tokens) tree rest ∧
      rest.atEnd = false ∧ g = .ofKind .trailingInput rest (.named "end of input")

/-- A failure of one of these kinds says that the source ends too early. -/
def endKinds : List ErrorKind := [.unexpectedEndOfInput, .unterminatedBracket]

/-- A failure of one of these kinds blames a token. -/
def tokenKinds : List ErrorKind := [.unexpectedToken, .trailingInput, .invalidAssignmentTarget]

/-- **What is wrong with a source stands in front of a token**, at the end of the tokens
exactly if the source ends too early. -/
lemma Fails.stands (hs : (TokenStream.ofTokens tokens).Ordered) (h : Fails limit tokens g) :
    ∃ w s, (TokenStream.ofTokens tokens).Passes w s ∧ g.LiesAt s ∧
      (g.kind ∈ endKinds → s.atEnd = true) ∧ (g.kind ∈ tokenKinds → s.atEnd = false) := by
  rcases h with h | ⟨tree, rest, h, hend, rfl⟩
  · obtain ⟨w, s, hw, hat⟩ := (starts_expr limit limit.toNat).raises hs h
    refine ⟨w, s, hw, hat, ?_⟩
    obtain ⟨w', s', q, hw', -, ho⟩ := faults_root hs h
    rcases ho.place hs hw hat hw' with ⟨hg, rfl⟩ | ⟨hk, x, _, rfl, hx⟩ | ⟨hk, -⟩
    · rw [hw.unique hw']
      cases hend : s'.atEnd with
      | false => simp [hg.unexpected hend, endKinds]
      | true => rcases hg.finish hend with hk | hk <;> simp [hk, tokenKinds]
    · -- The first token of the target is blamed, so that `s` is not at the end.
      obtain ⟨s₂, hw₂, hx'⟩ := TokenStream.passes_append_iff.mp hw'
      obtain ⟨t, v, rfl⟩ := List.exists_cons_of_ne_nil hx.ne_nil
      have hpeek : s.peek? = some t := by rw [hw.unique hw₂, hx'.1]
      have hend : s.atEnd = false := by
        rw [← Bool.not_eq_true, ← TokenStream.peek?_eq_none_iff, hpeek]
        simp
      simp [hk, hend, endKinds]
    · simp [hk, endKinds, tokenKinds]
  · obtain ⟨w, hw, -⟩ := (reads_expr limit limit.toNat).sound hs h
    exact ⟨w, rest, hw, Failure.liesAt_ofKind _ rest _, by simp [Failure.ofKind, endKinds],
      fun _ => hend⟩

end Parser

/-- **Every error of a source that has tokens** is that of its expression, or says that
something follows it. -/
lemma exists_fails (ht : tokenize source = .ok tokens)
    (h : parseSource limit allowPartial source = .rejected e ∨
      (parse limit source).verdict = .rejected e) :
    ∃ g, Parser.Fails limit tokens g ∧ e = .ofFailure g source.toList := by
  simp only [parseSource, parse, parseTokens, ht, Parser.root, Report.map, Report.ofRun] at h
  rcases Rule.ends (Parser.expr limit limit.toNat) (.ofTokens tokens) with
    ⟨tree, rest, hrun⟩ | ⟨g, hrun⟩ | ⟨n, hrun⟩
  · have htrailing : rest.atEnd = false ∧ trailingError rest source.toList = e := by
      rw [Rule.Gives] at hrun
      cases hend : rest.atEnd <;> cases allowPartial <;> simp_all [Verdict.map]
    exact ⟨_, .inr ⟨tree, rest, hrun, htrailing.1, rfl⟩, htrailing.2.symm⟩
  · refine ⟨g, .inl hrun, ?_⟩
    rw [Rule.Refuses] at hrun
    simpa [hrun, Verdict.map, eq_comm] using h
  · rw [Rule.Overruns] at hrun
    simp [hrun, Verdict.map] at h

/-! ### Errors -/

/-- An error points at one of the tokens of its source. -/
structure ParseError.PointsAt (e : ParseError) (source : List Char) (tokens : Tokens)
    (t : Token) : Prop where
  /-- no other token has its offset -/
  only : tokens.toList.filter (fun u => u.start.offset = e.offset) = [t]
  /-- it quotes the token, unless that is the closing one -/
  found : e.found = if t.kind = .finish then none else some (String.ofList (t.span.text source))
  /-- it has the line and the column that the token has -/
  place : (e.line, e.column) = (t.start.line, t.start.column)
  /-- the source ends too early in front of the closing token -/
  ending : e.kind ∈ Parser.endKinds → t.kind = .finish
  /-- what is blamed is not the closing token -/
  blamed : e.kind ∈ Parser.tokenKinds → t.kind ≠ .finish

/-- **Every error points at a token and quotes it.** -/
theorem exists_pointsAt (ht : tokenize source = .ok tokens)
    (h : parseSource limit allowPartial source = .rejected e ∨
      (parse limit source).verdict = .rejected e) :
    ∃ t, e.PointsAt source.toList tokens t := by
  obtain ⟨g, hg, rfl⟩ := exists_fails ht h
  have hs := tokenize_ordered ht
  have hcovers := covers_of_tokenize ht
  obtain ⟨w, s, hw, hat, hending, hblamed⟩ := hg.stands hs
  have hfinish : s.finish = tokens.finish := hw.finish_eq
  have hmem : s.current ∈ tokens.toList := by
    have hhead := List.mem_of_mem_head? s.offset_eq_head
    rw [Tokens.toList, TokenStream.items_of_passes_ofTokens hw, ← hfinish, List.append_assoc]
    exact List.mem_append_right w hhead
  have hkind : s.current.kind = .finish ↔ s.atEnd = true := by
    refine ⟨fun hk => ?_, (hs.passes hw).current_of_atEnd⟩
    rw [← TokenStream.peek?_eq_none_iff, Option.eq_none_iff_forall_ne_some]
    intro t hpeek
    rw [TokenStream.current_of_peek hpeek] at hk
    refine hcovers.proper t ?_ hk
    rw [TokenStream.items_of_passes_ofTokens hw, TokenStream.ahead_eq_of_peek hpeek]
    simp
  have hplace := hcovers.places s.current hmem
  refine ⟨s.current, ?_, ?_, ?_, fun hk => hkind.mpr (hending hk), fun hk hf => ?_⟩
  · have hoffset : (ParseError.ofFailure g source.toList).offset = s.current.start.offset :=
      hat.offset
    rw [hoffset]
    exact TokenStream.filter_offset_eq hs.increasing hmem
  · rw [ParseError.ofFailure, hat.found]
    split_ifs with hk
    · rw [TokenStream.peek?_eq_none_iff.mpr (hkind.mp hk), Option.map_none]
    · rw [(hs.passes hw).peek_current hk, Option.map_some]
  · rw [hplace, ParseError.line, ParseError.column]
    exact congrArg (lineColumn source.toList) hat.offset
  · rw [hkind, hblamed hk] at hf
    cases hf

/-- A number in front of `=` is blamed, not the `=`. -/
theorem exists_pointsAt_target : ∃ tokens e, tokenize "(1=2)" = .ok tokens ∧
    parseSource 5 false "(1=2)" = .rejected e ∧ e.kind = .invalidAssignmentTarget ∧
      ∃ t, e.PointsAt "(1=2)".toList tokens t := by
  have ht : tokenize "(1=2)" = .ok ⟨[⟨.openParen, some "(", ⟨0, 1, 1⟩, 1⟩,
      ⟨.literal .number, some "1", ⟨1, 1, 2⟩, 2⟩, ⟨.assign, some "=", ⟨2, 1, 3⟩, 3⟩,
      ⟨.literal .number, some "2", ⟨3, 1, 4⟩, 4⟩, ⟨.closeParen, some ")", ⟨4, 1, 5⟩, 5⟩],
      ⟨.finish, none, ⟨5, 1, 6⟩, 5⟩⟩ := rfl
  have h : parseSource 5 false "(1=2)" = .rejected ⟨.invalidAssignmentTarget, 1,
      .named "a name, index, field or [targets] before '='", ['(', '1', '=', '2', ')'], some "1",
      some "parenthesized expression", none⟩ := by
    rw [parseSource, parseTokens, ht]
    cbv
  exact ⟨_, _, ht, h, rfl, exists_pointsAt ht (.inl h)⟩

end ArrayExpr
