/-
The tokens read from a source, whether it is refused or not.

* `Scanner.emitted_of_refused`: a round that is refused reads no token;
* `Scanner.Cuts`: between two states of a scanner a text was passed that is cut into the
  tokens read meanwhile; `Cuts.round`, `Cuts.reaches`: so it is over a round, and over any
  number of rounds;
* `Token.ClosesAt`: a closing token at an offset;
* `emitted`: the tokens read from a source, without the closing one;
* `tiles_emitted`: they cut the source up to its end, or up to where it is refused.
-/
import ArrayExpr.Proofs.Scanner.Rounds

namespace ArrayExpr

open Lexeme (scan)

namespace Scanner

variable {s r t : Scanner} {e : ScanError}

/-! ### Refused rounds -/

lemma scanString_emitted (s : Scanner) (h : s.scanString = ⟨r, some e⟩) :
    r.emitted = s.emitted := by
  rw [scanString] at h
  split_ifs at h
  · cases h
    rfl
  · cases h

lemma scanNumber_emitted (s : Scanner) (h : s.scanNumber = ⟨r, some e⟩) :
    r.emitted = s.emitted := by
  rw [scanNumber] at h
  split_ifs at h
  · cases h
    rfl
  · cases h

lemma scanOperator_emitted (s : Scanner) (h : s.scanOperator = ⟨r, some e⟩) :
    r.emitted = s.emitted := by
  rw [scanOperator] at h
  split at h
  · cases h
  · cases h
    rfl

/-- **A refused round reads no token.** Layout, comments and words are never refused. -/
lemma emitted_of_refused (h : s.scanToken = ⟨r, some e⟩) : r.emitted = s.emitted := by
  rw [scanToken] at h
  dsimp only at h
  split_ifs at h
  · cases h
  · cases h
  · exact scanString_emitted s.mark h
  · exact scanNumber_emitted s.mark h
  · cases h
  · exact scanOperator_emitted s.mark h

lemma refusal_of_refused (hne : s.ahead ≠ []) (h : s.scanToken = ⟨r, some e⟩) :
    ∃ problem, scan s.ahead = .refusal problem := by
  have hdoes := does_scanToken hne
  generalize hscan : scan s.ahead = found at hdoes
  generalize hr : s.scanToken = scanned at hdoes
  cases hdoes with
  | layout => cases hr.symm.trans h
  | token => cases hr.symm.trans h
  | refusal => exact ⟨_, rfl⟩

/-! ### What rounds read -/

/-- From `s` to `t` a text was passed, and it is cut into the tokens read on the way. -/
def Cuts (s t : Scanner) : Prop :=
  ∃ text tokens, s.ahead = text ++ t.ahead ∧ Tiles t.ahead s.here text tokens ∧
    t.here = s.here.after text ∧ t.emitted = tokens.reverse ++ s.emitted

lemma Cuts.refl (s : Scanner) : s.Cuts s := ⟨[], [], rfl, .nil _, rfl, rfl⟩

/-- One round passes layout, or reads a token. -/
lemma Cuts.round (h : s.Round r) (hr : r.Cuts t) : s.Cuts t := by
  obtain ⟨hne, hround⟩ := h
  obtain ⟨text, tokens, hahead, htiles, hhere, hemitted⟩ := hr
  have hdoes := does_scanToken hne
  rw [hround] at hdoes
  generalize hscan : scan s.ahead = found at hdoes
  generalize hr : r.accepted = scanned at hdoes
  cases hdoes with
  | @layout piece rest h =>
      cases hr
      have hrest : rest = text ++ t.ahead := hahead
      have hpiece := (Lexeme.scan_layout hscan hne).2
      rw [h, hrest, ← List.append_assoc] at hscan
      refine ⟨piece ++ text, tokens, ?_, .layout hscan hpiece htiles, ?_, hemitted⟩
      · rw [h, hrest, List.append_assoc]
      · rw [hhere, Place.after_append]
        rfl
  | @token kind piece rest h =>
      cases hr
      have hrest : rest = text ++ t.ahead := hahead
      rw [h, hrest, ← List.append_assoc] at hscan
      refine ⟨piece ++ text, Lexeme.tokenAt s.here kind piece :: tokens, ?_,
        .token hscan htiles, ?_, ?_⟩
      · rw [h, hrest, List.append_assoc]
      · rw [hhere, Place.after_append]
        rfl
      · rw [hemitted, List.reverse_cons, List.append_assoc]
        rfl
  | refusal => cases hr

/-- **Any number of rounds cut a text into the tokens that they read.** -/
theorem Cuts.reaches (h : s.Reaches t) : s.Cuts t := by
  induction h using Relation.ReflTransGen.head_induction_on with
  | refl => exact .refl t
  | head hround _ ih => exact .round hround ih

end Scanner

/-! ### The tokens read from a source -/

/-- A closing token at an offset. -/
def Token.ClosesAt (t : Token) (offset : ℕ) : Prop :=
  t.kind = .finish ∧ t.text = none ∧ t.span = ⟨offset, offset⟩

lemma closesAt_closingToken (source : List Char) :
    (closingToken source).ClosesAt source.length := by
  refine ⟨rfl, rfl, ?_⟩
  simp [closingToken, Token.span]

/-- The tokens read from a source, the first one first. If the source is refused these are
the tokens in front of the refusal; the closing token is not among them. -/
def emitted (source : String) : List Token :=
  (Scanner.ofSource source.toList).scanAll.scanner.emitted.reverse

/-- **The tokens read from a source cut it** up to its end or up to where it is refused. -/
theorem tiles_emitted (source : String) :
    ∃ front rest, source.toList = front ++ rest ∧ Tiles rest .origin front (emitted source) ∧
      (rest = [] ∨ ∃ problem, scan rest = .refusal problem) := by
  obtain ⟨s, hreaches, hhalts⟩ := Scanner.exists_halt (.ofSource source.toList)
  obtain ⟨front, tokens, hsource, htiles, hhere, hemitted⟩ := Scanner.Cuts.reaches hreaches
  have hread : s.emitted.reverse = tokens := by
    rw [hemitted]
    simp [Scanner.ofSource]
  rw [← hread] at htiles
  refine ⟨front, s.ahead, hsource, ?_, ?_⟩
  · generalize hall : (Scanner.ofSource source.toList).scanAll = r at hhalts
    rw [emitted, hall]
    cases hhalts with
    | done => exact htiles
    | refused hne h =>
        rw [Scanner.emitted_of_refused h]
        exact htiles
  · generalize (Scanner.ofSource source.toList).scanAll = r at hhalts
    cases hhalts with
    | done h => exact .inl h
    | refused hne h => exact .inr (Scanner.refusal_of_refused hne h)

end ArrayExpr
