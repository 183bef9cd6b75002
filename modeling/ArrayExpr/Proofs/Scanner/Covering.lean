/-
What the tokens of a source cover.

* `gaps`: the stretches in front of tokens, each from the end of the token before;
* `Tokens.Covers`: tokens cut a text into stretches, one behind the other, with
  gaps between them, and know the line and the column where they begin;
* `Tiles.exists_token`: where a token of a text stands in it;
* `Tiles.covers`, `covers_of_tokenize`: a text cut into tokens is covered by them, and so is a
  source by its tokens;
* `tokenize_spread`: the tokens of a source do not overlap;
* `tokenize_covers`: the tokens of a source cover it, and the rounds that read them
  come to an end without leaving it.
-/
import ArrayExpr.Proofs.Grammar.Spread
import ArrayExpr.Proofs.Scanner.Gap
import ArrayExpr.Proofs.Scanner.LexicalGrammar
import ArrayExpr.Proofs.Scanner.Places
import ArrayExpr.Proofs.Scanner.Rounds

namespace ArrayExpr

open Lexeme

/-- The stretches in front of tokens, the first of them from `start` on. -/
def gaps (start : ℕ) : List Token → List Span
  | [] => []
  | t :: w => ⟨start, t.start.offset⟩ :: gaps t.stop w

/-- Tokens cut a text into stretches. -/
structure Tokens.Covers (source : List Char) (tokens : Tokens) : Prop where
  /-- only the closing token is of its kind -/
  proper : ∀ t ∈ tokens.items, t.kind ≠ .finish
  /-- the others are stretches of the text -/
  stretches : ∀ t ∈ tokens.items, Scanner.Stretch source source.length t
  /-- the closing token stands at the end -/
  closing : tokens.finish.kind = .finish ∧ tokens.finish.text = none ∧
    tokens.finish.span = ⟨source.length, source.length⟩
  /-- each token begins behind those before it -/
  separate : tokens.toList.Pairwise fun t u =>
    t.start.offset < u.start.offset ∧ t.stop ≤ u.start.offset
  /-- blanks and comments are all there is between tokens -/
  gaps : ∀ g ∈ gaps 0 tokens.toList, Gap (source.drop g.stop) (g.text source)
  /-- a token begins at the line and the column of its offset -/
  places : ∀ t ∈ tokens.toList,
    (t.start.line, t.start.column) = lineColumn source t.start.offset

/-! ### Gaps -/

/-- Behind `front` and a gap stands the first token, behind this the others. -/
lemma gaps_cons (front gap piece : List Char) (kind : Kind) (tokens : List Token) :
    gaps front.length (tokenAt ((Place.origin.after front).after gap) kind piece :: tokens) =
      ⟨front.length, (front ++ gap).length⟩ :: gaps (front ++ (gap ++ piece)).length tokens := by
  simp [gaps, tokenAt, Place.after_offset, Place.origin, Nat.add_assoc]

/-- The text of a gap. -/
lemma text_gap (front gap rest : List Char) :
    (⟨front.length, (front ++ gap).length⟩ : Span).text (front ++ (gap ++ rest)) = gap := by
  rw [Span.text, ← List.append_assoc, List.take_left, List.drop_left]

namespace Tiles

variable {behind text front : List Char} {place : Place} {tokens : List Token} {t : Token}

/-! ### Where tokens stand -/

/-- A token stands in the text, and the scanner reads it there. -/
theorem exists_token (h : Tiles behind place text tokens) (ht : t ∈ tokens) :
    ∃ front kind piece rest, text = front ++ (piece ++ rest) ∧
      t = tokenAt (place.after front) kind piece ∧
      scan (piece ++ rest ++ behind) = .token kind piece := by
  obtain ⟨v, w, rfl⟩ := List.append_of_mem ht
  obtain ⟨front, back, rfl, -, hw⟩ := h.split
  obtain ⟨gap, kind, piece, rest, rfl, -, rfl, hscan, -⟩ := hw.exists_first
  exact ⟨front ++ gap, kind, piece, rest, (List.append_assoc ..).symm,
    by rw [Place.after_append], hscan⟩

/-- A token lies inside the text. -/
lemma bounds (h : Tiles behind place text tokens) (ht : t ∈ tokens) :
    place.offset ≤ t.start.offset ∧ t.start.offset < t.stop ∧
      t.stop ≤ (place.after text).offset := by
  obtain ⟨front, kind, piece, rest, rfl, rfl, hscan⟩ := h.exists_token ht
  have hpos := List.length_pos_iff.mpr (scan_token hscan).2
  simp only [tokenAt, Place.after_offset, List.length_append]
  omega

/-- Each token begins behind those before it. -/
lemma separate (h : Tiles behind place text tokens) :
    tokens.Pairwise fun t u => t.start.offset < u.start.offset ∧ t.stop ≤ u.start.offset := by
  induction h with
  | nil => exact .nil
  | layout h hne ht ih => exact ih
  | @token place kind piece rest tokens h ht ih =>
      refine List.pairwise_cons.mpr ⟨fun u hu => ?_, ih⟩
      have hpos := List.length_pos_iff.mpr (scan_token h).2
      have hle := (ht.bounds hu).1
      rw [Place.after_offset] at hle
      simp only [tokenAt, Place.after_offset]
      omega

/-- What stands in front of tokens are gaps. -/
lemma gaps_of_tiles (front : List Char) (h : Tiles [] (Place.origin.after front) text tokens) :
    ∀ g ∈ gaps front.length (tokens ++ [closingToken (front ++ text)]),
      Gap ((front ++ text).drop g.stop) (g.text (front ++ text)) := by
  have hnil : Readable [] := fun problem => Scan.noConfusion
  induction tokens generalizing front text with
  | nil =>
      intro g hg
      obtain rfl : g = ⟨front.length, (front ++ text).length⟩ := by
        simpa [gaps, closingToken] using hg
      rw [List.drop_length, Span.text, List.take_length, List.drop_left]
      exact h.gap hnil
  | cons t tokens ih =>
      obtain ⟨gap, kind, piece, rest, rfl, hgap, rfl, hscan, hw⟩ := h.exists_first
      rw [← Place.after_append, ← Place.after_append] at hw
      have hsource : front ++ (gap ++ piece) ++ rest = front ++ (gap ++ (piece ++ rest)) := by simp
      have hrest := ih _ hw
      rw [hsource] at hrest
      intro g hg
      rw [List.cons_append, gaps_cons] at hg
      rcases List.mem_cons.mp hg with rfl | hg
      · rw [text_gap, ← List.append_assoc, List.drop_left]
        rw [List.append_nil] at hgap hscan
        refine hgap.gap fun problem hproblem => ?_
        cases hscan.symm.trans hproblem
      · exact hrest g hg

/-- **A text cut into tokens is covered by them.** -/
theorem covers (h : Tiles [] .origin text tokens) :
    (⟨tokens, closingToken text⟩ : Tokens).Covers text := by
  have hend := Place.after_origin_offset text
  refine ⟨fun t ht => ?_, fun t ht => ?_, ⟨rfl, rfl, ?_⟩, ?_, h.gaps_of_tiles [], ?_⟩
  · obtain ⟨front, kind, piece, rest, -, rfl, hscan⟩ := h.exists_token ht
    rintro rfl
    cases Lexical.mem_lexeme_of_scan hscan
  · obtain ⟨-, hnonempty, hbound⟩ := h.bounds ht
    exact ⟨hnonempty, hend ▸ hbound, h.text_eq ht⟩
  · rw [Token.span, closingToken, hend]
  · refine List.pairwise_append.mpr ⟨h.separate, List.pairwise_singleton _ _, ?_⟩
    intro t ht u hu
    obtain rfl := List.mem_singleton.mp hu
    obtain ⟨-, hnonempty, hbound⟩ := h.bounds ht
    exact ⟨Nat.lt_of_lt_of_le hnonempty hbound, hbound⟩
  · intro t ht
    rcases List.mem_append.mp ht with ht | ht
    · obtain ⟨front, kind, piece, rest, rfl, rfl, -⟩ := h.exists_token ht
      rw [tokenAt, Place.after_origin_offset, lineColumn_after]
    · obtain rfl := List.mem_singleton.mp ht
      have hplace := lineColumn_after text []
      rw [List.append_nil] at hplace
      rw [closingToken, hend, hplace]

end Tiles

/-! ### The tokens of a source -/

/-- The tokens of a source do not overlap. -/
lemma tokenize_spread {source : String} {tokens : Tokens} (h : tokenize source = .ok tokens) :
    Grammar.Spread tokens.items := by
  obtain ⟨htiles, -⟩ := tokenize_eq_ok_iff.mp h
  exact ⟨fun t ht => (htiles.bounds ht).2.1, htiles.separate.imp And.right⟩

/-- A source that has tokens is covered by them. -/
lemma covers_of_tokenize {source : String} {tokens : Tokens} (h : tokenize source = .ok tokens) :
    tokens.Covers source.toList := by
  obtain ⟨htiles, hfinish⟩ := tokenize_eq_ok_iff.mp h
  have hcovers := htiles.covers
  rwa [← hfinish] at hcovers

/-- **The tokens of a source cover it.** The rounds that read them come to an end;
each of them is refused or goes on, and none leaves the source. -/
theorem tokenize_covers (source : String) :
    (∀ tokens, tokenize source = .ok tokens → tokens.Covers source.toList) ∧
      (∃ s, (Scanner.ofSource source.toList).Reaches s ∧
        s.Halts (Scanner.ofSource source.toList).scanAll) ∧
      ∀ s, (Scanner.ofSource source.toList).Reaches s → s.Inside source.toList ∧
        ((∃ r e, s.scanToken = ⟨r, some e⟩) ∨
          ∃ s' : Scanner, s.scanToken = s'.accepted ∧ s.here.offset < s'.here.offset ∧
            s'.here.offset ≤ source.toList.length) := by
  refine ⟨fun tokens h => covers_of_tokenize h, Scanner.exists_halt _, fun s hs => ?_⟩
  have hinside := (Scanner.inside_ofSource source.toList).reaches hs
  refine ⟨hinside, hinside.progress.imp id ?_⟩
  rintro ⟨s', h, hlt, hinside'⟩
  exact ⟨s', h, hlt, hinside'.bound⟩

/-- A name behind a comment. -/
theorem tokenize_covers_comment :
    ∃ tokens, tokenize "#a\nx" = .ok tokens ∧ tokens.Covers "#a\nx".toList := by
  have h : tokenize "#a\nx" = .ok ⟨[⟨.name, some "x", ⟨3, 2, 1⟩, 4⟩],
      ⟨.finish, none, ⟨4, 2, 2⟩, 4⟩⟩ := rfl
  exact ⟨_, h, (tokenize_covers "#a\nx").1 _ h⟩

end ArrayExpr
