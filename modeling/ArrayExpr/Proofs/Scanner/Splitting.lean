/-
Sources cut where their tokens stand.

* `Token.Lowered`, `Tiles.lower`: tokens as they stand in a text that begins later;
* `SplitsAt`: a source can be cut behind a token and, unless it is refused, in front of it;
  `splitsAt_emitted`: behind and in front of every token read from it;
* `RefusedAt`: where a source is refused it can be cut too, and the error of a parse is
  the one at this place; `refusedAt_of_error`;
* `tokenize_splits`: all of this for every source.
-/
import ArrayExpr.Parser.Parse
import ArrayExpr.Proofs.Scanner.Emitted
import ArrayExpr.Proofs.Scanner.Excerpt
import ArrayExpr.Proofs.Scanner.Places

namespace ArrayExpr

open Lexeme (scan tokenAt)

/-! ### Tokens moved -/

/-- The token `u` is `t` in a text that begins `d` characters later. -/
structure Token.Lowered (d : ℕ) (t u : Token) : Prop where
  kind : u.kind = t.kind
  text : u.text = t.text
  start : u.start.offset + d = t.start.offset
  stop : u.stop + d = t.stop

namespace Tiles

variable {behind text : List Char} {place place' : Place} {tokens : List Token}

/-- A text that begins `d` characters earlier has its tokens `d` characters earlier. -/
lemma lower (h : Tiles behind place text tokens) {d : ℕ}
    (hd : place'.offset + d = place.offset) :
    ∃ tokens', Tiles behind place' text tokens' ∧
      List.Forall₂ (Token.Lowered d) tokens tokens' := by
  have hafter : ∀ {p q : Place} (piece : List Char), q.offset + d = p.offset →
      (q.after piece).offset + d = (p.after piece).offset := by
    intro p q piece hpq
    rw [Place.after_offset, Place.after_offset]
    omega
  induction h generalizing place' with
  | nil place => exact ⟨[], .nil place', .nil⟩
  | @layout place piece rest tokens h hne ht ih =>
      obtain ⟨tokens', ht', hlowered⟩ := ih (hafter piece hd)
      exact ⟨tokens', .layout h hne ht', hlowered⟩
  | @token place kind piece rest tokens h ht ih =>
      obtain ⟨tokens', ht', hlowered⟩ := ih (hafter piece hd)
      exact ⟨_, .token h ht', .cons ⟨rfl, rfl, hd, hafter piece hd⟩ hlowered⟩

end Tiles

/-! ### Cuts at a token -/

/-- A source, from which the tokens `u`, then `t`, then `w` are read, can be cut behind `t`
and in front of it. -/
structure SplitsAt (source : String) (u : List Token) (t : Token) (w : List Token) : Prop where
  /-- the text up to the end of the token has the tokens up to it -/
  front : ∃ finish, tokenize (String.ofList (source.toList.take t.stop)) =
    .ok ⟨u ++ [t], finish⟩ ∧ finish.ClosesAt t.stop
  /-- unless the source is refused, the text from the token on has the tokens from it on -/
  back : ∀ tokens, tokenize source = .ok tokens →
    ∃ tokens', tokenize (String.ofList (source.toList.drop t.start.offset)) = .ok tokens' ∧
      List.Forall₂ (Token.Lowered t.start.offset) (t :: w ++ [tokens.finish]) tokens'.toList

variable {source : String} {tokens : Tokens} {u w : List Token} {t : Token} {e : ScanError}

lemma items_eq_emitted (h : tokenize source = .ok tokens) : tokens.items = emitted source := by
  rw [tokenize] at h
  rw [emitted]
  generalize (Scanner.ofSource source.toList).scanAll = r at h ⊢
  split at h
  · rw [← Except.ok.inj h]
    rfl
  · cases h

/-- The text from a token on has the tokens from it on. -/
lemma tokenize_drop (h : tokenize source = .ok tokens) (hitems : tokens.items = u ++ t :: w) :
    ∃ tokens', tokenize (String.ofList (source.toList.drop t.start.offset)) = .ok tokens' ∧
      List.Forall₂ (Token.Lowered t.start.offset) (t :: w ++ [tokens.finish])
        tokens'.toList := by
  obtain ⟨htiles, hfinish⟩ := tokenize_eq_ok_iff.mp h
  rw [hitems] at htiles
  obtain ⟨front, back, hsource, -, hback⟩ := htiles.split
  obtain ⟨gap, kind, piece, rest, rfl, -, rfl, hscan, hw⟩ := hback.exists_first
  set place := (Place.origin.after front).after gap with hplace
  have hoffset : place.offset = (front ++ gap).length := by
    rw [hplace, ← Place.after_append, Place.after_origin_offset]
  have hdrop : source.toList.drop (tokenAt place kind piece).start.offset = piece ++ rest := by
    rw [hsource, tokenAt, hoffset, ← List.append_assoc, List.drop_left]
  have hzero : Place.origin.offset + place.offset = place.offset := Nat.zero_add _
  obtain ⟨items, hitems', hlowered⟩ := (Tiles.token hscan hw).lower hzero
  refine ⟨⟨items, closingToken (piece ++ rest)⟩, ?_, ?_⟩
  · rw [hdrop, tokenize_eq_ok_iff, String.toList_ofList]
    exact ⟨hitems', rfl⟩
  · have hend : (closingToken (piece ++ rest)).stop + place.offset =
        (closingToken source.toList).stop := by
      rw [hoffset]
      simp only [closingToken, Place.after_origin_offset, hsource, List.length_append]
      omega
    rw [hfinish]
    exact List.rel_append hlowered (.cons ⟨rfl, rfl, hend, hend⟩ .nil)

/-- **A source can be cut at each token that is read from it.** -/
theorem splitsAt_emitted (h : emitted source = u ++ t :: w) : SplitsAt source u t w where
  front := by
    obtain ⟨front, rest, hsource, htiles, -⟩ := tiles_emitted source
    rw [h, ← List.singleton_append, ← List.append_assoc] at htiles
    obtain ⟨core, htake, hlen, hcore⟩ := htiles.exists_take hsource (by simp)
    have hstop : (extent (u ++ [t])).stop = t.stop := by simp [extent]
    rw [hstop] at htake hlen
    refine ⟨closingToken core, ?_, hlen ▸ closesAt_closingToken core⟩
    rw [htake, tokenize_eq_ok_iff, String.toList_ofList]
    exact ⟨hcore, rfl⟩
  back tokens htokens := tokenize_drop htokens ((items_eq_emitted htokens).trans h)

/-! ### Refusals -/

/-- A source is refused at a place of it, behind the tokens that are read from it. -/
structure RefusedAt (source : String) (e : ScanError) : Prop where
  bound : e.place.offset < source.toList.length
  /-- the text up to there has these tokens -/
  front : ∃ finish, tokenize (String.ofList (source.toList.take e.place.offset)) =
    .ok ⟨emitted source, finish⟩ ∧ finish.ClosesAt e.place.offset
  place : (e.place.line, e.place.column) = lineColumn source.toList e.place.offset
  /-- a parse says where this is, and which character stands there -/
  reported : ∀ limit, ∃ error c, (parse limit source).verdict = .rejected error ∧
    error.kind = .invalidToken ∧ error.offset = e.place.offset ∧
    error.line = e.place.line ∧ error.column = e.place.column ∧
    source.toList[e.place.offset]? = some c ∧ error.found = some (String.singleton c)

/-- A parse of a source that is refused reports the refusal. -/
lemma parse_of_refused (h : tokenize source = .error e) (limit : ℤ) :
    (parse limit source).verdict = .rejected (.ofScanError e source.toList) := by
  rw [parse, Report.map, parseTokens, h]
  rfl

/-- **Where a source is refused it can be cut.** -/
theorem refusedAt_of_error (h : tokenize source = .error e) : RefusedAt source e := by
  obtain ⟨front, rest, hsource, htiles, rfl | ⟨problem, hscan⟩⟩ := tiles_emitted source
  · rw [List.append_nil] at hsource
    rw [← hsource] at htiles
    cases h.symm.trans (tokenize_of_tiles htiles)
  obtain rfl := Except.error.inj (h.symm.trans (tokenize_of_refusal hsource htiles hscan))
  obtain ⟨c, rest, rfl⟩ : ∃ c tail, rest = c :: tail := by
    cases rest with
    | nil => cases hscan
    | cons c tail => exact ⟨c, tail, rfl⟩
  have hoffset := Place.after_origin_offset front
  have hplace : ((Place.origin.after front).line, (Place.origin.after front).column) =
      lineColumn source.toList (Place.origin.after front).offset := by
    rw [hsource, hoffset, lineColumn_after]
  have hchar : source.toList[(Place.origin.after front).offset]? = some c := by
    rw [hsource, hoffset, List.getElem?_append_right le_rfl, Nat.sub_self]
    rfl
  obtain ⟨hline, hcolumn⟩ := Prod.mk.inj hplace
  refine ⟨?_, ?_, hplace, fun limit => ?_⟩
  · exact (List.getElem?_eq_some_iff.mp hchar).1
  · refine ⟨closingToken front, ?_, hoffset.symm ▸ closesAt_closingToken front⟩
    have htake : source.toList.take (Place.origin.after front).offset = front := by
      rw [hsource, hoffset, List.take_left]
    rw [htake, tokenize_eq_ok_iff, String.toList_ofList]
    exact ⟨htiles.cut List.nil_prefix, rfl⟩
  · refine ⟨_, c, parse_of_refused h limit, rfl, rfl, hline.symm, hcolumn.symm, hchar, ?_⟩
    rw [ParseError.ofScanError, hchar]
    rfl

/-- **Reading splits where tokens stand.** Cut behind a token that is read from it, a source
has the tokens up to that one at the same places, whether it is refused further behind or
not. Cut in front of a token, a source that is not refused has the tokens from there on.
Cut where it is refused, it has all the tokens that were read; the place is inside the source,
has the line and the column of its offset, and is the one that a parse reports with the
character that stands there. -/
theorem tokenize_splits (source : String) :
    (∀ tokens, tokenize source = .ok tokens → tokens.items = emitted source) ∧
      (∀ u t w, emitted source = u ++ t :: w → SplitsAt source u t w) ∧
      ∀ e, tokenize source = .error e → RefusedAt source e :=
  ⟨fun _ h => items_eq_emitted h, fun _ _ _ h => splitsAt_emitted h,
    fun _ h => refusedAt_of_error h⟩

/-- A name and a number, and the number in front of a character that nothing begins with. -/
theorem tokenize_splits_number :
    (⟨[⟨.name, some "x", ⟨0, 1, 1⟩, 1⟩, ⟨.literal .number, some "1", ⟨2, 1, 3⟩, 3⟩],
        ⟨.finish, none, ⟨3, 1, 4⟩, 3⟩⟩ : Tokens).items = emitted "x 1" ∧
      SplitsAt "x 1$" [⟨.name, some "x", ⟨0, 1, 1⟩, 1⟩]
        ⟨.literal .number, some "1", ⟨2, 1, 3⟩, 3⟩ [] ∧
      RefusedAt "x 1$" ⟨.unexpectedCharacter '$', ⟨3, 1, 4⟩⟩ :=
  ⟨(tokenize_splits "x 1").1 _ rfl, (tokenize_splits "x 1$").2.1 _ _ _ rfl,
    (tokenize_splits "x 1$").2.2 _ rfl⟩

end ArrayExpr
