/-
Texts cut into layout and tokens.

* `Tiles`: a text is cut into layout and tokens, piece by piece, as the scanner
  cuts it in front of what stands behind the text;
* `Tiles.split`: between two tokens the text can be divided;
* `exists_tiles`: every text is cut into tokens, up to where the scanner is
  refused;
* `scanWithin_piece`: a round that reads a piece leaves fuel for the rest;
* `tokenize_cases`, `tokenize_eq_ok_iff`, `tokenize_eq_error_iff`: the tokens of a
  source are those it is cut into, or it is refused behind some of them;
* `tokenize_text`: a token has the characters in its span for its text.
-/
import ArrayExpr.Proofs.Scanner.Round

namespace ArrayExpr

open Lexeme

/-- The token that a piece of text makes at a place. -/
def Lexeme.tokenAt (place : Place) (kind : Kind) (piece : List Char) : Token :=
  ⟨kind, some (String.ofList piece), place, (place.after piece).offset⟩

/-- A text at `place` is cut into layout and the tokens `tokens`, while
`behind` stands behind it. -/
inductive Tiles (behind : List Char) : Place → List Char → List Token → Prop
  | nil (place : Place) : Tiles behind place [] []
  | layout {place : Place} {piece rest : List Char} {tokens : List Token}
      (h : scan (piece ++ rest ++ behind) = .layout piece) (hne : piece ≠ [])
      (ht : Tiles behind (place.after piece) rest tokens) :
      Tiles behind place (piece ++ rest) tokens
  | token {place : Place} {kind : Kind} {piece rest : List Char} {tokens : List Token}
      (h : scan (piece ++ rest ++ behind) = .token kind piece)
      (ht : Tiles behind (place.after piece) rest tokens) :
      Tiles behind place (piece ++ rest) (tokenAt place kind piece :: tokens)

namespace Tiles

variable {behind text : List Char} {place : Place} {v w tokens : List Token} {t : Token}

/-- Between two tokens the text can be divided. -/
theorem split (h : Tiles behind place text (v ++ w)) :
    ∃ front back, text = front ++ back ∧ Tiles (back ++ behind) place front v ∧
      Tiles behind (place.after front) back w := by
  generalize hvw : v ++ w = tokens at h
  induction h generalizing v with
  | nil place =>
      obtain ⟨rfl, rfl⟩ := List.append_eq_nil_iff.mp hvw
      exact ⟨[], [], rfl, .nil place, .nil place⟩
  | @layout place piece rest tokens h hne ht ih =>
      obtain ⟨front, back, rfl, hv, hw⟩ := ih hvw
      refine ⟨piece ++ front, back, (List.append_assoc ..).symm, .layout ?_ hne hv, ?_⟩
      · simpa using h
      · rwa [Place.after_append]
  | @token place kind piece rest tokens h ht ih =>
      cases v with
      | nil =>
          obtain rfl : w = _ := hvw
          exact ⟨[], piece ++ rest, rfl, .nil place, .token h ht⟩
      | cons t v =>
          obtain ⟨rfl, htail⟩ := List.cons.inj hvw
          obtain ⟨front, back, rfl, hv, hw⟩ := ih htail
          refine ⟨piece ++ front, back, (List.append_assoc ..).symm, .token ?_ hv, ?_⟩
          · simpa using h
          · rwa [Place.after_append]

/-- Layout may stand in front of the first token. -/
theorem exists_first (h : Tiles behind place text (t :: w)) :
    ∃ gap kind piece rest, text = gap ++ (piece ++ rest) ∧
      Tiles (piece ++ rest ++ behind) place gap [] ∧
      t = tokenAt (place.after gap) kind piece ∧
      scan (piece ++ rest ++ behind) = .token kind piece ∧
      Tiles behind ((place.after gap).after piece) rest w := by
  generalize htw : t :: w = tokens at h
  induction h with
  | nil place => cases htw
  | @layout place gap rest tokens h hne ht ih =>
      obtain ⟨gap', kind, piece, rest, rfl, hgap, rfl, hscan, hw⟩ := ih htw
      rw [← Place.after_append place gap gap'] at hw ⊢
      refine ⟨gap ++ gap', kind, piece, rest, (List.append_assoc ..).symm, .layout ?_ hne hgap,
        rfl, hscan, hw⟩
      simpa using h
  | @token place kind piece rest tokens h ht ih =>
      obtain ⟨rfl, rfl⟩ := List.cons.inj htw
      exact ⟨[], kind, piece, rest, rfl, .nil place, rfl, h, ht⟩

/-- A token has the characters in its span for its text. -/
theorem text_eq (h : Tiles behind .origin text tokens) (ht : t ∈ tokens) :
    t.text = some (String.ofList (t.span.text text)) := by
  obtain ⟨v, w, rfl⟩ := List.append_of_mem ht
  obtain ⟨front, back, rfl, -, hw⟩ := h.split
  obtain ⟨gap, kind, piece, rest, rfl, -, rfl, -, -⟩ := hw.exists_first
  have hspan : (tokenAt ((Place.origin.after front).after gap) kind piece).span =
      ⟨(front ++ gap).length, (front ++ gap ++ piece).length⟩ := by
    simp [tokenAt, Token.span, Place.after_offset, Place.origin, Nat.add_assoc]
  have htext : front ++ (gap ++ (piece ++ rest)) = front ++ gap ++ piece ++ rest := by simp
  rw [hspan, Span.text, htext, List.take_left, List.drop_left]
  rfl

end Tiles

/-! ### The scanner cuts the text -/

namespace Scanner

variable {s r : Scanner} {tokens : List Token} {fuel piece rest : List Char} {kind : Kind}
  {c : Char}

lemma scanToken_layout (h : s.ahead = piece ++ rest) (hne : piece ≠ [])
    (hscan : scan s.ahead = .layout piece) : s.scanToken = (s.past piece rest).accepted := by
  have hdoes := does_scanToken (s := s) (by simp [h, hne])
  rw [hscan] at hdoes
  generalize s.scanToken = scanned at hdoes
  cases hdoes with
  | layout h' => rw [List.append_cancel_left (h'.symm.trans h)]

lemma scanToken_token (h : s.ahead = piece ++ rest) (hscan : scan s.ahead = .token kind piece) :
    s.scanToken = (s.after kind piece rest).accepted := by
  have hne := (scan_token hscan).2
  have hdoes := does_scanToken (s := s) (by simp [h, hne])
  rw [hscan] at hdoes
  generalize s.scanToken = scanned at hdoes
  cases hdoes with
  | token h' => rw [List.append_cancel_left (h'.symm.trans h)]

/-- A round that goes well is followed by the others. -/
lemma scanWithin_accepted (hne : s.ahead ≠ []) (h : s.scanToken = r.accepted) :
    scanWithin (c :: fuel) s = scanWithin fuel r := by
  rw [scanWithin, if_neg (by simpa using hne), h]
  rfl

/-- A round that reads a piece leaves fuel enough for what stands behind it. -/
lemma scanWithin_piece (h : s.ahead = piece ++ rest) (hne : piece ≠ [])
    (hround : s.scanToken = r.accepted) (hfuel : s.ahead.length ≤ fuel.length) :
    ∃ fuel' : List Char, rest.length ≤ fuel'.length ∧
      scanWithin fuel s = scanWithin fuel' r := by
  have hpos := List.length_pos_iff.mpr hne
  rw [h, List.length_append] at hfuel
  obtain ⟨c, fuel, rfl⟩ := List.exists_cons_of_length_pos (l := fuel) (by omega)
  rw [List.length_cons] at hfuel
  exact ⟨fuel, by omega, scanWithin_accepted (by simp [h, hne]) hround⟩

/-- The scanner reads the tokens that the text ahead is cut into, and goes on with
what stands behind the text. -/
lemma scanWithin_of_tiles {behind text : List Char} {place : Place}
    (h : Tiles behind place text tokens) (hplace : s.here = place)
    (htext : s.ahead = text ++ behind) (hfuel : s.ahead.length ≤ fuel.length) :
    ∃ start fuel', behind.length ≤ List.length fuel' ∧ scanWithin fuel s =
      scanWithin fuel' ⟨behind, place.after text, start, tokens.reverse ++ s.emitted⟩ := by
  induction h generalizing s fuel with
  | nil place =>
      obtain ⟨ahead, here, start, emitted⟩ := s
      obtain rfl : here = place := hplace
      obtain rfl : ahead = behind := htext
      exact ⟨start, fuel, hfuel, rfl⟩
  | @layout place piece rest tokens h hne ht ih =>
      obtain rfl := hplace
      rw [← htext] at h
      rw [List.append_assoc] at htext
      obtain ⟨fuel₁, hfuel₁, hround⟩ :=
        scanWithin_piece htext hne (scanToken_layout htext hne h) hfuel
      obtain ⟨start, fuel', hfuel', hstart⟩ :=
        ih (s := s.past piece (rest ++ behind)) rfl rfl hfuel₁
      rw [hround, hstart, Place.after_append]
      exact ⟨start, fuel', hfuel', rfl⟩
  | @token place kind piece rest tokens h ht ih =>
      obtain rfl := hplace
      have hne := (scan_token h).2
      rw [← htext] at h
      rw [List.append_assoc] at htext
      obtain ⟨fuel₁, hfuel₁, hround⟩ := scanWithin_piece htext hne (scanToken_token htext h) hfuel
      obtain ⟨start, fuel', hfuel', hstart⟩ :=
        ih (s := s.after kind piece (rest ++ behind)) rfl rfl hfuel₁
      rw [hround, hstart, Place.after_append]
      exact ⟨start, fuel', hfuel', by simp [Scanner.after, tokenAt]⟩

/-- What is refused ends the reading. -/
lemma scanWithin_of_refusal {problem : ScanProblem} (h : scan s.ahead = .refusal problem)
    (hfuel : s.ahead.length ≤ fuel.length) :
    ∃ r, scanWithin fuel s = ⟨r, some ⟨problem, s.here⟩⟩ := by
  have hne : s.ahead ≠ [] := by
    intro hnil
    rw [hnil] at h
    cases h
  have hpos := List.length_pos_iff.mpr hne
  obtain ⟨c, fuel, rfl⟩ := List.exists_cons_of_length_pos (l := fuel) (by omega)
  have hdoes := does_scanToken hne
  rw [h] at hdoes
  rw [scanWithin, if_neg (by simpa using hne)]
  generalize s.scanToken = scanned at hdoes
  cases hdoes with
  | refusal r => exact ⟨r, rfl⟩

end Scanner

/-- **Every text is cut into tokens**, up to its end or to where the scanner is
refused. -/
theorem exists_tiles (place : Place) (text : List Char) :
    ∃ front rest tokens, text = front ++ rest ∧ Tiles rest place front tokens ∧
      (rest = [] ∨ ∃ problem, scan rest = .refusal problem) := by
  -- Whatever the first piece is, what stands behind it is shorter.
  induction hn : text.length using Nat.strong_induction_on generalizing place text with
  | _ n ih =>
    by_cases hne : text = []
    · exact ⟨[], text, [], rfl, .nil place, .inl hne⟩
    have hshort : ∀ piece tail, text = piece ++ tail → piece ≠ [] → tail.length < n := by
      rintro piece tail rfl hpiece
      have hpos := List.length_pos_iff.mpr hpiece
      rw [← hn, List.length_append]
      omega
    cases hscan : scan text with
    | layout piece =>
        obtain ⟨⟨tail, rfl⟩, hpiece⟩ := scan_layout hscan hne
        obtain ⟨front, rest, tokens, rfl, ht, hend⟩ :=
          ih _ (hshort piece tail rfl hpiece) (place.after piece) tail rfl
        refine ⟨piece ++ front, rest, tokens, (List.append_assoc ..).symm, ?_, hend⟩
        exact .layout (by rwa [List.append_assoc]) hpiece ht
    | token kind piece =>
        obtain ⟨⟨tail, rfl⟩, hpiece⟩ := scan_token hscan
        obtain ⟨front, rest, tokens, rfl, ht, hend⟩ :=
          ih _ (hshort piece tail rfl hpiece) (place.after piece) tail rfl
        have htoken : Tiles rest place (piece ++ front) (tokenAt place kind piece :: tokens) :=
          .token (by rwa [List.append_assoc]) ht
        exact ⟨piece ++ front, rest, _, (List.append_assoc ..).symm, htoken, hend⟩
    | refusal problem => exact ⟨[], text, [], rfl, .nil place, .inr ⟨problem, hscan⟩⟩

/-! ### The tokens of a source -/

/-- The token that closes a source. -/
def closingToken (source : List Char) : Token :=
  ⟨.finish, none, Place.origin.after source, (Place.origin.after source).offset⟩

lemma tokenize_of_tiles {source : String} {items : List Token}
    (h : Tiles [] .origin source.toList items) :
    tokenize source = .ok ⟨items, closingToken source.toList⟩ := by
  obtain ⟨start, fuel, -, hstart⟩ := Scanner.scanWithin_of_tiles (s := .ofSource source.toList) h
    rfl (List.append_nil _).symm le_rfl
  have hdone : ∀ s : Scanner, s.ahead = [] → s.scanWithin fuel = s.accepted := by
    intro s hs
    cases fuel <;> simp [Scanner.scanWithin, hs]
  rw [hdone _ rfl] at hstart
  rw [tokenize, Scanner.scanAll]
  dsimp only [Scanner.ofSource] at hstart ⊢
  rw [hstart]
  simp [Scanner.accepted, Scanner.tokens, Scanner.mark, Scanner.token, closingToken]

lemma tokenize_of_refusal {source : String} {front rest : List Char} {items : List Token}
    {problem : ScanProblem} (hsource : source.toList = front ++ rest)
    (h : Tiles rest .origin front items) (hrest : scan rest = .refusal problem) :
    tokenize source = .error ⟨problem, Place.origin.after front⟩ := by
  obtain ⟨start, fuel, hfuel, hstart⟩ :=
    Scanner.scanWithin_of_tiles (s := .ofSource source.toList) h rfl hsource le_rfl
  obtain ⟨r, hr⟩ := Scanner.scanWithin_of_refusal (s := ⟨rest, _, start, _⟩) hrest hfuel
  rw [tokenize, Scanner.scanAll]
  dsimp only [Scanner.ofSource] at hstart ⊢
  rw [hstart, hr]

/-- A source is cut into tokens up to its end, or refused behind some of them. -/
lemma tokenize_cases (source : String) :
    (∃ items, Tiles [] .origin source.toList items ∧
        tokenize source = .ok ⟨items, closingToken source.toList⟩) ∨
      ∃ front rest items problem, source.toList = front ++ rest ∧ Tiles rest .origin front items ∧
        scan rest = .refusal problem ∧
        tokenize source = .error ⟨problem, Place.origin.after front⟩ := by
  obtain ⟨front, rest, items, hsource, ht, rfl | ⟨problem, hrest⟩⟩ :=
    exists_tiles .origin source.toList
  · rw [List.append_nil] at hsource
    rw [← hsource] at ht
    exact .inl ⟨items, ht, tokenize_of_tiles ht⟩
  · exact .inr ⟨front, rest, items, problem, hsource, ht, hrest,
      tokenize_of_refusal hsource ht hrest⟩

/-- **The tokens of a source are those it is cut into.** -/
theorem tokenize_eq_ok_iff {source : String} {tokens : Tokens} :
    tokenize source = .ok tokens ↔
      Tiles [] .origin source.toList tokens.items ∧ tokens.finish = closingToken source.toList := by
  constructor
  · intro h
    obtain ⟨items, ht, hok⟩ | ⟨_, _, _, _, -, -, -, herror⟩ := tokenize_cases source
    · obtain rfl := Except.ok.inj (h.symm.trans hok)
      exact ⟨ht, rfl⟩
    · cases h.symm.trans herror
  · rintro ⟨ht, hfinish⟩
    rw [tokenize_of_tiles ht, ← hfinish]

/-- **A source is refused behind the tokens it starts with.** -/
theorem tokenize_eq_error_iff {source : String} {e : ScanError} :
    tokenize source = .error e ↔
      ∃ front rest items problem, source.toList = front ++ rest ∧ Tiles rest .origin front items ∧
        scan rest = .refusal problem ∧ e = ⟨problem, Place.origin.after front⟩ := by
  constructor
  · intro h
    obtain ⟨_, -, hok⟩ | ⟨front, rest, items, problem, hsource, ht, hrest, herror⟩ :=
      tokenize_cases source
    · cases h.symm.trans hok
    · have he := Except.error.inj (h.symm.trans herror)
      exact ⟨front, rest, items, problem, hsource, ht, hrest, he⟩
  · rintro ⟨front, rest, items, problem, hsource, ht, hrest, rfl⟩
    exact tokenize_of_refusal hsource ht hrest

/-- **A token of a source has the characters in its span for its text.** -/
theorem tokenize_text {source : String} {tokens : Tokens} (h : tokenize source = .ok tokens)
    {t : Token} (ht : t ∈ tokens.items) :
    t.text = some (String.ofList (t.span.text source.toList)) :=
  (tokenize_eq_ok_iff.mp h).1.text_eq ht

end ArrayExpr
