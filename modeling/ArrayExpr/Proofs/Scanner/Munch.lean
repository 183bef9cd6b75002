/-
The scanner takes the longest lexeme.

* `Lexical.Longest`: the longest lexeme at the front of a text, of which kind;
* `Lexical.Takes`: what a round takes from a text, a word right behind a number
  notwithstanding; `longest_iff_takes`: it is the longest lexeme;
* `Lexical.Munches`: blanks and comments are skipped, then the longest lexeme is
  taken, and so on, until the text ends or none can be taken;
* `Lexical.munches_iff`: the scanner does the same;
* `tokenize_of_munches`, `tokenize_of_munches_refused`, `munches_of_tokenize`: so do the
  tokens of a source, and its refusal;
* `tokenize_munches`: the tokens of a source, or the refusal, are what this gives.
-/
import ArrayExpr.Proofs.Scanner.Gap
import ArrayExpr.Proofs.Scanner.LexicalGrammar

namespace ArrayExpr

namespace Lexical

open Lexeme (Scan scan isLayout endsComment isWordStart operators wordKind)

variable {text rest piece w : List Char} {c : Char} {kind kind' : Kind}

/-- The longest lexeme at the front of a text. -/
structure Longest (text : List Char) (kind : Kind) (piece : List Char) : Prop where
  mem : piece ∈ lexeme kind
  atFront : piece <+: text
  longest : ∀ kind', ∀ w ∈ lexeme kind', w <+: text → w.length ≤ piece.length

/-! ### Kinds of lexemes -/

/-- A lexeme is a number, a string, a word or an operator. -/
lemma lexeme_cases (h : w ∈ lexeme kind) :
    (kind = .literal .number ∧ w ∈ number) ∨
      (kind = .literal .string ∧ ∃ quote, (quote = '"' ∨ quote = '\'') ∧ w ∈ quoted quote) ∨
      (kind = wordKind w ∧ w ∈ word) ∨ (w, kind) ∈ operators := by
  have hkeyword : ∀ k, (w, k) ∈ keywords → .literal k = wordKind w ∧ w ∈ word := by
    intro k hk
    simp only [keywords, List.mem_cons, Prod.mk.injEq, List.not_mem_nil, or_false] at hk
    obtain ⟨rfl, rfl⟩ | ⟨rfl, rfl⟩ | ⟨rfl, rfl⟩ := hk
    · exact ⟨rfl, word_mem ['r', 'u', 'e'] (by decide : Lexeme.isWordStart 't' = true)⟩
    · exact ⟨rfl, word_mem ['a', 'l', 's', 'e'] (by decide : Lexeme.isWordStart 'f' = true)⟩
    · exact ⟨rfl, word_mem ['i', 'l'] (by decide : Lexeme.isWordStart 'n' = true)⟩
  cases kind with
  | literal k =>
      cases k with
      | number => exact .inl ⟨rfl, h⟩
      | string =>
          rcases h with h | h
          · exact .inr (.inl ⟨rfl, '"', .inl rfl, h⟩)
          · exact .inr (.inl ⟨rfl, '\'', .inr rfl, h⟩)
      | true | false | nil => exact .inr (.inr (.inl (hkeyword _ h)))
  | name =>
      obtain ⟨hword, hno⟩ := h
      refine .inr (.inr (.inl ⟨?_, hword⟩))
      have hmem := mem_lexeme_wordKind hword
      unfold wordKind at hmem ⊢
      split_ifs at hmem ⊢ with h1 h2 h3
      · exact absurd hmem (hno _)
      · exact absurd hmem (hno _)
      · exact absurd hmem (hno _)
      · rfl
  | finish => cases h
  | arith | compare | assign | openParen | closeParen | openBracket | closeBracket | dot | comma
  | semicolon => exact .inr (.inr (.inr (mem_operators_iff.mpr h)))

/-- An operator begins with a character of its own. -/
lemma scan_operator (h : (c :: w, kind) ∈ operators) (rest : List Char) :
    scan (c :: rest) = Lexeme.scanSymbol c (c :: rest) := by
  have hall : ∀ op ∈ operators, op.1.head?.all (fun c => !isLayout c && c != '#' &&
      !(c = '"' || c = '\'') && !c.isDigit && !isWordStart c) = true := by decide
  have hc := hall _ h
  simp only [List.head?_cons, Option.all_some, Bool.and_eq_true, Bool.not_eq_true', bne_iff_ne]
    at hc
  obtain ⟨⟨⟨⟨h1, h2⟩, h3⟩, h4⟩, h5⟩ := hc
  rw [scan, if_neg (by simp [h1]), if_neg h2, if_neg (by simp [h3]), if_neg (by simp [h4]),
    if_neg (by simp [h5])]

/-! ### What a round takes -/

/-- What a round takes from a text, though a word may stand right behind a
number. -/
inductive Takes (text : List Char) : Kind → List Char → Prop
  | token {kind : Kind} {piece : List Char} (h : scan text = .token kind piece) :
      Takes text kind piece
  | suffix {piece : List Char} (h : scan text = .refusal .invalidNumberSuffix)
      (hpiece : piece = Lexeme.number text) : Takes text (.literal .number) piece

/-- Only where a number stands a suffix is refused. -/
lemma number_of_suffix (h : scan text = .refusal .invalidNumberSuffix) :
    Lexeme.number text ∈ number := by
  cases text with
  | nil => cases h
  | cons c rest =>
      rw [scan] at h
      split_ifs at h with h1 h2 h3 h4 h5
      · rw [Lexeme.scanQuoted] at h
        split_ifs at h
        cases h
      · exact number_mem h4
      · rw [Lexeme.scanSymbol] at h
        split at h <;> cases h

lemma Takes.mem (h : Takes text kind piece) : piece ∈ lexeme kind := by
  cases h with
  | token h => exact mem_lexeme_of_scan h
  | suffix h hpiece => exact hpiece ▸ number_of_suffix h

lemma Takes.atFront (h : Takes text kind piece) : piece <+: text := by
  cases h with
  | token h => exact (Lexeme.scan_token h).1
  | suffix h hpiece => exact hpiece ▸ Lexeme.prefix_number text

lemma Takes.unique (h : Takes text kind piece) (h' : Takes text kind' w) :
    kind = kind' ∧ piece = w := by
  cases h with
  | token h =>
      cases h' with
      | token h' => exact Scan.token.inj (h.symm.trans h')
      | suffix h' => cases h.symm.trans h'
  | suffix h hpiece =>
      cases h' with
      | token h' => cases h.symm.trans h'
      | suffix h' hw => exact ⟨rfl, hpiece.trans hw.symm⟩

/-- Where a lexeme stands at the front, a round takes one that is at least as
long; if it takes the same characters, then as the same kind. -/
theorem exists_takes (hw : w ∈ lexeme kind) (h : w <+: text) :
    ∃ kind' piece, Takes text kind' piece ∧ w.length ≤ piece.length ∧
      (piece = w → kind' = kind) := by
  rcases lexeme_cases hw with ⟨rfl, hnumber⟩ | ⟨rfl, quote, hq, hquoted⟩ | ⟨rfl, hword⟩ | hop
  · obtain ⟨c, tail, rfl, hc⟩ := head_of_mem_number hnumber
    obtain ⟨rest, rfl⟩ := h
    have hscan := Lexeme.scan_digit hc (tail ++ rest)
    have hle := (number_longest hnumber (List.prefix_append _ rest)).length_le
    rw [Lexeme.scanDigits] at hscan
    split_ifs at hscan
    · exact ⟨_, _, .suffix hscan rfl, hle, fun _ => rfl⟩
    · exact ⟨_, _, .token hscan, hle, fun _ => rfl⟩
  · obtain ⟨rest, rfl, hscan⟩ := scanQuoted_of_mem hq hquoted h
    rw [← Lexeme.scan_quote hq] at hscan
    exact ⟨_, _, .token hscan, Nat.le_refl _, fun _ => rfl⟩
  · obtain ⟨c, tail, rfl, hc⟩ := head_of_mem_word hword
    obtain ⟨rest, rfl⟩ := h
    have hle := (word_longest hword (List.prefix_append _ rest)).length_le
    exact ⟨_, _, .token (Lexeme.scan_wordStart hc _), hle, fun heq => congrArg wordKind heq⟩
  · obtain ⟨piece, kind', ho, hle⟩ := operator_longest hop h
    have hne : w ≠ [] := by
      rintro rfl
      exact absurd hop (by simp [operators])
    obtain ⟨c, tail, rfl⟩ := List.exists_cons_of_ne_nil hne
    obtain ⟨rest, rfl⟩ := h
    have hscan := scan_operator hop (tail ++ rest)
    rw [Lexeme.scanSymbol, ← List.cons_append, ho] at hscan
    refine ⟨kind', piece, .token hscan, hle, fun heq => ?_⟩
    have hunique : ∀ op ∈ operators, ∀ op' ∈ operators, op.1 = op'.1 → op.2 = op'.2 := by decide
    exact hunique _ (List.mem_of_find?_eq_some ho) _ hop heq

/-- **A round takes the longest lexeme** at the front of a text. -/
theorem longest_iff_takes : Longest text kind piece ↔ Takes text kind piece := by
  constructor
  · intro h
    obtain ⟨kind', w, htakes, hle, hkind⟩ := exists_takes h.mem h.atFront
    have hle' := h.longest kind' w htakes.mem htakes.atFront
    obtain rfl : w = piece := (List.prefix_of_prefix_length_le htakes.atFront h.atFront
      hle').eq_of_length_le hle
    rwa [hkind rfl] at htakes
  · intro h
    refine ⟨h.mem, h.atFront, fun kind' w hw hfront => ?_⟩
    obtain ⟨kind'', piece', htakes, hle, -⟩ := exists_takes hw hfront
    rwa [(h.unique htakes).2]

/-! ### Words behind numbers -/

/-- A word begins here. -/
def WordFollows (rest : List Char) : Prop := ∃ c ∈ rest.head?, isWordStart c = true

lemma wordFollows_iff : WordFollows rest ↔ isWordStart (rest[0]?.getD '\x00') = true := by
  cases rest with
  | nil => simp [WordFollows, isWordStart]
  | cons c rest => simp [WordFollows]

/-- A number is taken unless a word stands behind it. -/
lemma scan_number (h : Takes (piece ++ rest) (.literal .number) piece) :
    (WordFollows rest → scan (piece ++ rest) = .refusal .invalidNumberSuffix) ∧
      (¬ WordFollows rest → scan (piece ++ rest) = .token (.literal .number) piece) := by
  have hscan : scan (piece ++ rest) = Lexeme.scanDigits (piece ++ rest) := by
    obtain ⟨c, tail, rfl, hc⟩ := head_of_mem_number h.mem
    exact Lexeme.scan_digit hc _
  have hnumber : Lexeme.number (piece ++ rest) = piece := by
    cases h with
    | suffix h hpiece => exact hpiece.symm
    | token h =>
        rw [hscan, Lexeme.scanDigits] at h
        split_ifs at h
        exact (Scan.token.inj h).2
  rw [hscan, Lexeme.scanDigits, hnumber, List.drop_left, wordFollows_iff]
  exact ⟨fun hw => if_pos hw, fun hw => if_neg hw⟩

/-- The longest lexeme is read, but for a number with a word behind it. -/
lemma scan_of_longest (h : Longest (piece ++ rest) kind piece)
    (hs : kind = .literal .number → ¬ WordFollows rest) :
    scan (piece ++ rest) = .token kind piece := by
  have htakes := longest_iff_takes.mp h
  by_cases hk : kind = .literal .number
  · subst hk
    exact (scan_number htakes).2 (hs rfl)
  · cases htakes with
    | token h => exact h
    | suffix h => exact absurd rfl hk

/-- What is read is the longest lexeme. -/
lemma longest_of_scan (h : scan (piece ++ rest) = .token kind piece) :
    Longest (piece ++ rest) kind piece ∧ (kind = .literal .number → ¬ WordFollows rest) := by
  refine ⟨longest_iff_takes.mpr (.token h), ?_⟩
  rintro rfl hw
  cases h.symm.trans ((scan_number (.token h)).1 hw)

/-! ### Refusals -/

/-- The problem with a text that begins with `c` and has no lexeme at the front. -/
def problemAt (c : Char) : ScanProblem :=
  if c = '"' || c = '\'' then .unterminatedString else .unexpectedCharacter c

lemma problemAt_ne (c : Char) : problemAt c ≠ .invalidNumberSuffix := by
  rw [problemAt]
  split_ifs <;> exact ScanProblem.noConfusion

/-- What is refused begins neither a gap nor, but for a number, a lexeme. -/
lemma problem_of_scan {problem : ScanProblem} (h : scan (c :: rest) = .refusal problem) :
    (isLayout c = false ∧ c ≠ '#') ∧
      (problem = problemAt c ∨ problem = .invalidNumberSuffix) := by
  rw [scan] at h
  split_ifs at h with h1 h2 h3 h4 h5
  · refine ⟨⟨by simpa using h1, h2⟩, .inl ?_⟩
    rw [Lexeme.scanQuoted] at h
    split_ifs at h
    rw [problemAt, if_pos h3, Scan.refusal.inj h]
  · refine ⟨⟨by simpa using h1, h2⟩, .inr ?_⟩
    rw [Lexeme.scanDigits] at h
    split_ifs at h
    exact (Scan.refusal.inj h).symm
  · refine ⟨⟨by simpa using h1, h2⟩, .inl ?_⟩
    rw [Lexeme.scanSymbol] at h
    split at h
    · cases h
    · rw [problemAt, if_neg h3, Scan.refusal.inj h]

/-- Layout begins with a blank or a comment mark. -/
lemma head_of_layout (h : scan (c :: rest) = .layout piece) : isLayout c = true ∨ c = '#' := by
  rw [scan] at h
  split_ifs at h with h1 h2 h3 h4 h5
  · exact .inl h1
  · exact .inr h2
  · rw [Lexeme.scanQuoted] at h
    split_ifs at h
  · rw [Lexeme.scanDigits] at h
    split_ifs at h
  · rw [Lexeme.scanSymbol] at h
    split at h <;> cases h

/-- Where no lexeme stands at the front the text is refused. -/
lemma scan_of_no_lexeme (hc : isLayout c = false ∧ c ≠ '#')
    (hno : ∀ kind, ∀ w ∈ lexeme kind, ¬ w <+: c :: rest) :
    scan (c :: rest) = .refusal (problemAt c) := by
  cases hscan : scan (c :: rest) with
  | layout piece =>
      rcases head_of_layout hscan with hlayout | hcomment
      · rw [hc.1] at hlayout
        cases hlayout
      · exact absurd hcomment hc.2
  | token kind piece =>
      exact absurd (Lexeme.scan_token hscan).1 (hno kind piece (mem_lexeme_of_scan hscan))
  | refusal problem =>
      rcases (problem_of_scan hscan).2 with rfl | rfl
      · rfl
      · exact absurd (Lexeme.prefix_number _) (hno (.literal .number) _ (number_of_suffix hscan))

/-- A text is refused for a word behind a number, or since no lexeme stands at the
front. -/
lemma refusal_cases {problem : ScanProblem} (h : scan text = .refusal problem) :
    (∃ piece rest, text = piece ++ rest ∧ Longest text (.literal .number) piece ∧
        WordFollows rest ∧ problem = .invalidNumberSuffix) ∨
      ∃ c rest, text = c :: rest ∧ (isLayout c = false ∧ c ≠ '#') ∧
        (∀ kind, ∀ w ∈ lexeme kind, ¬ w <+: text) ∧ problem = problemAt c := by
  cases text with
  | nil => cases h
  | cons c rest =>
      obtain ⟨hc, rfl | rfl⟩ := problem_of_scan h
      · refine .inr ⟨c, rest, rfl, hc, fun kind w hw hfront => ?_, rfl⟩
        obtain ⟨kind', piece, htakes, -⟩ := exists_takes hw hfront
        cases htakes with
        | token h' => cases h.symm.trans h'
        | suffix h' => exact problemAt_ne c (Scan.refusal.inj (h.symm.trans h'))
      · obtain ⟨piece, htakes⟩ : ∃ piece, Takes (c :: rest) (.literal .number) piece :=
          ⟨_, .suffix h rfl⟩
        obtain ⟨tail, htail⟩ := htakes.atFront
        rw [← htail] at h htakes ⊢
        refine .inl ⟨piece, tail, rfl, longest_iff_takes.mpr htakes, ?_, rfl⟩
        by_contra hword
        cases h.symm.trans ((scan_number htakes).2 hword)

/-! ### The procedure -/

/-- Blanks and comments are skipped and longest lexemes are taken, one after the
other, from a text at a place. This gives tokens, up to the end of the text or to
the place where no lexeme can be taken. -/
inductive Munches : Place → List Char → List Token → Option ScanError → Prop
  | finish (place : Place) : Munches place [] [] none
  | blank {place : Place} {c : Char} {rest : List Char} {tokens : List Token}
      {e : Option ScanError} (hc : isLayout c = true) (h : Munches (place.next c) rest tokens e) :
      Munches place (c :: rest) tokens e
  | comment {place : Place} {body rest : List Char} {tokens : List Token} {e : Option ScanError}
      (hbody : ∀ c ∈ body, endsComment c = false) (hend : ∀ c ∈ rest.head?, endsComment c = true)
      (h : Munches (place.after ('#' :: body)) rest tokens e) :
      Munches place ('#' :: body ++ rest) tokens e
  | lexeme {place : Place} {kind : Kind} {piece rest : List Char} {tokens : List Token}
      {e : Option ScanError} (hl : Longest (piece ++ rest) kind piece)
      (hs : kind = .literal .number → ¬ WordFollows rest)
      (h : Munches (place.after piece) rest tokens e) :
      Munches place (piece ++ rest) (Lexeme.tokenAt place kind piece :: tokens) e
  | suffix {place : Place} {piece rest : List Char}
      (hl : Longest (piece ++ rest) (.literal .number) piece) (hs : WordFollows rest) :
      Munches place (piece ++ rest) [] (some ⟨.invalidNumberSuffix, place⟩)
  | noLexeme {place : Place} {c : Char} {rest : List Char} (hc : isLayout c = false ∧ c ≠ '#')
      (hno : ∀ kind, ∀ w ∈ lexeme kind, ¬ w <+: c :: rest) :
      Munches place (c :: rest) [] (some ⟨problemAt c, place⟩)

variable {place : Place} {behind front : List Char} {tokens : List Token} {e : Option ScanError}

lemma Munches.blanks (hp : ∀ c ∈ piece, isLayout c = true)
    (h : Munches (place.after piece) rest tokens e) : Munches place (piece ++ rest) tokens e := by
  induction piece generalizing place with
  | nil => exact h
  | cons c piece ih =>
      obtain ⟨hc, hp⟩ := List.forall_mem_cons.mp hp
      exact .blank hc (ih hp h)

/-- What is refused ends the procedure. -/
lemma munches_of_refusal {problem : ScanProblem} (h : scan text = .refusal problem) :
    Munches place text [] (some ⟨problem, place⟩) := by
  rcases refusal_cases h with ⟨piece, rest, rfl, hl, hs, rfl⟩ | ⟨c, rest, rfl, hc, hno, rfl⟩
  · exact .suffix hl hs
  · exact .noLexeme hc hno

/-- A text cut into tokens is munched up to its end. -/
lemma munches_of_tiles (h : Tiles behind place text tokens)
    (hb : Munches (place.after text) behind [] e) : Munches place (text ++ behind) tokens e := by
  induction h with
  | nil => exact hb
  | @layout place piece rest tokens h hne ht ih =>
      rw [Place.after_append] at hb
      rw [List.append_assoc] at h ⊢
      rcases Lexeme.scan_layout_cases h with hblank | ⟨body, rfl, hbody, hend⟩
      · exact .blanks hblank (ih hb)
      · exact .comment hbody hend (ih hb)
  | @token place kind piece rest tokens h ht ih =>
      rw [Place.after_append] at hb
      rw [List.append_assoc] at h ⊢
      obtain ⟨hl, hs⟩ := longest_of_scan h
      exact .lexeme hl hs (ih hb)

/-- A blank may stand in front of a text that is cut into tokens. -/
lemma tiles_blank (hc : isLayout c = true) (hb : ∀ d ∈ behind.head?, isLayout d = false)
    (h : Tiles behind (place.next c) front tokens) : Tiles behind place (c :: front) tokens := by
  have hscan : ∀ {d tail}, isLayout d = true →
      scan (d :: tail) = .layout (d :: tail.takeWhile isLayout) := by
    intro d tail hd
    rw [scan, if_pos hd, List.takeWhile_cons_of_pos hd]
  by_cases hnext : ∀ d ∈ (front ++ behind).head?, isLayout d = false
  · have hblank : scan ([c] ++ front ++ behind) = .layout [c] := by
      rw [List.append_assoc, List.singleton_append, hscan hc, Lexeme.takeWhile_of_head hnext]
    exact .layout hblank (List.cons_ne_nil _ _) h
  -- Otherwise the first piece is a run of blanks, which begins one character before.
  · obtain ⟨d, hd, hlayout⟩ : ∃ d ∈ (front ++ behind).head?, isLayout d = true := by
      simpa using hnext
    cases h with
    | nil =>
        rw [hb d hd] at hlayout
        cases hlayout
    | @layout place' piece rest tokens h hne ht =>
        obtain ⟨d', piece, rfl⟩ := List.exists_cons_of_ne_nil hne
        obtain rfl := Option.some.inj hd
        have hpiece := Scan.layout.inj ((hscan hlayout).symm.trans h)
        have hblanks : scan (c :: d' :: piece ++ rest ++ behind) = .layout (c :: d' :: piece) := by
          rw [List.cons_append, List.cons_append, hscan hc]
          simp only [List.cons_append, List.takeWhile_cons_of_pos hlayout]
          exact congrArg (fun run => Scan.layout (c :: run)) hpiece
        exact .layout hblanks (List.cons_ne_nil _ _) ht
    | @token place' kind piece rest tokens h ht =>
        obtain ⟨d', piece, rfl⟩ := List.exists_cons_of_ne_nil (Lexeme.scan_token h).2
        obtain rfl := Option.some.inj hd
        cases (hscan hlayout).symm.trans h

/-- **The scanner munches**: it reads the tokens that the procedure gives, and stops
where the procedure does. -/
theorem munches_iff : Munches place text tokens e ↔
    ∃ front rest, text = front ++ rest ∧ Tiles rest place front tokens ∧
      ((rest = [] ∧ e = none) ∨
        ∃ problem, scan rest = .refusal problem ∧ e = some ⟨problem, place.after front⟩) := by
  constructor
  · intro h
    induction h with
    | finish place => exact ⟨[], [], rfl, .nil place, .inl ⟨rfl, rfl⟩⟩
    | @blank place c rest tokens e hc h ih =>
        obtain ⟨front, rest, rfl, ht, hstop⟩ := ih
        refine ⟨c :: front, rest, rfl, tiles_blank hc ?_ ht, hstop⟩
        intro d hd
        cases rest with
        | nil => cases hd
        | cons d' rest =>
            obtain rfl := Option.some.inj hd
            rcases hstop with ⟨hnil, -⟩ | ⟨problem, hscan, -⟩
            · cases hnil
            · exact (problem_of_scan hscan).1.1
    | @comment place body rest tokens e hbody hend h ih =>
        obtain ⟨front, rest, rfl, ht, hstop⟩ := ih
        refine ⟨'#' :: body ++ front, rest, (List.append_assoc ..).symm, ?_, ?_⟩
        · refine Tiles.layout ?_ (List.cons_ne_nil _ _) ht
          rw [List.append_assoc]
          exact Lexeme.scan_comment hbody hend
        · rwa [Place.after_append]
    | @lexeme place kind piece rest tokens e hl hs h ih =>
        obtain ⟨front, rest, rfl, ht, hstop⟩ := ih
        refine ⟨piece ++ front, rest, (List.append_assoc ..).symm, ?_, ?_⟩
        · refine Tiles.token ?_ ht
          rw [List.append_assoc]
          exact scan_of_longest hl hs
        · rwa [Place.after_append]
    | @suffix place piece rest hl hs =>
        exact ⟨[], _, rfl, .nil place, .inr ⟨_, (scan_number (longest_iff_takes.mp hl)).1 hs, rfl⟩⟩
    | @noLexeme place c rest hc hno =>
        exact ⟨[], _, rfl, .nil place, .inr ⟨_, scan_of_no_lexeme hc hno, rfl⟩⟩
  · rintro ⟨front, rest, rfl, ht, ⟨rfl, rfl⟩ | ⟨problem, hscan, rfl⟩⟩
    · exact munches_of_tiles ht (.finish _)
    · exact munches_of_tiles ht (munches_of_refusal hscan)

/-- A text is munched up to its end exactly if it is cut into tokens as a whole. -/
lemma munches_none_iff : Munches place text tokens none ↔ Tiles [] place text tokens := by
  rw [munches_iff]
  constructor
  · rintro ⟨front, rest, rfl, ht, ⟨rfl, -⟩ | ⟨problem, -, he⟩⟩
    · rwa [List.append_nil]
    · cases he
  · exact fun ht => ⟨text, [], (List.append_nil text).symm, ht, .inl ⟨rfl, rfl⟩⟩

/-- Every text is munched, up to its end or to a refusal. -/
lemma exists_munches (place : Place) (text : List Char) :
    ∃ tokens e, Munches place text tokens e := by
  obtain ⟨front, rest, tokens, rfl, ht, rfl | ⟨problem, hscan⟩⟩ := exists_tiles place text
  · exact ⟨tokens, none, munches_iff.mpr ⟨front, [], rfl, ht, .inl ⟨rfl, rfl⟩⟩⟩
  · exact ⟨tokens, _, munches_iff.mpr ⟨front, rest, rfl, ht, .inr ⟨problem, hscan, rfl⟩⟩⟩

/-- A refusal lies ahead. -/
lemma Munches.le_refusal {e : ScanError} (h : Munches place text tokens (some e)) :
    place.offset ≤ e.place.offset := by
  obtain ⟨front, rest, -, -, ⟨-, he⟩ | ⟨problem, -, he⟩⟩ := munches_iff.mp h
  · cases he
  · rw [Option.some.inj he, Place.after_offset]
    exact Nat.le_add_right _ _

/-- A lexeme is the longest one in itself. -/
lemma longest_of_mem (h : w ∈ lexeme kind) : Longest w kind w :=
  ⟨h, List.prefix_rfl, fun _ _ _ hfront => hfront.length_le⟩

end Lexical

/-- The tokens of a source are those that the procedure gives. -/
lemma tokenize_of_munches {source : String} {items : List Token}
    (h : Lexical.Munches .origin source.toList items none) :
    tokenize source = .ok ⟨items, closingToken source.toList⟩ :=
  tokenize_of_tiles (Lexical.munches_none_iff.mp h)

/-- A source is refused where the procedure stops before its end. -/
lemma tokenize_of_munches_refused {source : String} {items : List Token} {e : ScanError}
    (h : Lexical.Munches .origin source.toList items (some e)) : tokenize source = .error e := by
  obtain ⟨front, rest, hsource, ht, ⟨-, he⟩ | ⟨problem, hscan, he⟩⟩ := Lexical.munches_iff.mp h
  · cases he
  · rw [Option.some.inj he]
    exact tokenize_of_refusal hsource ht hscan

/-- The procedure gives the tokens of a source. -/
lemma munches_of_tokenize {source : String} {tokens : Tokens} (h : tokenize source = .ok tokens) :
    Lexical.Munches .origin source.toList tokens.items none :=
  Lexical.munches_none_iff.mpr (tokenize_eq_ok_iff.mp h).1

/-- **The scanner is maximal munch over the lexical grammar.** A source has the
tokens that skipping blanks and comments and taking longest lexemes gives, and is
refused exactly where this meets no lexeme, or a word right behind a number. -/
theorem tokenize_munches (source : String) :
    (∀ tokens, tokenize source = .ok tokens ↔
        Lexical.Munches .origin source.toList tokens.items none ∧
          tokens.finish = closingToken source.toList) ∧
      ∀ e, tokenize source = .error e ↔
        ∃ items, Lexical.Munches .origin source.toList items (some e) := by
  constructor
  · intro tokens
    rw [tokenize_eq_ok_iff, Lexical.munches_iff]
    refine and_congr_left fun _ => ⟨fun h => ?_, ?_⟩
    · exact ⟨_, [], (List.append_nil _).symm, h, .inl ⟨rfl, rfl⟩⟩
    · rintro ⟨front, rest, hsource, ht, ⟨rfl, -⟩ | ⟨problem, -, he⟩⟩
      · rw [List.append_nil] at hsource
        rwa [hsource]
      · cases he
  · intro e
    rw [tokenize_eq_error_iff]
    constructor
    · rintro ⟨front, rest, items, problem, hsource, ht, hscan, rfl⟩
      exact ⟨items, Lexical.munches_iff.mpr ⟨front, rest, hsource, ht, .inr ⟨problem, hscan, rfl⟩⟩⟩
    · rintro ⟨items, h⟩
      obtain ⟨front, rest, hsource, ht, ⟨-, he⟩ | ⟨problem, hscan, he⟩⟩ := Lexical.munches_iff.mp h
      · cases he
      · exact ⟨front, rest, items, problem, hsource, ht, hscan, Option.some.inj he⟩

/-- The mark of an exponent without digits is a word behind the number. -/
example : tokenize "1.5e+" = .error ⟨.invalidNumberSuffix, ⟨0, 1, 1⟩⟩ := rfl

end ArrayExpr
