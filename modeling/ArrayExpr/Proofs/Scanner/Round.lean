/-
One round of the scanner.

* `Lexeme.scan`: what a round takes from the text ahead: layout, a token, or
  nothing it can read;
* `Lexeme.ne_of_class`, `scan_quote`, `scan_digit`, `scan_wordStart`: the first
  character decides which of them;
* `Scanner.does_scanToken`: a round of the scanner does what `Lexeme.scan` says;
* `Scanner.Sorted`, `tokenize_ordered`: the tokens of a text start one after
  another, the closing one last.
-/
import ArrayExpr.Scanner.Basic
import ArrayExpr.Proofs.Rule.Stream

namespace ArrayExpr

namespace Lexeme

/-- What a round takes from the text ahead. -/
inductive Scan where
  | layout (piece : List Char)
  | token (kind : Kind) (piece : List Char)
  | refusal (problem : ScanProblem)
deriving DecidableEq, Repr

/-- A string in quotes `quote`, the first of which is passed. -/
def scanQuoted (quote : Char) (rest : List Char) : Scan :=
  if (rest.drop (stringBody quote rest).length).isEmpty then .refusal .unterminatedString
  else .token (.literal .string) (quote :: stringBody quote rest ++ [quote])

/-- A number that no letter follows. -/
def scanDigits (text : List Char) : Scan :=
  if isWordStart ((text.drop (number text).length)[0]?.getD '\x00') then
    .refusal .invalidNumberSuffix
  else .token (.literal .number) (number text)

/-- An operator. -/
def scanSymbol (c : Char) (text : List Char) : Scan :=
  match operator? text with
  | some (symbol, kind) => .token kind symbol
  | none => .refusal (.unexpectedCharacter c)

/-- What a round takes from the text ahead. -/
def scan : List Char → Scan
  | [] => .layout []
  | c :: rest =>
    if isLayout c then .layout ((c :: rest).takeWhile isLayout)
    else if c = '#' then .layout ((c :: rest).takeWhile fun d => !endsComment d)
    else if c = '"' || c = '\'' then scanQuoted c rest
    else if c.isDigit then scanDigits (c :: rest)
    else if isWordStart c then .token (wordKind (word (c :: rest))) (word (c :: rest))
    else scanSymbol c (c :: rest)

/-! ### First characters -/

section FirstCharacters

variable {c : Char}

/-- A letter is no digit. -/
lemma not_isDigit_of_isWordStart (h : isWordStart c = true) : ¬ c.isDigit = true := by
  change (decide (0x41 ≤ c.val ∧ c.val ≤ 0x5A) || (decide (0x61 ≤ c.val) && decide (c.val ≤ 0x7A))
    || decide (c = '_')) = true at h
  simp only [Char.isDigit, Bool.or_eq_true, Bool.and_eq_true, decide_eq_true_eq] at h ⊢
  rintro ⟨h1, h2⟩
  have h1 : 0x30 ≤ c.toNat := h1
  have h2 : c.toNat ≤ 0x39 := h2
  rcases h with (⟨h3, -⟩ | ⟨h3, -⟩) | rfl
  · have h3 : 0x41 ≤ c.toNat := h3
    omega
  · have h3 : 0x61 ≤ c.toNat := h3
    omega
  · revert h2
    decide

/-- A class without them holds no layout and no mark of a comment or a string. -/
lemma ne_of_class {p : Char → Bool} (h : p c = true)
    (hp : [' ', '\t', '\n', '\r', '#', '"', '\''].any p = false) :
    ¬ isLayout c = true ∧ c ≠ '#' ∧ ¬ (c = '"' || c = '\'') = true := by
  have hne : ∀ d, p d = false → c ≠ d := fun d hd he => by
    rw [he, hd] at h
    cases h
  simp only [List.any_cons, Bool.or_eq_false_iff] at hp
  obtain ⟨h1, h2, h3, h4, h5, h6, h7, -⟩ := hp
  simp [isLayout, hne ' ' h1, hne '\t' h2, hne '\n' h3, hne '\r' h4, hne '#' h5, hne '"' h6,
    hne '\'' h7]

/-- A letter is no layout, starts no comment and no string. -/
lemma ne_of_isWordStart (h : isWordStart c = true) :
    ¬ isLayout c = true ∧ c ≠ '#' ∧ ¬ (c = '"' || c = '\'') = true :=
  ne_of_class h (by decide)

/-- A digit is no layout, starts no comment and no string. -/
lemma ne_of_isDigit (h : c.isDigit = true) :
    ¬ isLayout c = true ∧ c ≠ '#' ∧ ¬ (c = '"' || c = '\'') = true :=
  ne_of_class h (by decide)

lemma scan_quote (h : c = '"' ∨ c = '\'') (rest : List Char) :
    scan (c :: rest) = scanQuoted c rest := by
  rcases h with rfl | rfl <;> rfl

lemma scan_digit (h : c.isDigit = true) (rest : List Char) :
    scan (c :: rest) = scanDigits (c :: rest) := by
  obtain ⟨h1, h2, h3⟩ := ne_of_isDigit h
  rw [scan, if_neg h1, if_neg h2, if_neg h3, if_pos h]

lemma scan_wordStart (h : isWordStart c = true) (rest : List Char) :
    scan (c :: rest) = .token (wordKind (word (c :: rest))) (word (c :: rest)) := by
  obtain ⟨h1, h2, h3⟩ := ne_of_isWordStart h
  rw [scan, if_neg h1, if_neg h2, if_neg h3, if_neg (not_isDigit_of_isWordStart h), if_pos h]

end FirstCharacters

/-! ### Pieces stand at the front of the text -/

variable {text : List Char} {piece : List Char} {kind : Kind} {problem : ScanProblem}

lemma takeWhile_ne_nil {p : Char → Bool} {c : Char} {rest : List Char} (h : p c = true) :
    (c :: rest).takeWhile p ≠ [] := by simp [h]

lemma prefix_digits (text : List Char) : digits text <+: text := List.takeWhile_prefix _

lemma prefix_fraction (text : List Char) : fraction text <+: text := by
  unfold fraction
  split
  · split
    · exact List.nil_prefix
    · exact (List.prefix_cons_inj _).mpr (prefix_digits _)
  · exact List.nil_prefix

lemma prefix_sign (text : List Char) : sign text <+: text := by
  unfold sign
  split
  · exact ⟨_, rfl⟩
  · exact ⟨_, rfl⟩
  · exact List.nil_prefix

/-- What is left behind a piece of the front. -/
lemma drop_of_append {rest : List Char} (h : text = piece ++ rest) :
    text.drop piece.length = rest := by
  rw [congrArg (List.drop piece.length) h, List.drop_left]

/-- A piece of the front and a piece of what is left join. -/
lemma prefix_append_drop {p q : List Char} (hp : p <+: text) (hq : q <+: text.drop p.length) :
    p ++ q <+: text := by
  obtain ⟨rest, rfl⟩ := hp
  rw [List.drop_left] at hq
  exact (List.prefix_append_right_inj p).mpr hq

lemma prefix_exponent (text : List Char) : exponent text <+: text := by
  unfold exponent
  split
  · exact List.nil_prefix
  · dsimp only
    split
    · exact (List.prefix_cons_inj _).mpr (prefix_append_drop (prefix_sign _) (prefix_digits _))
    · exact List.nil_prefix

lemma prefix_number (text : List Char) : number text <+: text := by
  have h := prefix_append_drop (prefix_fraction (text.drop (digits text).length))
    (prefix_exponent _)
  rw [number, List.append_assoc]
  exact prefix_append_drop (prefix_digits text) h

lemma number_ne_nil {c : Char} {rest : List Char} (h : c.isDigit = true) :
    number (c :: rest) ≠ [] := by
  simp [number, digits, h]

lemma stringBody_quote (quote : Char) (rest : List Char) :
    stringBody quote (quote :: rest) = [] := by
  rw [stringBody.eq_def]
  simp

lemma stringBody_cons {quote c : Char} (hq : c ≠ quote) (hb : c ≠ '\\') (rest : List Char) :
    stringBody quote (c :: rest) = c :: stringBody quote rest := by
  rw [stringBody.eq_def]
  simp [hq, hb]

/-- A string ends before a quote, or takes the whole text. -/
lemma stringBody_append (quote : Char) (text : List Char) :
    ∃ rest, text = stringBody quote text ++ rest ∧ (rest = [] ∨ ∃ tail, rest = quote :: tail) := by
  induction text using stringBody.induct quote with
  | case1 => exact ⟨[], rfl, Or.inl rfl⟩
  | case2 rest => exact ⟨quote :: rest, by rw [stringBody_quote]; rfl, Or.inr ⟨rest, rfl⟩⟩
  | case3 h => exact ⟨[], by simp [stringBody, h], Or.inl rfl⟩
  | case4 d rest h ih =>
      obtain ⟨tail, ht, h'⟩ := ih
      refine ⟨tail, ?_, h'⟩
      rw [stringBody.eq_def]
      simpa [h] using ht
  | case5 c rest h h' ih =>
      obtain ⟨tail, ht, h''⟩ := ih
      refine ⟨tail, ?_, h''⟩
      rw [stringBody_cons h h', List.cons_append, ← ht]

lemma prefix_operator {symbol : List Char} (h : operator? text = some (symbol, kind)) :
    symbol <+: text ∧ symbol ≠ [] := by
  obtain ⟨hp, hmem⟩ := And.intro (List.find?_some h) (List.mem_of_find?_eq_some h)
  refine ⟨List.isPrefixOf_iff_prefix.mp hp, fun hnil => ?_⟩
  subst hnil
  simp [operators] at hmem

/-- **A token stands at the front of the text.** -/
lemma scan_token (h : scan text = .token kind piece) : piece <+: text ∧ piece ≠ [] := by
  cases text with
  | nil => simp [scan] at h
  | cons c rest =>
      rw [scan] at h
      split_ifs at h with h1 h2 h3 h4 h5
      · rw [scanQuoted] at h
        split_ifs at h with he
        obtain ⟨-, rfl⟩ := Scan.token.inj h
        obtain ⟨tail, ht, rfl | ⟨tail, rfl⟩⟩ := stringBody_append c rest
        · rw [List.append_nil] at ht
          rw [← ht] at he
          simp at he
        · refine ⟨⟨tail, ?_⟩, by simp⟩
          conv => rhs; rw [ht]
          simp
      · rw [scanDigits] at h
        split_ifs at h
        obtain ⟨-, rfl⟩ := Scan.token.inj h
        exact ⟨prefix_number _, number_ne_nil h4⟩
      · obtain ⟨-, rfl⟩ := Scan.token.inj h
        exact ⟨List.takeWhile_prefix _, takeWhile_ne_nil (by simp [isWordChar, h5])⟩
      · rw [scanSymbol] at h
        split at h
        · rename_i ho
          obtain ⟨rfl, rfl⟩ := Scan.token.inj h
          exact prefix_operator ho
        · simp at h

/-- Layout stands at the front of the text. -/
lemma scan_layout (h : scan text = .layout piece) (hne : text ≠ []) :
    piece <+: text ∧ piece ≠ [] := by
  obtain ⟨c, rest, rfl⟩ := List.exists_cons_of_ne_nil hne
  rw [scan] at h
  split_ifs at h with h1 h2 h3 h4 h5
  · obtain rfl := Scan.layout.inj h
    exact ⟨List.takeWhile_prefix _, takeWhile_ne_nil h1⟩
  · obtain rfl := Scan.layout.inj h
    exact ⟨List.takeWhile_prefix _, takeWhile_ne_nil (by rw [h2]; decide)⟩
  · rw [scanQuoted] at h
    split_ifs at h
  · rw [scanDigits] at h
    split_ifs at h
  · rw [scanSymbol] at h
    split at h <;> simp at h

end Lexeme

namespace Scanner

open Lexeme

variable {s : Scanner} {piece rest : List Char} {kind : Kind} {problem : ScanProblem}

/-! ### Rounds -/

/-- The scanner after a piece of the text. -/
def past (s : Scanner) (piece rest : List Char) : Scanner :=
  { s with ahead := rest, here := s.here.after piece }

lemma upcoming_append (h : s.ahead = piece ++ rest) : s.upcoming piece.length = piece := by
  rw [upcoming, h, List.take_left, List.rightpad, Nat.sub_self, List.replicate_zero,
    List.append_nil]

/-- Moving on by the length of a piece passes the piece. -/
lemma advance_piece (s : Scanner) (piece : List Char) {rest : List Char}
    (h : s.ahead = piece ++ rest) : s.advance piece.length = s.past piece rest := by
  rw [advance, upcoming_append h, h, List.drop_left, past]

/-- Moving on by one passes a character. -/
lemma advance_one (s : Scanner) {c : Char} (h : s.ahead = c :: rest) :
    s.advance 1 = s.past [c] rest := advance_piece s [c] h

lemma past_ahead (s : Scanner) (piece rest : List Char) : (s.past piece rest).ahead = rest := rfl

lemma peek_zero {c : Char} (h : s.ahead = c :: rest) : s.peek 0 = c := by
  simp [peek, h]

/-- The scanner after the token `piece`, which began where it stood. -/
def after (s : Scanner) (kind : Kind) (piece rest : List Char) : Scanner :=
  { s with
    ahead := rest
    here := s.here.after piece
    start := s.here
    emitted := ⟨kind, String.ofList piece, s.here, (s.here.after piece).offset⟩ :: s.emitted }

lemma emit_past (s : Scanner) (kind : Kind) (piece rest : List Char) :
    (s.mark.past piece rest).emit kind (String.ofList piece) = s.after kind piece rest := rfl

/-- A round does what was found ahead. -/
inductive Does (s : Scanner) : Scan → Scanned → Prop
  | layout {piece rest : List Char} (h : s.ahead = piece ++ rest) :
      Does s (.layout piece) (s.past piece rest).accepted
  | token {kind : Kind} {piece rest : List Char} (h : s.ahead = piece ++ rest) :
      Does s (.token kind piece) (s.after kind piece rest).accepted
  | refusal {problem : ScanProblem} (r : Scanner) :
      Does s (.refusal problem) ⟨r, some ⟨problem, s.here⟩⟩

lemma mark_ahead (s : Scanner) : s.mark.ahead = s.ahead := rfl

/-- A token that stands at the front is read. -/
lemma does_token (h : piece <+: s.ahead) :
    s.Does (.token kind piece)
      ((s.mark.advance piece.length).emit kind (String.ofList piece)).accepted := by
  obtain ⟨rest, h⟩ := h
  rw [advance_piece s.mark piece h.symm, emit_past]
  exact .token h.symm

lemma does_scanString {c : Char} (h : s.ahead = c :: rest) :
    s.Does (scanQuoted c rest) s.mark.scanString := by
  obtain ⟨tail, htail, hend⟩ := stringBody_append c rest
  have h0 : s.mark.peek 0 = c := peek_zero h
  have h1 : s.mark.advance 1 = s.mark.past [c] rest := advance_one s.mark h
  have hdrop : rest.drop (stringBody c rest).length = tail := drop_of_append htail
  have h2 : (s.mark.past [c] rest).advance (stringBody c rest).length =
      s.mark.past (c :: stringBody c rest) tail := by
    rw [advance_piece (s.mark.past [c] rest) _ htail]
    simp [past]
  have h3 : s.mark.scanString =
      if tail.isEmpty then (s.mark.past (c :: stringBody c rest) tail).refuse .unterminatedString
      else (((s.mark.past (c :: stringBody c rest) tail).advance 1).emit (.literal .string)
        (String.ofList (c :: stringBody c rest ++ [c]))).accepted := by
    simp only [scanString, h0, h1, past_ahead, h2]
  rw [h3, scanQuoted, hdrop]
  rcases hend with rfl | ⟨tail, rfl⟩
  · exact .refusal _
  · have h4 : (s.mark.past (c :: stringBody c rest) (c :: tail)).advance 1 =
        s.mark.past (c :: stringBody c rest ++ [c]) tail := by
      rw [advance_one _ (past_ahead _ _ _)]
      simp [past, Place.after_append]
    have h5 : s.ahead = c :: stringBody c rest ++ [c] ++ tail := by
      rw [h]
      conv => lhs; rw [htail]
      simp
    rw [h4, emit_past]
    exact .token h5

lemma does_scanNumber (s : Scanner) :
    s.Does (scanDigits s.ahead) s.mark.scanNumber := by
  obtain ⟨tail, htail⟩ := prefix_number s.ahead
  have hadv : s.mark.advance (number s.ahead).length = s.mark.past (number s.ahead) tail :=
    advance_piece s.mark _ htail.symm
  have hdrop : s.ahead.drop (number s.ahead).length = tail := drop_of_append htail.symm
  simp only [scanNumber, mark_ahead, hadv]
  rw [scanDigits, hdrop]
  have hpeek : (s.mark.past (number s.ahead) tail).peek 0 = tail[0]?.getD '\x00' := rfl
  rw [hpeek]
  split
  · exact .refusal _
  · rw [emit_past]
    exact .token htail.symm

/-- **A round of the scanner does what stands ahead.** -/
theorem does_scanToken (hne : s.ahead ≠ []) : s.Does (scan s.ahead) s.scanToken := by
  obtain ⟨c, rest, h⟩ := List.exists_cons_of_ne_nil hne
  have h0 : s.peek 0 = c := peek_zero h
  have h1 : s.mark.peek 0 = c := peek_zero h
  have htake : ∀ p : Char → Bool, s.Does (.layout (s.ahead.takeWhile p))
      (s.advance (s.ahead.takeWhile p).length).accepted := fun p => by
    rw [advance_piece s _ List.takeWhile_append_dropWhile.symm]
    exact .layout List.takeWhile_append_dropWhile.symm
  have hscan : scan s.ahead =
      if isLayout c then .layout (s.ahead.takeWhile isLayout)
      else if c = '#' then .layout (s.ahead.takeWhile fun d => !endsComment d)
      else if c = '"' || c = '\'' then scanQuoted c rest
      else if c.isDigit then scanDigits s.ahead
      else if isWordStart c then .token (wordKind (word s.ahead)) (word s.ahead)
      else scanSymbol c s.ahead := by
    rw [h]
    rfl
  rw [hscan, scanToken, atLayout]
  simp only [h0, h1]
  split_ifs
  · exact htake _
  · exact htake _
  · exact does_scanString h
  · exact does_scanNumber s
  · exact does_token (List.takeWhile_prefix _)
  · rw [scanOperator, scanSymbol, mark_ahead, h1]
    cases ho : operator? s.ahead with
    | none => exact .refusal _
    | some p => exact does_token (prefix_operator ho).1

/-! ### Places of tokens -/

/-- The tokens read so far start one after another, before the place
reached. -/
structure Sorted (s : Scanner) : Prop where
  before : ∀ t ∈ s.emitted, t.start.offset < s.here.offset
  increasing : s.emitted.Pairwise fun t u => u.start.offset < t.start.offset

lemma Sorted.past (hs : s.Sorted) (piece rest : List Char) : (s.past piece rest).Sorted := by
  refine ⟨fun t ht => ?_, hs.increasing⟩
  have h := hs.before t ht
  simp only [Scanner.past, Place.after_offset]
  omega

lemma Sorted.after (hs : s.Sorted) (kind : Kind) (rest : List Char) (hp : piece ≠ []) :
    (s.after kind piece rest).Sorted := by
  have hlen := List.length_pos_iff.mpr hp
  refine ⟨?_, List.pairwise_cons.mpr ⟨hs.before, hs.increasing⟩⟩
  simp only [Scanner.after, List.forall_mem_cons, Place.after_offset]
  exact ⟨by omega, fun t ht => (hs.before t ht).trans_le (Nat.le_add_right _ _)⟩

/-- The scanner stays sorted until it stops or is refused. -/
lemma Sorted.scanWithin (hs : s.Sorted) (fuel : List Char)
    (h : (scanWithin fuel s).refused = none) : (scanWithin fuel s).scanner.Sorted := by
  induction fuel generalizing s with
  | nil => exact hs
  | cons c fuel ih =>
      rw [Scanner.scanWithin] at h ⊢
      by_cases he : s.ahead.isEmpty
      · simpa [he] using (show s.accepted.scanner.Sorted from hs)
      · simp only [he, Bool.false_eq_true, if_false] at h ⊢
        have hne : s.ahead ≠ [] := by simpa using he
        have hdoes := does_scanToken hne
        generalize hscan : scan s.ahead = found at hdoes
        generalize hr : s.scanToken = r at hdoes h
        cases hdoes with
        | layout => exact ih (hs.past _ _) h
        | token => exact ih (hs.after _ _ (scan_token hscan).2) h
        | refusal r => simp at h

end Scanner

/-- **The tokens of a text start one after another**, the closing one last. -/
theorem tokenize_ordered {source : String} {tokens : Tokens}
    (h : tokenize source = .ok tokens) : (TokenStream.ofTokens tokens).Ordered := by
  rw [tokenize] at h
  generalize hr : (Scanner.ofSource source.toList).scanAll = r at h
  split at h
  · rename_i hnone
    obtain rfl := Except.ok.inj h
    have hs : (Scanner.ofSource source.toList).Sorted :=
      ⟨by simp [Scanner.ofSource], by simp [Scanner.ofSource]⟩
    have hsorted : r.scanner.Sorted := by
      rw [← hr] at hnone ⊢
      exact hs.scanWithin _ hnone
    refine ⟨?_, rfl⟩
    simp only [TokenStream.ofTokens, Scanner.tokens]
    rw [List.pairwise_append]
    refine ⟨List.pairwise_reverse.mpr hsorted.increasing, List.pairwise_singleton _ _, ?_⟩
    intro t ht u hu
    rw [List.mem_singleton.mp hu]
    exact hsorted.before t (List.mem_reverse.mp ht)
  · simp at h

end ArrayExpr
