/-
Tokens of the scanner as terminals of the reference.

* `Reference.PlainHead`: a text that begins with no digit but those of ASCII;
* `Lexeme.scan_of_high`, `Readable.plainHead`: the scanner reads none of the
  others;
* `Reference.numberAgrees_of_endsNumber`: a number in a text cut into tokens is
  read alike;
* `Reference.agrees_of_token`: so is every token, but for strings with an escaped
  newline; `Reference.terminal?_of_escapesNewline`: these are no terminals.
-/
import ArrayExpr.Proofs.Reference.Terminals
import ArrayExpr.Proofs.Scanner.Munch

namespace ArrayExpr

open Lexeme (scan)

variable {text rest piece u v : List Char} {c : Char} {kind : Kind} {place : Place}
  {tokens : List Token}

/-! ### Digits of other scripts -/

namespace Reference

/-- Digits outside ASCII have high codes. -/
lemma high_of_isDecimalDigit (h : isDecimalDigit c = true) : c.isDigit = true ∨ 0x80 ≤ c.toNat := by
  have hzeros : ∀ z ∈ digitZeros, z = 0x30 ∨ 0x80 ≤ z := by decide
  rw [isDecimalDigit, digitValue?, Option.isSome_map, List.find?_isSome] at h
  obtain ⟨z, hz, hle⟩ := h
  simp only [Bool.and_eq_true, decide_eq_true_eq] at hle
  rcases hzeros z hz with rfl | hhigh
  · refine .inl ?_
    have h1 : 0x30 ≤ c.toNat := hle.1
    have h2 : c.toNat ≤ 0x39 := by omega
    simp only [Char.isDigit, Bool.and_eq_true, decide_eq_true_eq]
    exact ⟨h1, h2⟩
  · exact .inr (hhigh.trans hle.1)

end Reference

namespace Lexeme

lemma lt_of_isDigit (h : c.isDigit = true) : c.toNat < 0x80 := by
  simp only [Char.isDigit, Bool.and_eq_true, decide_eq_true_eq] at h
  have h2 : c.toNat ≤ 0x39 := h.2
  omega

lemma lt_of_isWordStart (h : isWordStart c = true) : c.toNat < 0x80 := by
  change (decide (0x41 ≤ c.val ∧ c.val ≤ 0x5A) || (decide (0x61 ≤ c.val) && decide (c.val ≤ 0x7A))
    || decide (c = '_')) = true at h
  simp only [Bool.or_eq_true, Bool.and_eq_true, decide_eq_true_eq] at h
  rcases h with (⟨-, h⟩ | ⟨-, h⟩) | rfl
  · have h : c.toNat ≤ 0x5A := h
    omega
  · have h : c.toNat ≤ 0x7A := h
    omega
  · decide

lemma operator?_of_high (h : 0x80 ≤ c.toNat) (rest : List Char) :
    operator? (c :: rest) = none := by
  have hlow : operators.all (fun op => op.1.head?.any fun d => d.toNat < 0x80) = true := by decide
  refine List.find?_eq_none.mpr fun op hop hprefix => ?_
  have hhead := List.all_eq_true.mp hlow op hop
  obtain ⟨tail, htail⟩ := List.isPrefixOf_iff_prefix.mp hprefix
  cases hop' : op.1 with
  | nil =>
      rw [hop'] at hhead
      cases hhead
  | cons d more =>
      rw [hop'] at hhead htail
      have hlt : d.toNat < 0x80 := of_decide_eq_true hhead
      rw [(List.cons.inj htail).1] at hlt
      omega

/-- Nothing is read where a character outside ASCII stands. -/
lemma scan_of_high (h : 0x80 ≤ c.toNat) (rest : List Char) :
    scan (c :: rest) = .refusal (.unexpectedCharacter c) := by
  obtain ⟨h1, h2, h3⟩ := ne_of_class (p := fun c => decide (0x80 ≤ c.toNat))
    (decide_eq_true h) (by decide)
  have h4 : ¬ c.isDigit = true := fun hc => by
    have := lt_of_isDigit hc
    omega
  have h5 : ¬ isWordStart c = true := fun hc => by
    have := lt_of_isWordStart hc
    omega
  rw [scan, if_neg h1, if_neg h2, if_neg h3, if_neg h4, if_neg h5, scanSymbol,
    operator?_of_high h]

end Lexeme

namespace Reference

/-- A text does not begin with a digit outside ASCII. -/
def PlainHead (text : List Char) : Prop :=
  ∀ c ∈ text.head?, isDecimalDigit c = true → c.isDigit = true

lemma PlainHead.append (hu : PlainHead u) (hv : PlainHead v) : PlainHead (u ++ v) := by
  cases u with
  | nil => exact hv
  | cons c u => exact hu

/-- What the scanner does not refuse begins with no digit outside ASCII. -/
lemma plainHead_of_readable (h : Readable text) : PlainHead text := by
  intro c hc hdigit
  cases text with
  | nil => cases hc
  | cons d rest =>
      obtain rfl := Option.some.inj hc
      exact (high_of_isDecimalDigit hdigit).resolve_right fun hhigh =>
        h _ (Lexeme.scan_of_high hhigh rest)

lemma plainHead_fraction (text : List Char) : PlainHead (Lexeme.fraction text) := by
  unfold Lexeme.fraction
  split
  · split_ifs
    · intro c hc
      cases hc
    · intro c hc hdigit
      obtain rfl := Option.some.inj hc
      exact absurd hdigit (by decide)
  · intro c hc
    cases hc

lemma plainHead_exponent (text : List Char) : PlainHead (Lexeme.exponent text) := by
  cases text with
  | nil =>
      intro c hc
      cases hc
  | cons d rest =>
      rw [Lexeme.exponent_cons]
      split_ifs with hmark
      · intro c hc hdigit
        obtain rfl := Option.some.inj hc
        rcases hmark.1 with rfl | rfl <;> exact absurd hdigit (by decide)
      · intro c hc
        cases hc

/-- Digits agree where none outside ASCII follows them. -/
lemma digitsAgree_of_plainHead (h : PlainHead (text.drop (Lexeme.digits text).length)) :
    DigitsAgree text := by
  have hdrop : text.drop (Lexeme.digits text).length = text.dropWhile Char.isDigit :=
    drop_takeWhile _ _
  rw [hdrop] at h
  have hstop : ∀ c ∈ (text.dropWhile Char.isDigit).head?, isDecimalDigit c = false := by
    intro c hc
    have hno := List.head?_dropWhile_not Char.isDigit text
    rw [Option.mem_def.mp hc] at hno
    by_contra hdigit
    have hascii : c.isDigit = true := h c hc (by simpa using hdigit)
    cases hascii.symm.trans hno
  have htaken : ∀ c ∈ Lexeme.digits text, isDecimalDigit c = true := fun c hc =>
    isDecimalDigit_of_isDigit (List.mem_takeWhile_imp hc)
  have htext : text = Lexeme.digits text ++ text.dropWhile Char.isDigit :=
    List.takeWhile_append_dropWhile.symm
  rw [DigitsAgree]
  nth_rewrite 1 [htext]
  rw [List.takeWhile_append_of_pos htaken, Lexeme.takeWhile_of_head hstop, List.append_nil]

/-! ### Numbers -/

/-- What may stand behind a number that the scanner reads: no word, and no digit
outside ASCII, not behind a point either. -/
structure EndsNumber (rest : List Char) : Prop where
  head : PlainHead rest
  point : ∀ tail, rest = '.' :: tail → PlainHead tail
  word : ¬ Lexical.WordFollows rest

/-- A text cut into tokens may stand behind a number if no word begins it. -/
lemma endsNumber_of_tiles (h : Tiles [] place rest tokens) (hword : ¬ Lexical.WordFollows rest) :
    EndsNumber rest := by
  have hnil : Readable [] := fun problem => Lexeme.Scan.noConfusion
  have hread : ∀ {place text tokens}, Tiles [] place text tokens → Readable text := by
    intro place text tokens h
    have hreadable := h.readable hnil
    rwa [List.append_nil] at hreadable
  refine ⟨plainHead_of_readable (hread h), ?_, hword⟩
  rintro tail rfl
  -- The point is a token, behind which the text is cut into tokens too.
  have hpoint : scan ('.' :: tail) = .token .dot ['.'] := rfl
  generalize htext : '.' :: tail = text at h
  cases h with
  | nil => cases htext
  | @layout _ piece rest _ h hne ht =>
      rw [List.append_nil, ← htext, hpoint] at h
      cases h
  | @token _ kind piece rest _ h ht =>
      rw [List.append_nil, ← htext, hpoint] at h
      obtain ⟨-, rfl⟩ := Lexeme.Scan.token.inj h
      obtain ⟨-, rfl⟩ := List.cons.inj htext
      exact plainHead_of_readable (hread ht)

/-- The parts of a number stand one behind the other. -/
lemma exists_parts (text : List Char) :
    ∃ r₁ r₂ rest, text.drop (Lexeme.digits text).length = r₁ ∧
      r₁ = Lexeme.fraction r₁ ++ r₂ ∧ r₂ = Lexeme.exponent r₂ ++ rest ∧
      text = Lexeme.number text ++ rest := by
  obtain ⟨r₁, h₁⟩ := Lexeme.prefix_digits text
  obtain ⟨r₂, h₂⟩ := Lexeme.prefix_fraction r₁
  obtain ⟨rest, h₃⟩ := Lexeme.prefix_exponent r₂
  have hdrop₁ := Lexeme.drop_of_append h₁.symm
  refine ⟨r₁, r₂, rest, hdrop₁, h₂.symm, h₃.symm, ?_⟩
  rw [Lexeme.number, hdrop₁, Lexeme.drop_of_append h₂.symm, List.append_assoc, List.append_assoc,
    h₃, h₂, h₁]

/-- **A number that ends is read alike.** -/
lemma numberAgrees_of_endsNumber (h : EndsNumber rest) (htext : text = Lexeme.number text ++ rest) :
    NumberAgrees text := by
  obtain ⟨r₁, r₂, rest', hr₁, h₂, h₃, htext'⟩ := exists_parts text
  obtain rfl := List.append_cancel_left (htext.symm.trans htext')
  have hhead₂ : PlainHead r₂ := h₃ ▸ (plainHead_exponent r₂).append h.head
  have hhead₁ : PlainHead r₁ := h₂ ▸ (plainHead_fraction r₁).append hhead₂
  have hr₂ := Lexeme.drop_of_append h₂
  refine ⟨digitsAgree_of_plainHead (hr₁ ▸ hhead₁), fun tail htail => ?_, fun c tail htail hc => ?_⟩
  · rw [hr₁] at htail
    subst htail
    rw [Lexeme.fraction_dot] at h₂ hr₂
    refine digitsAgree_of_plainHead ?_
    by_cases hnone : Lexeme.digits tail = []
    -- A point without digits is the next token.
    · rw [if_pos hnone, List.nil_append] at h₂
      subst h₂
      rw [hnone]
      exact h.point tail h₃.symm
    · rw [if_neg hnone] at hr₂
      rw [List.length_cons, List.drop_succ_cons] at hr₂
      rwa [hr₂]
  · rw [hr₁, hr₂] at htail
    subst htail
    rw [Lexeme.exponent_cons] at h₃
    refine digitsAgree_of_plainHead ?_
    by_cases hnone : Lexeme.power tail = []
    -- A mark without digits begins a word.
    · rw [if_neg fun hmark => hmark.2 hnone, List.nil_append] at h₃
      refine absurd ⟨c, by rw [← h₃]; rfl, ?_⟩ h.word
      rcases hc with rfl | rfl <;> rfl
    · rw [if_pos ⟨hc, hnone⟩] at h₃
      have hpower : tail.drop (Lexeme.sign tail).length = Lexeme.power tail ++ rest := by
        refine Lexeme.drop_of_append ?_
        rw [← List.append_assoc]
        exact (List.cons.inj h₃).2
      have hrest := Lexeme.drop_of_append hpower
      rw [Lexeme.power] at hrest
      rw [hrest]
      exact h.head

/-! ### Strings -/

open Computability in
/-- A newline is escaped in whole parts of a string or behind them. -/
lemma escapesNewline_append_of_mem {quote : Char} {body : List Char}
    (hb : body ∈ (Lexical.unit quote)∗) (rest : List Char) :
    escapesNewline (body ++ rest) = (escapesNewline body || escapesNewline rest) := by
  obtain ⟨units, rfl, hunits⟩ := Language.mem_kstar.mp hb
  clear hb
  induction units with
  | nil => rfl
  | cons u units ih =>
      obtain ⟨hu, hrest⟩ := List.forall_mem_cons.mp hunits
      rw [List.flatten_cons, List.append_assoc]
      rcases hu with hescape | ⟨c, hc, rfl⟩
      · obtain ⟨b, tail, rfl, hb, d, -, rfl⟩ := Lexical.mem_oneOf_mul.mp hescape
        obtain rfl := of_decide_eq_true hb
        simp only [List.cons_append, List.nil_append, escapesNewline_escape, ih hrest,
          Bool.or_assoc]
      · simp only [ne_eq, Bool.and_eq_true, decide_eq_true_eq] at hc
        simp only [List.cons_append, List.nil_append, escapesNewline_cons hc.2, ih hrest]

/-- In a string with its quotes those newlines are escaped that are inside. -/
lemma escapesNewline_quoted {quote : Char} {tail : List Char}
    (hq : quote = '"' ∨ quote = '\'') (h : text = Lexeme.stringBody quote text ++ quote :: tail) :
    escapesNewline (quote :: Lexeme.stringBody quote text ++ [quote]) =
      escapesNewline (Lexeme.stringBody quote text) := by
  have hne : quote ≠ '\\' := by rcases hq with rfl | rfl <;> decide
  rw [List.cons_append, escapesNewline_cons hne,
    escapesNewline_append_of_mem (Lexical.stringBody_mem h), escapesNewline_cons hne]
  exact Bool.or_false _

/-- A string is a terminal unless a newline in it is escaped. -/
lemma terminal?_quoted {tail : List Char} (hq : c = '"' ∨ c = '\'')
    (h : Lexeme.scanQuoted c tail = .token kind piece) :
    kind = .literal .string ∧ terminal? (c :: tail) =
      if escapesNewline piece then none
      else some (.literal .string, cut piece (c :: tail)) := by
  rw [Lexeme.scanQuoted] at h
  split_ifs at h with hclosed
  obtain ⟨rfl, rfl⟩ := Lexeme.Scan.token.inj h
  refine ⟨rfl, ?_⟩
  obtain ⟨rest, hrest, rfl | ⟨rest, rfl⟩⟩ := Lexeme.stringBody_append c tail
  · rw [List.append_nil] at hrest
    rw [← hrest] at hclosed
    simp at hclosed
  have hdigit : isDecimalDigit c = false := by rcases hq with rfl | rfl <;> decide
  have hstring : string? (c :: tail) = after [c] (stringRest? c tail) := by
    rw [string?, if_pos (by simpa using hq)]
  rw [terminal?, number?_none hdigit, hstring, stringRest?_eq, escapesNewline_quoted hq hrest,
    Bool.eq_false_iff.mpr hclosed, Bool.false_or, after_cut]
  by_cases hescape : escapesNewline (Lexeme.stringBody c tail) = true
  · rw [if_pos hescape, if_pos hescape]
    rcases hq with rfl | rfl <;> rfl
  · rw [if_neg hescape, if_neg hescape]
    rfl

/-! ### Tokens -/

/-- What the scanner reads as a token the reference does not pass over. -/
lemma ignored?_of_token {tail : List Char} (h : scan (c :: tail) = .token kind piece) :
    ignored? (c :: tail) = none := by
  refine ignored?_none (fun hlayout => ?_) ?_ ?_
  · rw [scan, if_pos hlayout] at h
    cases h
  · rintro rfl
    cases h
  · rintro rfl
    cases h

/-- **The tokens of the scanner are terminals**, but for strings with an escaped
newline. -/
theorem agrees_of_token (h : scan (piece ++ rest) = .token kind piece)
    (ht : Tiles [] place rest tokens)
    (he : kind = .literal .string → escapesNewline piece = false) :
    Agrees (piece ++ rest) (.token kind piece) := by
  have hplain : PlainHead (piece ++ rest) :=
    plainHead_of_readable fun problem hproblem => by cases h.symm.trans hproblem
  have hends := fun hk => endsNumber_of_tiles ht ((Lexical.longest_of_scan h).2 hk)
  generalize htext : piece ++ rest = text at h hplain ⊢
  cases text with
  | nil => cases h
  | cons c tail =>
      have hi := ignored?_of_token h
      have hdigit : ¬ c.isDigit = true → isDecimalDigit c = false := fun hc =>
        Bool.eq_false_iff.mpr fun hd => hc (hplain c rfl hd)
      rw [scan] at h
      split_ifs at h with h1 h2 h3 h4 h5
      · obtain ⟨rfl, hterminal⟩ := terminal?_quoted (by simpa using h3) h
        rw [he rfl, if_neg Bool.false_ne_true] at hterminal
        exact .token hi hterminal
      · rw [Lexeme.scanDigits] at h
        split_ifs at h
        obtain ⟨rfl, rfl⟩ := Lexeme.Scan.token.inj h
        have hnumber := (numberAgrees_of_endsNumber (hends rfl) htext.symm).number?
        refine .token hi ?_
        rw [terminal?, hnumber, if_neg (by simp [Lexeme.digits, h4])]
      · obtain ⟨rfl, rfl⟩ := Lexeme.Scan.token.inj h
        exact .token hi (terminal?_word (hdigit h4) h5)
      · have hterminal : terminal? (c :: tail) = operator? (c :: tail) := by
          rw [terminal?, number?_none (hdigit h4), string?_none h3, word?_eq, if_neg h5]
        have hagrees := agrees_symbol hi hterminal
        rwa [h] at hagrees

/-- A string with an escaped newline is no terminal. -/
theorem terminal?_of_escapesNewline (h : scan text = .token (.literal .string) piece)
    (he : escapesNewline piece = true) : ignored? text = none ∧ terminal? text = none := by
  cases text with
  | nil => cases h
  | cons c tail =>
      refine ⟨ignored?_of_token h, ?_⟩
      obtain ⟨quote, hq, hquoted⟩ :
          ∃ quote, (quote = '"' ∨ quote = '\'') ∧ piece ∈ Lexical.quoted quote := by
        rcases Lexical.mem_lexeme_of_scan h with hquoted | hquoted
        · exact ⟨'"', .inl rfl, hquoted⟩
        · exact ⟨'\'', .inr rfl, hquoted⟩
      obtain ⟨tail', htail, hscan⟩ := Lexical.scanQuoted_of_mem hq hquoted (Lexeme.scan_token h).1
      obtain ⟨rfl, rfl⟩ := List.cons.inj htail
      rw [(terminal?_quoted hq hscan).2, if_pos he]

end Reference

end ArrayExpr
