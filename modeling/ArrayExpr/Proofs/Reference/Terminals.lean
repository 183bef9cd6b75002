/-
The terminals of the reference grammar are the lexemes of the scanner.

* `Reference.PlainText`: the texts on which both read alike;
* `Reference.Agrees`: what one round of the scanner takes is what the reference
  takes there, and what it cannot read the reference cannot read either, but
  for a number that a letter follows;
* `PlainText.agrees`: every round agrees on plain texts.
-/
import ArrayExpr.Reference.Terminal
import ArrayExpr.Proofs.Scanner.Round

namespace ArrayExpr

namespace Reference

open Lexeme (Scan)

/-- A text without the characters that the reference takes in another way: no
form feed, no sentinel, no digits but those of ASCII, no newline behind a
backslash, and no carriage return next to comments. -/
structure PlainText (text : List Char) : Prop where
  formFeed : '\x0c' ∉ text
  sentinel : '\x00' ∉ text
  digits : ∀ c ∈ text, isDecimalDigit c = true → c.isDigit = true
  escape : ¬ ['\\', '\n'] <:+: text
  comment : '#' ∈ text → '\r' ∉ text

variable {text rest piece : List Char} {c : Char} {kind : Kind}

lemma PlainText.of_suffix (h : PlainText text) (hs : rest <:+ text) : PlainText rest where
  formFeed := fun hm => h.formFeed (hs.mem hm)
  sentinel := fun hm => h.sentinel (hs.mem hm)
  digits := fun c hc => h.digits c (hs.mem hc)
  escape := fun hi => h.escape (hi.trans hs.isInfix)
  comment := fun hm hr => h.comment (hs.mem hm) (hs.mem hr)

lemma PlainText.tail (h : PlainText (c :: rest)) : PlainText rest :=
  h.of_suffix (List.suffix_cons c rest)

lemma PlainText.drop (h : PlainText text) (n : ℕ) : PlainText (text.drop n) :=
  h.of_suffix (List.drop_suffix n text)

/-! ### Pieces -/

/-- A piece at the front of a text with the text after it. -/
def cut (piece text : List Char) : Piece := (piece, text.drop piece.length)

lemma drop_takeWhile (p : Char → Bool) (text : List Char) :
    text.drop (text.takeWhile p).length = text.dropWhile p :=
  Lexeme.drop_of_append List.takeWhile_append_dropWhile.symm

lemma span_eq_cut (p : Char → Bool) (text : List Char) :
    text.span p = cut (text.takeWhile p) text := by
  rw [List.span_eq_takeWhile_dropWhile, cut, drop_takeWhile]

lemma takeWhile_congr {p q : Char → Bool} (h : ∀ c ∈ text, p c = q c) :
    text.takeWhile p = text.takeWhile q := by
  induction text with
  | nil => rfl
  | cons c text ih =>
      obtain ⟨hc, ht⟩ := List.forall_mem_cons.mp h
      rw [List.takeWhile_cons, List.takeWhile_cons, hc, ih ht]

/-- A run of characters in a class that agrees with another on the text. -/
lemma run?_eq {p q : Char → Bool} (h : ∀ c ∈ text, p c = q c) :
    run? p text =
      if (text.takeWhile q).isEmpty then none else some (cut (text.takeWhile q) text) := by
  rw [run?, span_eq_cut, takeWhile_congr h]
  rfl

/-! ### Numbers -/

/-- The digits of ASCII are digits. -/
lemma isDecimalDigit_of_isDigit (h : c.isDigit = true) : isDecimalDigit c = true := by
  simp only [Char.isDigit, Bool.and_eq_true, decide_eq_true_eq] at h
  have h1 : 0x30 ≤ c.toNat := h.1
  have h2 : c.toNat ≤ 0x39 := h.2
  rw [isDecimalDigit, digitValue?, Option.isSome_map, List.find?_isSome]
  refine ⟨0x30, by simp [digitZeros], ?_⟩
  simp only [Bool.and_eq_true, decide_eq_true_eq]
  omega

/-- The reference takes the digits ahead and no digit more. -/
def DigitsAgree (text : List Char) : Prop := text.takeWhile isDecimalDigit = Lexeme.digits text

lemma PlainText.digitsAgree (h : PlainText text) : DigitsAgree text :=
  takeWhile_congr fun c hc => Bool.eq_iff_iff.mpr ⟨h.digits c hc, isDecimalDigit_of_isDigit⟩

lemma DigitsAgree.digits? (h : DigitsAgree text) : digits? text =
    if (Lexeme.digits text).isEmpty then none else some (cut (Lexeme.digits text) text) := by
  rw [Reference.digits?, run?, span_eq_cut, h]
  rfl

lemma optional_sign (text : List Char) : optional sign? text = cut (Lexeme.sign text) text := by
  cases text with
  | nil => rfl
  | cons c rest =>
      by_cases h1 : c = '+'
      · subst h1
        rfl
      · by_cases h2 : c = '-'
        · subst h2
          rfl
        · simp [optional, sign?, Lexeme.sign, cut, h1, h2]

lemma optional_fraction (h : ∀ rest, text = '.' :: rest → DigitsAgree rest) :
    optional fraction? text = cut (Lexeme.fraction text) text := by
  rw [Lexeme.fraction.eq_def]
  split
  · rename_i rest
    rw [optional, fraction?, (h rest rfl).digits?]
    by_cases hd : (Lexeme.digits rest).isEmpty
    · simp [hd, cut]
    · simp [hd, cut]
  · simp [optional, fraction?, cut]

lemma optional_exponent
    (h : ∀ c rest, text = c :: rest → c = 'e' ∨ c = 'E' →
      DigitsAgree (rest.drop (Lexeme.sign rest).length)) :
    optional exponent? text = cut (Lexeme.exponent text) text := by
  cases text with
  | nil => rfl
  | cons c rest =>
      rw [optional, exponent?, optional_sign, cut]
      by_cases he : (c = 'e' || c = 'E') = true
      · have hdigits := (h c rest rfl (by simpa using he)).digits?
        by_cases hd : (Lexeme.digits (rest.drop (Lexeme.sign rest).length)).isEmpty
        · simp [Lexeme.exponent, he, hd, hdigits, cut]
        · simp [Lexeme.exponent, he, hd, hdigits, cut, List.drop_drop]
      · simp [Lexeme.exponent, he, cut]

/-- Wherever a number may have digits the reference takes those and no more. -/
structure NumberAgrees (text : List Char) : Prop where
  whole : DigitsAgree text
  fraction : ∀ rest, text.drop (Lexeme.digits text).length = '.' :: rest → DigitsAgree rest
  exponent : ∀ c rest, (text.drop (Lexeme.digits text).length).drop
      (Lexeme.fraction (text.drop (Lexeme.digits text).length)).length = c :: rest →
    c = 'e' ∨ c = 'E' → DigitsAgree (rest.drop (Lexeme.sign rest).length)

lemma PlainText.numberAgrees (h : PlainText text) : NumberAgrees text where
  whole := h.digitsAgree
  fraction rest hrest := by
    have hplain := h.drop (Lexeme.digits text).length
    rw [hrest] at hplain
    exact hplain.tail.digitsAgree
  exponent c rest hrest _ := by
    have hplain := (h.drop (Lexeme.digits text).length).drop
      (Lexeme.fraction (text.drop (Lexeme.digits text).length)).length
    rw [hrest] at hplain
    exact (hplain.tail.drop _).digitsAgree

/-- A number is read alike. -/
lemma NumberAgrees.number? (h : NumberAgrees text) : number? text =
    if (Lexeme.digits text).isEmpty then none else some (cut (Lexeme.number text) text) := by
  rw [Reference.number?, h.whole.digits?]
  by_cases hd : (Lexeme.digits text).isEmpty
  · simp [hd]
  · have hexponent := optional_exponent h.exponent
    rw [List.drop_drop] at hexponent
    simp only [hd, Bool.false_eq_true, if_false, Option.bind_eq_bind, Option.bind_some, cut,
      optional_fraction h.fraction, hexponent, Lexeme.number, List.drop_drop,
      List.length_append, Nat.add_assoc]
    rfl

/-! ### Strings, words and operators -/

/-- A backslash with a newline behind it is among the parts of a string. -/
def escapesNewline : List Char → Bool
  | '\\' :: c :: rest => c = '\n' || escapesNewline rest
  | _ :: rest => escapesNewline rest
  | [] => false

lemma escapesNewline_escape (d : Char) (rest : List Char) :
    escapesNewline ('\\' :: d :: rest) = (decide (d = '\n') || escapesNewline rest) := rfl

lemma escapesNewline_cons (hb : c ≠ '\\') (rest : List Char) :
    escapesNewline (c :: rest) = escapesNewline rest := by
  rw [escapesNewline.eq_def]
  split
  · next heq => exact absurd (List.cons.inj heq).1 hb
  · next heq => rw [(List.cons.inj heq).2]
  · next heq => cases heq

lemma after_cut {p : Prop} [Decidable p] (before piece rest : List Char) :
    after before (if p then none else some (cut piece rest)) =
      if p then none else some (cut (before ++ piece) (before ++ rest)) := by
  split_ifs
  · rfl
  · rw [after, cut, cut, List.length_append, ← List.drop_drop, List.drop_left]

/-- A string that ends is read alike, unless a newline in it is escaped. -/
lemma stringRest?_eq (quote : Char) (text : List Char) : stringRest? quote text =
    if (text.drop (Lexeme.stringBody quote text).length).isEmpty ||
      escapesNewline (Lexeme.stringBody quote text) then none
    else some (cut (Lexeme.stringBody quote text ++ [quote]) text) := by
  induction text using Lexeme.stringBody.induct quote with
  | case1 => rfl
  | case2 rest =>
      rw [Reference.stringRest?.eq_def]
      simp [Lexeme.stringBody_quote, cut, escapesNewline]
  | case3 hq => simp [Reference.stringRest?, Lexeme.stringBody, hq]
  | case4 d rest hq ih =>
      have hbody : Lexeme.stringBody quote ('\\' :: d :: rest) =
          '\\' :: d :: Lexeme.stringBody quote rest := by
        rw [Lexeme.stringBody.eq_def]
        simp [hq]
      have hrest : Reference.stringRest? quote ('\\' :: d :: rest) =
          if d = '\n' then none else after ['\\', d] (Reference.stringRest? quote rest) := by
        rw [Reference.stringRest?.eq_def]
        simp [hq]
      rw [hrest, hbody, ih, escapesNewline_escape]
      by_cases hd : d = '\n'
      · rw [if_pos hd, if_pos (by simp [hd])]
      · rw [if_neg hd, after_cut, decide_eq_false hd, Bool.false_or]
        rfl
  | case5 c rest hq hb ih =>
      have hrest : Reference.stringRest? quote (c :: rest) =
          after [c] (Reference.stringRest? quote rest) := by
        rw [Reference.stringRest?.eq_def]
        simp [hq, hb]
      rw [hrest, Lexeme.stringBody_cons hq hb, ih, escapesNewline_cons hb, after_cut]
      rfl

/-- Without escaped newlines no string has one. -/
lemma escapesNewline_of_not_infix (h : ¬ ['\\', '\n'] <:+: text) : escapesNewline text = false := by
  induction text using escapesNewline.induct with
  | case1 d rest ih =>
      have hd : d ≠ '\n' := by
        rintro rfl
        exact h ⟨[], rest, rfl⟩
      have hrest := ih fun hi => h (hi.trans ⟨['\\', d], [], by simp⟩)
      simp [escapesNewline_escape, hd, hrest]
  | case2 c rest hne ih =>
      have hrest := ih fun hi => h (hi.trans ⟨[c], [], by simp⟩)
      rw [escapesNewline, hrest]
      exact hne
  | case3 => rfl

lemma PlainText.stringRest? (h : PlainText text) (quote : Char) : stringRest? quote text =
    if (text.drop (Lexeme.stringBody quote text).length).isEmpty then none
    else some (cut (Lexeme.stringBody quote text ++ [quote]) text) := by
  obtain ⟨tail, htail, -⟩ := Lexeme.stringBody_append quote text
  have hbody : escapesNewline (Lexeme.stringBody quote text) = false :=
    escapesNewline_of_not_infix fun hi => h.escape (hi.trans ⟨[], tail, by simpa using htail.symm⟩)
  rw [stringRest?_eq, hbody, Bool.or_false]

/-- A word is read alike. -/
lemma word?_eq (c : Char) (rest : List Char) : word? (c :: rest) =
    if Lexeme.isWordStart c then some (cut (Lexeme.word (c :: rest)) (c :: rest)) else none := by
  by_cases hc : Lexeme.isWordStart c = true
  · have hstart : startsWord c = true := hc
    have hword : Lexeme.word (c :: rest) = c :: rest.takeWhile Lexeme.isWordChar := by
      rw [Lexeme.word, List.takeWhile_cons, if_pos (by simp [Lexeme.isWordChar, hc])]
    have hspan : (rest.span fun d => startsWord d || d.isDigit) =
        cut (rest.takeWhile Lexeme.isWordChar) rest := span_eq_cut _ _
    rw [word?, if_pos hstart, hspan, if_pos hc, hword]
    rfl
  · have hstart : startsWord c = false := Bool.not_eq_true _ |>.mp hc
    simp [word?, hstart, hc]

lemma wordKind_eq (word : List Char) : wordKind word = Lexeme.wordKind word := by
  have hinj : ∀ v : List Char, String.ofList word = String.ofList v ↔ word = v := fun v =>
    ⟨fun h => String.ofList_injective h, fun h => h ▸ rfl⟩
  rw [wordKind, Lexeme.wordKind]
  split
  · next h =>
    rw [(hinj ['t', 'r', 'u', 'e']).mp h]
    rfl
  · next h =>
    rw [(hinj ['f', 'a', 'l', 's', 'e']).mp h]
    rfl
  · next h =>
    rw [(hinj ['n', 'i', 'l']).mp h]
    rfl
  · next h1 h2 h3 =>
    rw [if_neg fun hw => h1 (by rw [hw]), if_neg fun hw => h2 (by rw [hw]),
      if_neg fun hw => h3 (by rw [hw])]

lemma isPrefixOf_eq_false {p : List Char} (h : ∀ rest, ¬ text = p ++ rest) :
    p.isPrefixOf text = false := by
  rw [Bool.eq_false_iff]
  intro hp
  obtain ⟨rest, hrest⟩ := List.isPrefixOf_iff_prefix.mp hp
  exact h rest hrest.symm

/-- An operator is read alike. -/
lemma operator?_eq (text : List Char) : operator? text =
    (Lexeme.operator? text).map fun op => (op.2, cut op.1 text) := by
  unfold operator?
  split <;>
    simp_all [Lexeme.operator?, Lexeme.operators, List.find?, List.isPrefixOf, cut,
      isPrefixOf_eq_false]

/-! ### White space and comments -/

lemma isSpace_eq (hc : c ≠ '\x0c') : isSpace c = Lexeme.isLayout c := by
  rw [isSpace, Lexeme.isLayout, Bool.eq_iff_iff]
  simp only [Bool.or_eq_true, decide_eq_true_eq]
  tauto

lemma PlainText.run?_isSpace (h : PlainText text) : run? isSpace text =
    if (text.takeWhile Lexeme.isLayout).isEmpty then none
    else some (cut (text.takeWhile Lexeme.isLayout) text) :=
  run?_eq fun _ hc => isSpace_eq fun he => h.formFeed (he ▸ hc)

lemma ignored?_of_ne (hc : c ≠ '#') : ignored? (c :: rest) = run? isSpace (c :: rest) := by
  rw [ignored?.eq_def]
  split
  · next heq => exact absurd (List.cons.inj heq).1 hc
  · rfl

/-- Layout is passed over alike. -/
lemma PlainText.ignored?_layout (h : PlainText (c :: rest)) (hc : Lexeme.isLayout c = true) :
    ignored? (c :: rest) =
      some (cut ((c :: rest).takeWhile Lexeme.isLayout) (c :: rest)) := by
  have hne : c ≠ '#' := by
    rintro rfl
    revert hc
    decide
  rw [ignored?_of_ne hne, h.run?_isSpace, if_neg (by simp [hc])]

/-- A comment is passed over alike. -/
lemma PlainText.ignored?_comment (h : PlainText ('#' :: rest)) :
    ignored? ('#' :: rest) =
      some (cut (('#' :: rest).takeWhile fun d => !Lexeme.endsComment d) ('#' :: rest)) := by
  have hends : ∀ d ∈ '#' :: rest, (d != '\n') = !Lexeme.endsComment d := fun d hd => by
    have h1 : d ≠ '\r' := fun he => h.comment (by simp) (he ▸ hd)
    have h2 : d ≠ '\x00' := fun he => h.sentinel (he ▸ hd)
    simp [Lexeme.endsComment, h1, h2, bne, beq_eq_decide]
  rw [ignored?, span_eq_cut, takeWhile_congr hends]

/-- Anything else is not passed over. -/
lemma ignored?_none (h1 : ¬ Lexeme.isLayout c = true) (h2 : c ≠ '#') (h3 : c ≠ '\x0c') :
    ignored? (c :: rest) = none := by
  have hc : isSpace c = false := by rw [isSpace_eq h3, Bool.eq_false_iff.mpr h1]
  rw [ignored?_of_ne h2, run?, span_eq_cut, List.takeWhile_cons_of_neg (by simp [hc])]
  rfl

lemma PlainText.ignored?_none (h : PlainText (c :: rest)) (h1 : ¬ Lexeme.isLayout c = true)
    (h2 : c ≠ '#') : ignored? (c :: rest) = none :=
  Reference.ignored?_none h1 h2 fun he => h.formFeed (he ▸ List.mem_cons_self)

/-! ### Rounds -/

/-- The kinds of literals and names. -/
def IsAtom (kind : Kind) : Prop := (∃ k, kind = .literal k) ∨ kind = .name

lemma isAtom_wordKind (word : List Char) : IsAtom (Lexeme.wordKind word) := by
  rw [Lexeme.wordKind]
  split_ifs
  · exact Or.inl ⟨_, rfl⟩
  · exact Or.inl ⟨_, rfl⟩
  · exact Or.inl ⟨_, rfl⟩
  · exact Or.inr rfl

/-- The reference reads at the front of a text what a round of the scanner
takes there. What the scanner cannot read is no terminal, or a number with a
word right behind it. -/
inductive Agrees (text : List Char) : Scan → Prop
  | layout {piece : List Char} (h : ignored? text = some (cut piece text)) :
      Agrees text (.layout piece)
  | token {kind : Kind} {piece : List Char} (hi : ignored? text = none)
      (h : terminal? text = some (kind, cut piece text)) : Agrees text (.token kind piece)
  | stuck {problem : ScanProblem} (hi : ignored? text = none) (h : terminal? text = none) :
      Agrees text (.refusal problem)
  | clash {problem : ScanProblem} {piece rest word : List Char} {kind : Kind}
      (hi : ignored? text = none) (h : terminal? text = some (.literal .number, piece, rest))
      (hi' : ignored? rest = none) (h' : terminal? rest = some (kind, cut word rest))
      (hk : IsAtom kind) : Agrees text (.refusal problem)

/-- A number begins with a digit. -/
lemma number?_none (hc : isDecimalDigit c = false) : number? (c :: rest) = none := by
  rw [number?, digits?, run?, span_eq_cut, List.takeWhile_cons_of_neg (by simp [hc])]
  rfl

lemma PlainText.not_isDecimalDigit (h : PlainText (c :: rest)) (hc : ¬ c.isDigit = true) :
    isDecimalDigit c = false :=
  Bool.eq_false_iff.mpr fun hd => hc (h.digits c List.mem_cons_self hd)

lemma string?_none (h : ¬ (c = '"' || c = '\'') = true) : string? (c :: rest) = none := by
  rw [string?, if_neg h]

/-- A word is a terminal. -/
lemma terminal?_word (hd : isDecimalDigit c = false) (hc : Lexeme.isWordStart c = true) :
    terminal? (c :: rest) = some (Lexeme.wordKind (Lexeme.word (c :: rest)),
      cut (Lexeme.word (c :: rest)) (c :: rest)) := by
  rw [terminal?, number?_none hd,
    string?_none (Lexeme.ne_of_isWordStart hc).2.2, word?_eq, if_pos hc]
  simp only [wordKind_eq, cut]

/-- The scan of a string agrees. -/
lemma PlainText.agrees_quoted (h : PlainText (c :: rest)) (hi : ignored? (c :: rest) = none)
    (hc : (c = '"' || c = '\'') = true) :
    Agrees (c :: rest) (Lexeme.scanQuoted c rest) := by
  have hquote : c = '"' ∨ c = '\'' := by
    simpa only [Bool.or_eq_true, decide_eq_true_eq] using hc
  have hdigit : isDecimalDigit c = false := by
    rcases hquote with rfl | rfl <;> decide
  have hs : string? (c :: rest) = after [c] (Reference.stringRest? c rest) := by
    rw [string?, if_pos hc]
  rw [Lexeme.scanQuoted]
  split_ifs with he
  · refine .stuck hi ?_
    rw [terminal?, number?_none hdigit, hs, h.tail.stringRest?, if_pos he]
    rcases hquote with rfl | rfl <;> rfl
  · refine .token hi ?_
    rw [terminal?, number?_none hdigit, hs, h.tail.stringRest?, if_neg he]
    simp [after, cut]

/-- The scan of a number agrees: where a word stands right behind the number,
the reference reads the word next. -/
lemma PlainText.agrees_digits (h : PlainText (c :: rest)) (hi : ignored? (c :: rest) = none)
    (hc : c.isDigit = true) : Agrees (c :: rest) (Lexeme.scanDigits (c :: rest)) := by
  have hn : terminal? (c :: rest) =
      some (.literal .number, cut (Lexeme.number (c :: rest)) (c :: rest)) := by
    rw [terminal?, h.numberAgrees.number?, if_neg (by simp [Lexeme.digits, hc])]
  rw [Lexeme.scanDigits]
  split_ifs with he
  · have hrest := h.drop (Lexeme.number (c :: rest)).length
    rw [cut] at hn
    generalize (c :: rest).drop (Lexeme.number (c :: rest)).length = tail at he hrest hn
    cases tail with
    | nil => exact absurd he (by decide)
    | cons d tail =>
        obtain ⟨hlayout, hcomment, -⟩ := Lexeme.ne_of_isWordStart he
        have hdigit := hrest.not_isDecimalDigit (Lexeme.not_isDigit_of_isWordStart he)
        exact .clash hi hn (hrest.ignored?_none hlayout hcomment) (terminal?_word hdigit he)
          (isAtom_wordKind _)
  · exact .token hi hn

/-- The scan of a symbol agrees. -/
lemma agrees_symbol (hi : ignored? (c :: rest) = none)
    (ht : terminal? (c :: rest) = operator? (c :: rest)) :
    Agrees (c :: rest) (Lexeme.scanSymbol c (c :: rest)) := by
  rw [Lexeme.scanSymbol]
  split
  · next symbol kind ho =>
    refine .token hi ?_
    rw [ht, operator?_eq, ho]
    rfl
  · next ho =>
    refine .stuck hi ?_
    rw [ht, operator?_eq, ho]
    rfl

/-- **Every round of the scanner agrees with the reference** on plain texts. -/
theorem PlainText.agrees (h : PlainText (c :: rest)) :
    Agrees (c :: rest) (Lexeme.scan (c :: rest)) := by
  rw [Lexeme.scan]
  split_ifs with hlayout hcomment hquote hdigit hword
  · exact .layout (h.ignored?_layout hlayout)
  · subst hcomment
    exact .layout h.ignored?_comment
  · exact h.agrees_quoted (h.ignored?_none hlayout hcomment) hquote
  · exact h.agrees_digits (h.ignored?_none hlayout hcomment) hdigit
  · exact .token (h.ignored?_none hlayout hcomment)
      (terminal?_word (h.not_isDecimalDigit hdigit) hword)
  · have ht : terminal? (c :: rest) = operator? (c :: rest) := by
      rw [terminal?, number?_none (h.not_isDecimalDigit hdigit), string?_none hquote, word?_eq,
        if_neg hword]
    exact agrees_symbol (h.ignored?_none hlayout hcomment) ht

end Reference

end ArrayExpr
