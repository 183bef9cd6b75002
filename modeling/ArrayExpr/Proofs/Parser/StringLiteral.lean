/-
Strings: how a text is written, how it is scanned, and what is read from it.

* `StringLiteral.write`: a text as a string, with a backslash in front of every backslash
  and every quote;
* `StringLiteral.parts`: the parts of a string that are decoded one by one,
  `StringLiteral.partValue`: what a part stands for;
* `flatten_parts`, `decodeBody_eq`: a text is its parts, and decoding decodes them;
* `parts_flatten`: where the scanner cuts a string into parts the decoder cuts it too;
* `StringLiteral.ReadBack`: a source is one string, and its value is a text;
  `readBack_write`: this holds of every text as it is written;
* `StringLiteral.Whole`: the parts of a string end with it;
  `whole_of_mem_emitted`: this holds of every string that is read from a source;
* `strings_decoded`: both together.
-/
import ArrayExpr.Proofs.Parser.Acceptance
import ArrayExpr.Proofs.Scanner.Apart
import ArrayExpr.Proofs.Scanner.Covering
import ArrayExpr.Proofs.Scanner.Emitted

namespace ArrayExpr

namespace StringLiteral

variable {quote c : Char} {body rest text : List Char}

/-! ### How a text is written -/

/-- A character as it is written in a string. -/
def escape (quote c : Char) : List Char := if c = '\\' ∨ c = quote then ['\\', c] else [c]

/-- A text as it is written between quotes. -/
def write (quote : Char) (text : List Char) : List Char :=
  quote :: (text.flatMap (escape quote) ++ [quote])

lemma escape_mem_unit (quote c : Char) : escape quote c ∈ Lexical.unit quote := by
  rw [escape]
  split_ifs with h
  · exact .inl (Lexical.mem_oneOf_mul.mpr ⟨'\\', [c], rfl, rfl, c, rfl, rfl⟩)
  · rw [not_or] at h
    exact .inr ⟨c, by simp [h.1, h.2], rfl⟩

lemma mem_unit_of_mem_escaped (quote : Char) (text : List Char) :
    ∀ u ∈ text.map (escape quote), u ∈ Lexical.unit quote := by
  intro u hu
  obtain ⟨c, -, rfl⟩ := List.mem_map.mp hu
  exact escape_mem_unit quote c

/-- What is written is a lexeme. -/
lemma write_mem_lexeme (hq : quote = '"' ∨ quote = '\'') (text : List Char) :
    write quote text ∈ Lexical.lexeme (.literal .string) := by
  have hbody : (text.flatMap (escape quote)) ∈ KStar.kstar (Lexical.unit quote) :=
    Language.mem_kstar.mpr
      ⟨text.map (escape quote), List.flatMap_def .., mem_unit_of_mem_escaped quote text⟩
  have hquoted := Lexical.mem_quoted.mpr ⟨_, hbody, rfl⟩
  rcases hq with rfl | rfl
  · exact .inl hquoted
  · exact .inr hquoted

/-! ### Parts -/

/-- The parts of a string that are decoded one by one, from the left: a backslash with the
character after it, or else one character. -/
def parts : List Char → List (List Char)
  | [] => []
  | [c] => [[c]]
  | c :: d :: rest => if c = '\\' then [c, d] :: parts rest else [c] :: parts (d :: rest)

/-- What a part stands for: a pair for what is in the table of escapes. -/
def partValue : List Char → List Char
  | [_, d] => unescape d
  | part => part

/-- A part is decoded by the table, or is a character on its own. -/
lemma partValue_pair (b : Char) {d : Char} {text : List Char} :
    partValue [b, d] = text ↔ Escape d text := unescape_eq_iff

lemma parts_escape (d : Char) (rest : List Char) :
    parts ('\\' :: d :: rest) = ['\\', d] :: parts rest := by
  rw [parts, if_pos rfl]

lemma parts_cons (hc : c ≠ '\\') (rest : List Char) : parts (c :: rest) = [c] :: parts rest := by
  cases rest with
  | nil => rfl
  | cons d rest => rw [parts, if_neg hc]

/-- Any text is its parts. -/
lemma flatten_parts (text : List Char) : (parts text).flatten = text := by
  induction text using parts.induct with
  | case1 => rfl
  | case2 c => rfl
  | case3 d rest ih =>
      rw [parts_escape, List.flatten_cons, ih]
      rfl
  | case4 c d rest hc ih => rw [parts_cons hc, List.flatten_cons, ih, List.singleton_append]

/-- **Decoding goes part by part.** -/
lemma decodeBody_eq (body : List Char) : decodeBody body = (parts body).flatMap partValue := by
  induction body using parts.induct with
  | case1 => rfl
  | case2 c => rfl
  | case3 d rest ih =>
      rw [parts_escape, List.flatMap_cons, ← ih, decodeBody, if_pos rfl]
      rfl
  | case4 c d rest hc ih =>
      rw [parts_cons hc, List.flatMap_cons, ← ih, decodeBody, if_neg hc]
      rfl

/-- A part of a string for the scanner is a pair that begins with a backslash, or neither a
backslash nor the quote. -/
lemma unit_cases {part : List Char} (h : part ∈ Lexical.unit quote) :
    (∃ d, part = ['\\', d]) ∨ ∃ c, c ≠ '\\' ∧ c ≠ quote ∧ part = [c] := by
  rcases h with h | ⟨c, hc, rfl⟩
  · obtain ⟨b, _, rfl, hb, d, -, rfl⟩ := Lexical.mem_oneOf_mul.mp h
    exact .inl ⟨d, by rw [of_decide_eq_true hb]⟩
  · simp only [ne_eq, Bool.and_eq_true, decide_eq_true_eq] at hc
    exact .inr ⟨c, hc.2, hc.1, rfl⟩

/-- **Scanner and decoder cut a string into the same parts.** -/
lemma parts_flatten {units : List (List Char)} (h : ∀ u ∈ units, u ∈ Lexical.unit quote) :
    parts units.flatten = units := by
  induction units with
  | nil => rfl
  | cons u units ih =>
      obtain ⟨hu, hunits⟩ := List.forall_mem_cons.mp h
      rcases unit_cases hu with ⟨d, rfl⟩ | ⟨c, hc, -, rfl⟩
      · rw [List.flatten_cons, List.cons_append, List.singleton_append, parts_escape, ih hunits]
      · rw [List.flatten_cons, List.singleton_append, parts_cons hc, ih hunits]

lemma parts_written (quote : Char) (text : List Char) :
    parts (text.flatMap (escape quote)) = text.map (escape quote) := by
  rw [List.flatMap_def]
  exact parts_flatten (mem_unit_of_mem_escaped quote text)

/-! ### What is read back -/

lemma decodeString_quoted (quote : Char) (body : List Char) :
    decodeString (quote :: (body ++ [quote])) = decodeBody body := by
  rw [decodeString, List.drop_one, List.tail_cons, List.dropLast_concat]

/-- An escaped character stands for itself: a backslash and both quotes may be escaped. -/
lemma partValue_escape (hq : quote = '"' ∨ quote = '\'') (c : Char) :
    partValue (escape quote c) = [c] := by
  rw [escape]
  split_ifs with h
  · refine (partValue_pair _).mpr ?_
    rcases h with rfl | rfl
    · exact .backslash
    · rcases hq with rfl | rfl
      · exact .doubleQuote
      · exact .singleQuote
  · rfl

/-- **What is written is read back.** -/
theorem decodeString_write (hq : quote = '"' ∨ quote = '\'') (text : List Char) :
    decodeString (write quote text) = text := by
  rw [write, decodeString_quoted, decodeBody_eq, parts_written, List.flatMap_map]
  simp only [partValue_escape hq, List.flatMap_singleton']

/-- A source is one string, and the value read from it is `text`. -/
structure ReadBack (source : String) (text : String) : Prop where
  token : ∃ t finish, tokenize source = .ok ⟨[t], finish⟩ ∧ t.kind = .literal .string ∧
    t.span = ⟨0, source.length⟩ ∧ finish.ClosesAt source.length
  value : ∀ limit allowPartial, ∃ l span,
    parseSource limit allowPartial source = .accepted ⟨.literal l, span⟩ ∧ l.value = .text text

/-- A source with one string in it is a literal. -/
lemma parseSource_string {source : String} {t finish : Token}
    (h : tokenize source = .ok ⟨[t], finish⟩) (ht : t.kind = .literal .string) (limit : ℤ)
    (allowPartial : Bool) :
    parseSource limit allowPartial source =
      .accepted (Grammar.node [t] (.literal ⟨.string, t.text.getD ""⟩)) := by
  have hshort : ¬ t.IsLongInteger := by
    rintro ⟨hnumber, -⟩
    cases ht.symm.trans hnumber
  obtain ⟨hd, hf⟩ := Parser.within_literal (n := limit.toNat) ht hshort
  rw [parseSource_accepted_iff_within h]
  exact ⟨[t], [], rfl, ⟨.value (.comparand (.term (.factor (.unsigned (.bare hd))))), hf⟩,
    fun _ => rfl, by simp⟩

/-- **Any text can be written as a string.** -/
theorem readBack_write (hq : quote = '"' ∨ quote = '\'') (text : String) :
    ReadBack (String.ofList (write quote text.toList)) text := by
  set source := String.ofList (write quote text.toList) with hsource
  have hlist : source.toList = write quote text.toList := String.toList_ofList
  have hend : Lexical.Munches (Place.origin.after (write quote text.toList)) [] [] none :=
    .finish _
  have hmunches := Lexical.munches_of_mem_lexeme (write_mem_lexeme hq text.toList) (by simp) hend
  rw [List.append_nil, ← hlist] at hmunches
  have ht := tokenize_of_munches hmunches
  refine ⟨⟨_, _, ht, rfl, ?_, ?_⟩, fun limit allowPartial => ?_⟩
  · rw [← String.length_toList, Token.span, Lexeme.tokenAt, Place.after_origin_offset]
    rfl
  · rw [← String.length_toList]
    exact closesAt_closingToken _
  · refine ⟨_, _, parseSource_string ht rfl limit allowPartial, ?_⟩
    have hvalue : decodeString source.toList = text.toList := by
      rw [hlist, decodeString_write hq]
    simp [Literal.value, Lexeme.tokenAt, hvalue]

/-! ### Strings of a source -/

/-- What stands between quotes is its parts, and neither a backslash nor a quote is a part on
its own. -/
structure Whole (quote : Char) (body : List Char) : Prop where
  flatten : (parts body).flatten = body
  part : ∀ part ∈ parts body,
    (∃ d, part = ['\\', d]) ∨ ∃ c, c ≠ '\\' ∧ c ≠ quote ∧ part = [c]

lemma whole_of_mem (h : body ∈ KStar.kstar (Lexical.unit quote)) : Whole quote body := by
  obtain ⟨units, rfl, hunits⟩ := Language.mem_kstar.mp h
  refine ⟨flatten_parts _, fun part hpart => ?_⟩
  rw [parts_flatten hunits] at hpart
  exact unit_cases (hunits part hpart)

/-- **The parts of a string end with it**, wherever it is read from a source. -/
theorem whole_of_mem_emitted {source : String} {t : Token} (ht : t ∈ emitted source)
    (hk : t.kind = .literal .string) :
    ∃ quote body, (quote = '"' ∨ quote = '\'') ∧
      t.text = some (String.ofList (quote :: (body ++ [quote]))) ∧ Whole quote body := by
  obtain ⟨front, rest, -, htiles, -⟩ := tiles_emitted source
  obtain ⟨before, kind, piece, behind, -, rfl, hscan⟩ := htiles.exists_token ht
  obtain rfl : kind = .literal .string := hk
  have hquoted : ∃ quote, (quote = '"' ∨ quote = '\'') ∧ piece ∈ Lexical.quoted quote := by
    rcases Lexical.mem_lexeme_of_scan hscan with h | h
    · exact ⟨'"', .inl rfl, h⟩
    · exact ⟨'\'', .inr rfl, h⟩
  obtain ⟨quote, hq, hpiece⟩ := hquoted
  obtain ⟨body, hbody, rfl⟩ := Lexical.mem_quoted.mp hpiece
  exact ⟨quote, body, hq, rfl, whole_of_mem hbody⟩

/-- The value of a string is that of its parts, one after another. -/
lemma value_quoted (quote : Char) (body : List Char) :
    Literal.value ⟨.string, String.ofList (quote :: (body ++ [quote]))⟩ =
      .text (String.ofList ((parts body).flatMap partValue)) := by
  rw [← decodeBody_eq, ← decodeString_quoted quote body]
  simp [Literal.value]

end StringLiteral

open StringLiteral

/-- **Scanner and decoder agree on strings, and any text can be written.** With a backslash in
front of every backslash and every quote a text of any characters is one string, which is
read as a literal with this text for its value. And every string that is read from a source,
refused or not, falls into whole parts: pairs that begin with a backslash, and characters
that are neither a backslash nor the quote; its value is that of its parts. -/
theorem strings_decoded :
    (∀ quote, quote = '"' ∨ quote = '\'' → ∀ text : String,
        ReadBack (String.ofList (write quote text.toList)) text) ∧
      ∀ source, ∀ t ∈ emitted source, t.kind = .literal .string →
        ∃ quote body, (quote = '"' ∨ quote = '\'') ∧
          t.text = some (String.ofList (quote :: (body ++ [quote]))) ∧ Whole quote body ∧
          Literal.value ⟨.string, t.text.getD ""⟩ =
            .text (String.ofList ((parts body).flatMap partValue)) := by
  refine ⟨fun quote hq text => readBack_write hq text, fun source t ht hk => ?_⟩
  obtain ⟨quote, body, hq, htext, hwhole⟩ := whole_of_mem_emitted ht hk
  refine ⟨quote, body, hq, htext, hwhole, ?_⟩
  rw [htext, Option.getD_some, value_quoted]

/-- A quote and a newline to be written; and a string with two pairs in front of a character
that nothing begins with. -/
theorem strings_decoded_pairs :
    ReadBack (String.ofList (write '\'' "it's\n".toList)) "it's\n" ∧
      ∃ t ∈ emitted "\"\\a\\\"\" $", t.kind = .literal .string ∧
        ∃ quote body, (quote = '"' ∨ quote = '\'') ∧
          t.text = some (String.ofList (quote :: (body ++ [quote]))) ∧ Whole quote body ∧
          Literal.value ⟨.string, t.text.getD ""⟩ =
            .text (String.ofList ((parts body).flatMap partValue)) := by
  have hread : emitted "\"\\a\\\"\" $" =
      [⟨.literal .string, some "\"\\a\\\"\"", ⟨0, 1, 1⟩, 6⟩] := by decide +kernel
  have hmem : _ ∈ emitted "\"\\a\\\"\" $" := hread ▸ List.mem_singleton_self _
  exact ⟨strings_decoded.1 _ (.inr rfl) _, _, hmem, rfl, strings_decoded.2 _ _ hmem rfl⟩

end ArrayExpr
