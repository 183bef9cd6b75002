/-
Characters that stand apart.

* `Lexical.Apart`: a character that is in no lexeme but strings, unless it is an operator
  by itself;
* `Lexical.Longest.apart`: the longest lexeme at the front of a text stays the longest with
  such a character behind the text;
* `Lexical.munches_of_mem_lexeme`: a lexeme is taken whole in front of such a character;
* `Lexical.Munches.apart`: a text that ends with its last token keeps its tokens;
* `tokenize_putIn`: a separator that is put behind a token of a source is one token more.
-/
import ArrayExpr.Proofs.Scanner.Munch

namespace ArrayExpr

namespace Lexical

open Lexeme (Scan scan isLayout isWordStart isWordChar operators)

variable {c : Char} {kind : Kind} {text piece rest behind w : List Char} {p : Char → Bool}
  {l m : Language Char}

/-- A character that is in no number and no word, and in no operator but itself. -/
structure Apart (c : Char) : Prop where
  digit : c.isDigit = false
  mark : c ∉ ['.', 'e', 'E', '+', '-']
  letter : isWordStart c = false
  operator : ∀ op ∈ operators, c ∈ op.1 → op.1 = [c]

lemma apart_of_isLayout (hc : isLayout c = true) : Apart c := by
  simp only [isLayout, Bool.or_eq_true, decide_eq_true_eq, or_assoc] at hc
  rcases hc with rfl | rfl | rfl | rfl <;>
    exact ⟨by decide, by decide, by decide, by decide⟩

lemma apart_newline : Apart '\n' := apart_of_isLayout rfl

lemma apart_comment : Apart '#' := ⟨by decide, by decide, by decide, by decide⟩

lemma apart_comma : Apart ',' := ⟨by decide, by decide, by decide, by decide⟩

lemma apart_semicolon : Apart ';' := ⟨by decide, by decide, by decide, by decide⟩

/-! ### Lexemes with a character that stands apart -/

lemma notMem_run (hp : p c = false) (hw : w ∈ run p) : c ∉ w := fun h => by
  rw [(mem_run.mp hw).2 _ h] at hp
  cases hp

lemma notMem_mul (hl : ∀ u ∈ l, c ∉ u) (hm : ∀ v ∈ m, c ∉ v) (hw : w ∈ l * m) : c ∉ w := by
  obtain ⟨u, hu, v, hv, rfl⟩ := Language.mem_mul.mp hw
  exact List.not_mem_append (hl u hu) (hm v hv)

lemma notMem_oneOf (hp : p c = false) (hw : w ∈ oneOf p) : c ∉ w := by
  obtain ⟨d, hd, rfl⟩ := hw
  rw [List.mem_singleton]
  rintro rfl
  rw [hp] at hd
  cases hd

lemma notMem_optional (hl : ∀ u ∈ l, c ∉ u) (hw : w ∈ optional l) : c ∉ w := by
  rcases mem_optional.mp hw with hw | rfl
  · exact hl w hw
  · exact List.not_mem_nil

lemma Apart.notMem_number (hc : Apart c) (hw : w ∈ number) : c ∉ w := by
  have hmark := hc.mark
  simp only [List.mem_cons, List.not_mem_nil, or_false, not_or] at hmark
  have hdigits : ∀ u ∈ run Char.isDigit, c ∉ u := fun u => notMem_run hc.digit
  have hfraction : ∀ u ∈ fraction, c ∉ u := fun u =>
    notMem_mul (fun _ => notMem_oneOf (by simp [hmark])) hdigits
  have hsign : ∀ u ∈ optional (oneOf fun c => c = '+' || c = '-'), c ∉ u := fun u =>
    notMem_optional fun _ => notMem_oneOf (by simp [hmark])
  have hexponent : ∀ u ∈ exponent, c ∉ u := fun u =>
    notMem_mul (fun _ => notMem_oneOf (by simp [hmark])) fun _ => notMem_mul hsign hdigits
  exact notMem_mul hdigits
    (fun _ => notMem_mul (fun _ => notMem_optional hfraction) fun _ => notMem_optional hexponent) hw

lemma Apart.notMem_word (hc : Apart c) (hw : w ∈ word) : c ∉ w := by
  have hchar : isWordChar c = false := by rw [isWordChar, hc.letter, hc.digit]; rfl
  refine notMem_mul (fun _ => notMem_oneOf hc.letter) (fun _ hu hmem => ?_) hw
  rw [mem_kstar_oneOf.mp hu c hmem] at hchar
  cases hchar

/-- **Only a string holds such a character**, or the character is an operator. -/
lemma Apart.alone_or_quoted (hc : Apart c) (hw : w ∈ lexeme kind) (hmem : c ∈ w) :
    w = [c] ∨ ∃ quote, (quote = '"' ∨ quote = '\'') ∧ w ∈ quoted quote := by
  rcases lexeme_cases hw with ⟨-, h⟩ | ⟨-, h⟩ | ⟨-, h⟩ | h
  · exact absurd hmem (hc.notMem_number h)
  · exact .inr h
  · exact absurd hmem (hc.notMem_word h)
  · exact .inl (hc.operator _ h hmem)

/-! ### The longest lexeme -/

/-- In front of a quote only a string is taken. -/
lemma quoted_of_takes {quote : Char} (hq : quote = '"' ∨ quote = '\'')
    (h : Takes (quote :: rest) kind piece) : piece ∈ quoted quote := by
  cases h with
  | token h =>
      rw [Lexeme.scan_quote hq] at h
      exact (mem_of_scanQuoted h).2
  | suffix h =>
      rw [Lexeme.scan_quote hq, Lexeme.scanQuoted] at h
      split_ifs at h
      cases h

/-- Of two strings at the front of a text neither is longer. -/
lemma quoted_unique {quote : Char} (hq : quote = '"' ∨ quote = '\'') (hw : w ∈ quoted quote)
    (hp : piece ∈ quoted quote) (h : w <+: text) (h' : piece <+: text) : w = piece := by
  obtain ⟨rest, rfl, hscan⟩ := scanQuoted_of_mem hq hw h
  obtain ⟨rest', hrest, hscan'⟩ := scanQuoted_of_mem hq hp h'
  obtain ⟨-, rfl⟩ := List.cons.inj hrest
  exact (Scan.token.inj (hscan.symm.trans hscan')).2

/-- What stands at the front of a text with more behind it stands at the front of the text,
or goes on behind it. -/
lemma prefix_append_cons_cases (h : w <+: text ++ c :: behind) :
    w <+: text ∨ ∃ y, w = text ++ c :: y := by
  rcases List.prefix_or_prefix_of_prefix h (List.prefix_append _ _) with h' | ⟨y, rfl⟩
  · exact .inl h'
  · rw [List.prefix_append_right_inj] at h
    rcases List.prefix_cons_iff.mp h with rfl | ⟨y, rfl, -⟩
    · rw [List.append_nil]
      exact .inl List.prefix_rfl
    · exact .inr ⟨y, rfl⟩

lemma Longest.text_ne_nil (h : Longest text kind piece) : text ≠ [] := by
  rintro rfl
  cases longest_iff_takes.mp h with
  | token hscan => cases hscan
  | suffix hscan => cases hscan

/-- **The longest lexeme stays the longest** with such a character behind the text. -/
theorem Longest.apart (hc : Apart c) (h : Longest text kind piece) (behind : List Char) :
    Longest (text ++ c :: behind) kind piece := by
  have hfront : piece <+: text ++ c :: behind := h.atFront.trans (List.prefix_append _ _)
  have htakes := longest_iff_takes.mp h
  obtain ⟨d, text, rfl⟩ := List.exists_cons_of_ne_nil h.text_ne_nil
  refine ⟨h.mem, hfront, fun kind' w hw hprefix => ?_⟩
  rcases prefix_append_cons_cases hprefix with hw' | ⟨y, rfl⟩
  · exact h.longest kind' w hw hw'
  rcases hc.alone_or_quoted hw (by simp) with hone | ⟨quote, hq, hquoted⟩
  · simp at hone
  -- A string begins the text then, and the piece is that string.
  · obtain ⟨rest, htext, -⟩ := scanQuoted_of_mem hq hquoted hprefix
    obtain ⟨rfl, -⟩ := List.cons.inj htext
    rw [quoted_unique hq hquoted (quoted_of_takes hq htakes) hprefix hfront]

/-! ### Texts that end with a token -/

variable {place : Place} {tokens added : List Token}

/-- No word begins in front of such a character, -/
lemma not_wordFollows (hrest : ∀ c ∈ rest.head?, Apart c) : ¬ WordFollows rest := by
  rintro ⟨c, hc, hword⟩
  rw [(hrest c hc).letter] at hword
  cases hword

/-- and none begins where the text went on before and none did. -/
lemma Apart.not_wordFollows (hc : Apart c) (h : ¬ WordFollows rest) :
    ¬ WordFollows (rest ++ c :: behind) := by
  cases rest with
  | nil =>
      refine Lexical.not_wordFollows fun d hd => ?_
      obtain rfl := Option.some.inj hd
      exact hc
  | cons d rest => exact h

/-- **A lexeme is taken whole** at the end of a text, and in front of such a character. -/
lemma munches_of_mem_lexeme {e : Option ScanError} (hw : w ∈ lexeme kind)
    (hrest : ∀ c ∈ rest.head?, Apart c) (h : Munches (place.after w) rest tokens e) :
    Munches place (w ++ rest) (Lexeme.tokenAt place kind w :: tokens) e := by
  have hlongest : Longest (w ++ rest) kind w := by
    cases rest with
    | nil =>
        rw [List.append_nil]
        exact longest_of_mem hw
    | cons c behind => exact (longest_of_mem hw).apart (hrest c rfl) behind
  exact .lexeme hlongest (fun _ => not_wordFollows hrest) h

lemma Munches.eq_nil {e : Option ScanError} (h : Munches place [] tokens e) : tokens = [] := by
  generalize htext : [] = text at h
  cases h with
  | finish | suffix | noLexeme => rfl
  | blank | comment => cases htext
  | lexeme hl => exact absurd htext.symm hl.text_ne_nil

/-- **A text that ends with its last token keeps its tokens** with such a character behind
it. -/
theorem Munches.apart (hc : Apart c) (h : Munches place text tokens none)
    (htext : tokens = [] → text = [])
    (hstop : tokens ≠ [] → (extent tokens).stop = (place.after text).offset)
    (hb : Munches (place.after text) (c :: behind) added none) :
    Munches place (text ++ c :: behind) (tokens ++ added) none := by
  generalize he : (none : Option ScanError) = e at h
  induction h with
  | finish place => exact hb
  | blank hd _ ih =>
      have hne : _ ≠ [] := fun hnil => List.cons_ne_nil _ _ (htext hnil)
      exact .blank hd (ih (fun hnil => absurd hnil hne) hstop hb he)
  | @comment place body rest tokens e hbody hend h ih =>
      have hne : tokens ≠ [] := fun hnil => List.cons_ne_nil _ _ (htext hnil)
      rw [Place.after_append] at hb hstop
      rw [List.append_assoc]
      refine .comment hbody (fun d hd => ?_) (ih (fun hnil => absurd hnil hne) hstop hb he)
      cases rest with
      | nil => exact absurd h.eq_nil hne
      | cons d' rest => exact hend d hd
  | @lexeme place kind piece rest tokens e hl hs _ ih =>
      rw [Place.after_append] at hb hstop
      have hl' := hl.apart hc behind
      rw [List.append_assoc] at hl' ⊢
      refine .lexeme hl' (fun hk => hc.not_wordFollows (hs hk))
        (ih (fun hnil => ?_) (fun hne => ?_) hb he)
      · have hlen := hstop (List.cons_ne_nil _ _)
        rw [hnil, Place.after_offset] at hlen
        simpa [extent, Lexeme.tokenAt] using hlen
      · rw [← hstop (List.cons_ne_nil _ _), ← List.singleton_append, extent_append_stop _ hne]
  | suffix => cases he
  | noLexeme => cases he

end Lexical

/-! ### Sources -/

/-- The character that a separator is written with. -/
def Kind.separatorCharacter : Kind → Char
  | semicolon => ';'
  | _ => ','

/-- A source with a character put in at an offset. -/
def putIn (source : String) (offset : ℕ) (c : Char) : String :=
  String.ofList (source.toList.take offset ++ c :: source.toList.drop offset)

/-- **A separator that is put behind a token** is one token more. -/
theorem tokenize_putIn {source : String} {tokens : Tokens} {front back : List Token} {kind : Kind}
    (h : tokenize source = .ok tokens) (hitems : tokens.items = front ++ back)
    (hfront : front ≠ []) (hk : kind = .comma ∨ kind = .semicolon) :
    ∃ t tokens', t.kind = kind ∧
      tokenize (putIn source (extent front).stop kind.separatorCharacter) = .ok tokens' ∧
      List.Forall₂ Token.Alike (front ++ t :: back) tokens'.items := by
  obtain ⟨htiles, -⟩ := tokenize_eq_ok_iff.mp h
  rw [hitems] at htiles
  obtain ⟨core, rest, hsource, hcore, hrest, hnil, hstop⟩ := htiles.exists_stop
  have hput : (putIn source (extent front).stop kind.separatorCharacter).toList =
      core ++ kind.separatorCharacter :: rest := by
    have hlen : (extent front).stop = core.length := by
      rw [hstop hfront, Place.after_offset]
      simp [Place.origin]
    rw [putIn, String.toList_ofList, hlen, hsource, List.take_left, List.drop_left]
  have hscan : Lexeme.scan ([kind.separatorCharacter] ++ rest) =
      .token kind [kind.separatorCharacter] := by
    rcases hk with rfl | rfl <;> rfl
  have hapart : Lexical.Apart kind.separatorCharacter := by
    rcases hk with rfl | rfl
    · exact Lexical.apart_comma
    · exact Lexical.apart_semicolon
  -- The text in front keeps its tokens, the one behind has them one place further.
  obtain ⟨back', hback, halike⟩ :=
    hrest.shift ((Place.origin.after core).after [kind.separatorCharacter])
  obtain ⟨hl, hs⟩ := Lexical.longest_of_scan hscan
  have hall : Lexical.Munches .origin (core ++ kind.separatorCharacter :: rest) _ none :=
    (Lexical.munches_none_iff.mpr (hcore.cut List.nil_prefix)).apart hapart hnil hstop
      (.lexeme hl hs (Lexical.munches_none_iff.mpr hback))
  rw [← hput] at hall
  exact ⟨_, _, rfl, tokenize_of_munches hall,
    List.rel_append (List.forall₂_same.mpr fun t _ => ⟨rfl, rfl⟩) (.cons ⟨rfl, rfl⟩ halike)⟩

end ArrayExpr
