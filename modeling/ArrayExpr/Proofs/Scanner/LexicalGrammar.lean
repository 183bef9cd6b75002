/-
The lexical grammar.

* `Lexical.lexeme`: the lexemes of each kind, as a language;
* `Lexical.Greedy`: a function takes the longest piece of a language that stands at
  the front of a text; `Greedy.append` joins two of them;
* `Lexical.number_longest`, `word_longest`, `scanQuoted_of_mem`, `operator_longest`:
  what the scanner takes is the longest one at the front of the text;
* `Lexical.mem_lexeme_of_scan`: a token that the scanner reads is a lexeme.
-/
import Mathlib.Computability.Language
import ArrayExpr.Proofs.Scanner.Excerpt

namespace ArrayExpr

namespace Lexical

open Computability

/-! ### Languages -/

/-- One character of a class. -/
def oneOf (p : Char → Bool) : Language Char := {w | ∃ c, p c = true ∧ w = [c]}

/-- One or more characters of a class. -/
def run (p : Char → Bool) : Language Char := oneOf p * (oneOf p)∗

/-- What may be left out. -/
def optional (l : Language Char) : Language Char := l + 1

/-- A point and digits. -/
def fraction : Language Char := oneOf (· = '.') * run Char.isDigit

/-- A mark, perhaps a sign, and digits. -/
def exponent : Language Char :=
  oneOf (fun c => c = 'e' || c = 'E') *
    (optional (oneOf fun c => c = '+' || c = '-') * run Char.isDigit)

/-- Digits, perhaps a fraction, perhaps an exponent. -/
def number : Language Char := run Char.isDigit * (optional fraction * optional exponent)

/-- A letter or an underscore, then letters, underscores and digits. -/
def word : Language Char := oneOf Lexeme.isWordStart * (oneOf Lexeme.isWordChar)∗

/-- A part of a string in quotes `quote`: a backslash with any character, or one
character that is neither the quote nor a backslash. -/
def unit (quote : Char) : Language Char :=
  oneOf (· = '\\') * oneOf (fun _ => true) + oneOf fun c => c ≠ quote && c ≠ '\\'

/-- A string in quotes `quote`. -/
def quoted (quote : Char) : Language Char :=
  oneOf (· = quote) * ((unit quote)∗ * oneOf (· = quote))

/-- The words that are literals. -/
def keywords : List (List Char × LiteralKind) :=
  [("true".toList, .true), ("false".toList, .false), ("nil".toList, .nil)]

/-- The lexemes of a kind. -/
def lexeme : Kind → Language Char
  | .literal .number => number
  | .literal .string => quoted '"' + quoted '\''
  | .literal kind => {w | (w, kind) ∈ keywords}
  | .name => {w | w ∈ word ∧ ∀ kind, (w, kind) ∉ keywords}
  | kind => {w | kind.symbol? = some (String.ofList w)}

variable {p : Char → Bool} {l m : Language Char} {f g : List Char → List Char}
  {text w : List Char} {c quote : Char} {kind : Kind}

/-! ### Members -/

lemma mem_kstar_oneOf : w ∈ (oneOf p)∗ ↔ ∀ c ∈ w, p c = true := by
  rw [Language.mem_kstar]
  constructor
  · rintro ⟨pieces, rfl, hpieces⟩ c hc
    obtain ⟨piece, hpiece, hc⟩ := List.mem_flatten.mp hc
    obtain ⟨d, hd, rfl⟩ := hpieces piece hpiece
    rwa [List.mem_singleton.mp hc]
  · intro hw
    refine ⟨w.map fun c => [c], (List.flatMap_singleton' w).symm, fun piece hpiece => ?_⟩
    obtain ⟨c, hc, rfl⟩ := List.mem_map.mp hpiece
    exact ⟨c, hw c hc, rfl⟩

lemma mem_oneOf_mul : w ∈ oneOf p * l ↔ ∃ c rest, w = c :: rest ∧ p c = true ∧ rest ∈ l := by
  rw [Language.mem_mul]
  constructor
  · rintro ⟨_, ⟨c, hc, rfl⟩, rest, hrest, rfl⟩
    exact ⟨c, rest, rfl, hc, hrest⟩
  · rintro ⟨c, rest, rfl, hc, hrest⟩
    exact ⟨[c], ⟨c, hc, rfl⟩, rest, hrest, rfl⟩

lemma mem_run : w ∈ run p ↔ w ≠ [] ∧ ∀ c ∈ w, p c = true := by
  rw [run, mem_oneOf_mul]
  constructor
  · rintro ⟨c, rest, rfl, hc, hrest⟩
    exact ⟨List.cons_ne_nil _ _, List.forall_mem_cons.mpr ⟨hc, mem_kstar_oneOf.mp hrest⟩⟩
  · rintro ⟨hne, hall⟩
    obtain ⟨c, rest, rfl⟩ := List.exists_cons_of_ne_nil hne
    obtain ⟨hc, hrest⟩ := List.forall_mem_cons.mp hall
    exact ⟨c, rest, rfl, hc, mem_kstar_oneOf.mpr hrest⟩

lemma mem_optional : w ∈ optional l ↔ w ∈ l ∨ w = [] := by
  rw [optional, Language.mem_add, Language.mem_one]

/-! ### Longest pieces -/

/-- `f` takes the longest piece of `l` that stands at the front of a text. -/
structure Greedy (f : List Char → List Char) (l : Language Char) : Prop where
  mem : ∀ text, f text ∈ l
  longest : ∀ {text w : List Char}, w ∈ l → w <+: text → w <+: f text

lemma greedy_takeWhile (p : Char → Bool) : Greedy (List.takeWhile p) (oneOf p)∗ where
  mem text := mem_kstar_oneOf.mpr fun _ hc => List.mem_takeWhile_imp hc
  longest {text w} hw hprefix := by
    obtain ⟨rest, rfl⟩ := hprefix
    rw [List.takeWhile_append_of_pos (mem_kstar_oneOf.mp hw)]
    exact List.prefix_append _ _

/-- Longest pieces join, if nothing of the second language can stand behind a
shorter piece of the first. -/
lemma Greedy.append (hf : Greedy f l) (hg : Greedy g m)
    (hsep : ∀ u ∈ l, ∀ v ∈ m, v ≠ [] → ∀ rest, f (u ++ (v ++ rest)) = u) :
    Greedy (fun text => f text ++ g (text.drop (f text).length)) (l * m) where
  mem text := Language.append_mem_mul (hf.mem text) (hg.mem _)
  longest {text w} hw hprefix := by
    obtain ⟨u, hu, v, hv, rfl⟩ := Language.mem_mul.mp hw
    by_cases hnil : v = []
    · rw [hnil, List.append_nil] at hprefix ⊢
      exact (hf.longest hu hprefix).trans (List.prefix_append _ _)
    · obtain ⟨rest, rfl⟩ := hprefix
      rw [List.append_assoc, hsep u hu v hv hnil rest, List.drop_left]
      exact (List.prefix_append_right_inj u).mpr (hg.longest hv (List.prefix_append _ _))

/-! ### Numbers -/

/-- Digits end where something else follows. -/
lemma digits_append {u rest : List Char} (hu : ∀ c ∈ u, c.isDigit = true)
    (hc : c.isDigit = false) : Lexeme.digits (u ++ c :: rest) = u := by
  rw [Lexeme.digits, List.takeWhile_append_of_pos hu, List.takeWhile_cons_of_neg (by simp [hc]),
    List.append_nil]

lemma greedy_fraction : Greedy Lexeme.fraction (optional fraction) where
  mem text := by
    rw [mem_optional]
    unfold Lexeme.fraction
    split
    · split_ifs with h
      · exact .inr rfl
      · refine .inl (mem_oneOf_mul.mpr ⟨'.', _, rfl, rfl, mem_run.mpr ⟨by simpa using h, ?_⟩⟩)
        exact fun c hc => List.mem_takeWhile_imp hc
    · exact .inr rfl
  longest {text w} hw hprefix := by
    rcases mem_optional.mp hw with hw | rfl
    · obtain ⟨c, ds, rfl, hc, hds⟩ := mem_oneOf_mul.mp hw
      obtain rfl := of_decide_eq_true hc
      obtain ⟨hne, hdigits⟩ := mem_run.mp hds
      obtain ⟨rest, rfl⟩ := hprefix
      have hrest : ds <+: Lexeme.digits (ds ++ rest) :=
        (greedy_takeWhile _).longest (mem_kstar_oneOf.mpr hdigits) (List.prefix_append _ _)
      rw [List.cons_append, Lexeme.fraction_dot, if_neg]
      · exact (List.prefix_cons_inj _).mpr hrest
      · intro hnil
        exact hne (List.prefix_nil.mp (hnil ▸ hrest))
    · exact List.nil_prefix

lemma greedy_sign : Greedy Lexeme.sign (optional (oneOf fun c => c = '+' || c = '-')) where
  mem text := by
    rw [mem_optional]
    unfold Lexeme.sign
    split
    · exact .inl ⟨'+', rfl, rfl⟩
    · exact .inl ⟨'-', rfl, rfl⟩
    · exact .inr rfl
  longest {text w} hw hprefix := by
    rcases mem_optional.mp hw with ⟨c, hc, rfl⟩ | rfl
    · obtain ⟨rest, rfl⟩ := hprefix
      simp only [Bool.or_eq_true, decide_eq_true_eq] at hc
      rcases hc with rfl | rfl <;> exact List.prefix_rfl
    · exact List.nil_prefix

/-- A sign is not followed by another before digits. -/
lemma greedy_power : Greedy (fun rest => Lexeme.sign rest ++ Lexeme.power rest)
    (optional (oneOf fun c => c = '+' || c = '-') * (oneOf Char.isDigit)∗) := by
  refine greedy_sign.append (greedy_takeWhile Char.isDigit) fun u hu v hv hne rest => ?_
  obtain ⟨d, v, rfl⟩ := List.exists_cons_of_ne_nil hne
  have hd := mem_kstar_oneOf.mp hv d List.mem_cons_self
  rcases mem_optional.mp hu with ⟨c, hc, rfl⟩ | rfl
  · simp only [Bool.or_eq_true, decide_eq_true_eq] at hc
    rcases hc with rfl | rfl <;> rfl
  · have hplus : d ≠ '+' := by rintro rfl; exact absurd hd (by decide)
    have hminus : d ≠ '-' := by rintro rfl; exact absurd hd (by decide)
    simp [Lexeme.sign, hplus, hminus]

lemma not_isDigit_of_sign {rest : List Char} (hc : c ∈ Lexeme.sign rest) : c.isDigit = false := by
  unfold Lexeme.sign at hc
  split at hc
  · rw [List.mem_singleton.mp hc]
    rfl
  · rw [List.mem_singleton.mp hc]
    rfl
  · cases hc

lemma greedy_exponent : Greedy Lexeme.exponent (optional exponent) where
  mem text := by
    rw [mem_optional]
    cases text with
    | nil => exact .inr rfl
    | cons c rest =>
        rw [Lexeme.exponent_cons]
        split_ifs with h
        · obtain ⟨hmark, hpower⟩ := h
          have hdigits : ∀ d ∈ Lexeme.power rest, d.isDigit = true :=
            fun d hd => List.mem_takeWhile_imp hd
          exact .inl (mem_oneOf_mul.mpr ⟨c, _, rfl, by simpa using hmark,
            Language.append_mem_mul (greedy_sign.mem rest) (mem_run.mpr ⟨hpower, hdigits⟩)⟩)
        · exact .inr rfl
  longest {text w} hw hprefix := by
    rcases mem_optional.mp hw with hw | rfl
    · obtain ⟨c, tail, rfl, hmark, htail⟩ := mem_oneOf_mul.mp hw
      obtain ⟨u, hu, v, hv, rfl⟩ := Language.mem_mul.mp htail
      obtain ⟨hne, hdigits⟩ := mem_run.mp hv
      obtain ⟨rest, rfl⟩ := hprefix
      have htaken : u ++ v <+: Lexeme.sign (u ++ v ++ rest) ++ Lexeme.power (u ++ v ++ rest) :=
        greedy_power.longest (Language.append_mem_mul hu (mem_kstar_oneOf.mpr hdigits))
          (List.prefix_append _ _)
      -- Otherwise the digits would be part of the sign.
      have hpower : Lexeme.power (u ++ v ++ rest) ≠ [] := by
        intro hnone
        obtain ⟨d, v, rfl⟩ := List.exists_cons_of_ne_nil hne
        rw [hnone, List.append_nil] at htaken
        have hd := not_isDigit_of_sign (htaken.subset (List.mem_append_right u List.mem_cons_self))
        rw [hdigits d List.mem_cons_self] at hd
        cases hd
      rw [List.cons_append, Lexeme.exponent_cons, if_pos ⟨by simpa using hmark, hpower⟩]
      exact (List.prefix_cons_inj _).mpr htaken
    · exact List.nil_prefix

/-- An exponent begins with its mark. -/
lemma head_of_mem_exponent {v : List Char} (hv : v ∈ optional exponent) (hne : v ≠ []) :
    ∃ c rest, v = c :: rest ∧ (c = 'e' ∨ c = 'E') := by
  obtain ⟨c, rest, rfl, hc, -⟩ := mem_oneOf_mul.mp ((mem_optional.mp hv).resolve_right hne)
  exact ⟨c, rest, rfl, by simpa using hc⟩

lemma not_isDigit_of_mark (hc : c = 'e' ∨ c = 'E') : c.isDigit = false := by
  rcases hc with rfl | rfl <;> rfl

/-- What may stand behind the digits of a number begins with no digit. -/
lemma head_of_mem_parts {v : List Char} (hv : v ∈ optional fraction * optional exponent)
    (hne : v ≠ []) : ∃ c rest, v = c :: rest ∧ c.isDigit = false := by
  obtain ⟨u, hu, power, hpower, rfl⟩ := Language.mem_mul.mp hv
  rcases mem_optional.mp hu with hu | rfl
  · obtain ⟨c, ds, rfl, hc, -⟩ := mem_oneOf_mul.mp hu
    exact ⟨c, ds ++ power, rfl, by rw [of_decide_eq_true hc]; rfl⟩
  · obtain ⟨c, rest, rfl, hc⟩ := head_of_mem_exponent hpower hne
    exact ⟨c, rest, rfl, not_isDigit_of_mark hc⟩

/-- A fraction ends where an exponent follows. -/
lemma fraction_append {u v rest : List Char} (hu : u ∈ optional fraction)
    (hv : v ∈ optional exponent) (hne : v ≠ []) : Lexeme.fraction (u ++ (v ++ rest)) = u := by
  obtain ⟨c, v, rfl, hc⟩ := head_of_mem_exponent hv hne
  rcases mem_optional.mp hu with hu | rfl
  · obtain ⟨point, ds, rfl, hpoint, hds⟩ := mem_oneOf_mul.mp hu
    obtain rfl := of_decide_eq_true hpoint
    obtain ⟨hnonempty, hdigits⟩ := mem_run.mp hds
    have htaken : Lexeme.digits (ds ++ (c :: v ++ rest)) = ds :=
      digits_append hdigits (not_isDigit_of_mark hc)
    rw [List.cons_append, Lexeme.fraction_dot, htaken, if_neg hnonempty]
  · rcases hc with rfl | rfl <;> rfl

lemma greedy_parts : Greedy (fun text => Lexeme.fraction text ++
      Lexeme.exponent (text.drop (Lexeme.fraction text).length))
    (optional fraction * optional exponent) :=
  greedy_fraction.append greedy_exponent fun _ hu _ hv hne _ => fraction_append hu hv hne

/-- The scanner takes digits, and whatever parts of a number follow. -/
lemma greedy_number : Greedy Lexeme.number
    ((oneOf Char.isDigit)∗ * (optional fraction * optional exponent)) := by
  have h := (greedy_takeWhile Char.isDigit).append greedy_parts fun u hu v hv hne rest => by
    obtain ⟨c, v, rfl, hc⟩ := head_of_mem_parts hv hne
    exact digits_append (mem_kstar_oneOf.mp hu) hc
  have heq : Lexeme.number = fun text => text.takeWhile Char.isDigit ++
      (Lexeme.fraction (text.drop (text.takeWhile Char.isDigit).length) ++
        Lexeme.exponent ((text.drop (text.takeWhile Char.isDigit).length).drop
          (Lexeme.fraction (text.drop (text.takeWhile Char.isDigit).length)).length)) := by
    funext text
    simp only [Lexeme.number, Lexeme.digits, List.append_assoc]
  rw [heq]
  exact h

/-- A number is the longest one at the front of the text. -/
theorem number_longest (hw : w ∈ number) (h : w <+: text) : w <+: Lexeme.number text := by
  obtain ⟨ds, hds, parts, hparts, rfl⟩ := Language.mem_mul.mp hw
  have hdigits := mem_kstar_oneOf.mpr (mem_run.mp hds).2
  exact greedy_number.longest (Language.append_mem_mul hdigits hparts) h

lemma head_of_mem_number (hw : w ∈ number) : ∃ c rest, w = c :: rest ∧ c.isDigit = true := by
  obtain ⟨ds, hds, parts, -, rfl⟩ := Language.mem_mul.mp hw
  obtain ⟨hne, hdigits⟩ := mem_run.mp hds
  obtain ⟨c, ds, rfl⟩ := List.exists_cons_of_ne_nil hne
  exact ⟨c, ds ++ parts, rfl, hdigits c List.mem_cons_self⟩

lemma number_mem {rest : List Char} (hc : c.isDigit = true) :
    Lexeme.number (c :: rest) ∈ number := by
  have hdigits : Lexeme.digits (c :: rest) ∈ run Char.isDigit :=
    mem_run.mpr ⟨by simp [Lexeme.digits, hc], fun d hd => List.mem_takeWhile_imp hd⟩
  rw [Lexeme.number, List.append_assoc]
  exact Language.append_mem_mul hdigits (greedy_parts.mem _)

/-! ### Words -/

lemma head_of_mem_word (hw : w ∈ word) : ∃ c rest, w = c :: rest ∧ Lexeme.isWordStart c = true := by
  obtain ⟨c, rest, rfl, hc, -⟩ := mem_oneOf_mul.mp hw
  exact ⟨c, rest, rfl, hc⟩

/-- A word is the longest one at the front of the text. -/
theorem word_longest (hw : w ∈ word) (h : w <+: text) : w <+: Lexeme.word text := by
  obtain ⟨c, rest, rfl, hc, hrest⟩ := mem_oneOf_mul.mp hw
  have hchar : Lexeme.isWordChar c = true := by rw [Lexeme.isWordChar, hc, Bool.true_or]
  have hall : ∀ d ∈ c :: rest, Lexeme.isWordChar d = true :=
    List.forall_mem_cons.mpr ⟨hchar, mem_kstar_oneOf.mp hrest⟩
  exact (greedy_takeWhile Lexeme.isWordChar).longest (mem_kstar_oneOf.mpr hall) h

lemma word_mem (rest : List Char) (hc : Lexeme.isWordStart c = true) :
    Lexeme.word (c :: rest) ∈ word := by
  have hchar : Lexeme.isWordChar c = true := by rw [Lexeme.isWordChar, hc, Bool.true_or]
  rw [Lexeme.word, List.takeWhile_cons_of_pos hchar]
  exact mem_oneOf_mul.mpr ⟨c, _, rfl, hc, (greedy_takeWhile _).mem rest⟩

/-- The kind of a word is the only one it is a lexeme of. -/
lemma mem_lexeme_wordKind (hw : w ∈ word) : w ∈ lexeme (Lexeme.wordKind w) := by
  unfold Lexeme.wordKind
  split_ifs with h1 h2 h3
  · exact h1 ▸ (by decide : ("true".toList, LiteralKind.true) ∈ keywords)
  · exact h2 ▸ (by decide : ("false".toList, LiteralKind.false) ∈ keywords)
  · exact h3 ▸ (by decide : ("nil".toList, LiteralKind.nil) ∈ keywords)
  · refine ⟨hw, fun kind hkind => ?_⟩
    simp only [keywords, List.mem_cons, Prod.mk.injEq, List.not_mem_nil, or_false] at hkind
    rcases hkind with ⟨h, -⟩ | ⟨h, -⟩ | ⟨h, -⟩
    · exact h1 h
    · exact h2 h
    · exact h3 h

/-! ### Strings -/

lemma append_mem_kstar {u v : List Char} (hu : u ∈ l) (hv : v ∈ l∗) : u ++ v ∈ l∗ := by
  obtain ⟨pieces, rfl, hpieces⟩ := Language.mem_kstar.mp hv
  exact Language.mem_kstar.mpr ⟨u :: pieces, rfl, List.forall_mem_cons.mpr ⟨hu, hpieces⟩⟩

lemma mem_quoted : w ∈ quoted quote ↔ ∃ body ∈ (unit quote)∗, w = quote :: (body ++ [quote]) := by
  rw [quoted, mem_oneOf_mul]
  constructor
  · rintro ⟨c, _, rfl, hc, htail⟩
    obtain ⟨body, hbody, _, ⟨d, hd, rfl⟩, rfl⟩ := Language.mem_mul.mp htail
    exact ⟨body, hbody, by rw [of_decide_eq_true hc, of_decide_eq_true hd]⟩
  · rintro ⟨body, hbody, rfl⟩
    exact ⟨quote, _, rfl, decide_eq_true rfl,
      Language.append_mem_mul hbody ⟨quote, decide_eq_true rfl, rfl⟩⟩

/-- What stands before the closing quote are whole parts of a string. -/
lemma stringBody_mem {tail : List Char}
    (h : text = Lexeme.stringBody quote text ++ quote :: tail) :
    Lexeme.stringBody quote text ∈ (unit quote)∗ := by
  induction text using Lexeme.stringBody.induct quote with
  | case1 => cases h
  | case2 rest =>
      rw [Lexeme.stringBody_quote]
      exact Language.nil_mem_kstar _
  | case3 hq =>
      rw [Lexeme.stringBody.eq_def] at h
      simp [hq] at h
  | case4 d rest hq ih =>
      rw [Lexeme.stringBody_escape (Ne.symm hq)] at h ⊢
      simp only [List.cons_append, List.cons.injEq, true_and] at h
      have hunit : ['\\', d] ∈ unit quote :=
        .inl (mem_oneOf_mul.mpr ⟨'\\', [d], rfl, rfl, d, rfl, rfl⟩)
      exact append_mem_kstar hunit (ih h)
  | case5 c rest hq hb ih =>
      rw [Lexeme.stringBody_cons hq hb] at h ⊢
      simp only [List.cons_append, List.cons.injEq, true_and] at h
      have hunit : [c] ∈ unit quote := .inr ⟨c, by simp [hq, hb], rfl⟩
      exact append_mem_kstar hunit (ih h)

/-- Whole parts of a string are passed. -/
lemma stringBody_append_of_mem {body : List Char} (hq : quote ≠ '\\') (hb : body ∈ (unit quote)∗)
    (rest : List Char) :
    Lexeme.stringBody quote (body ++ rest) = body ++ Lexeme.stringBody quote rest := by
  obtain ⟨units, rfl, hunits⟩ := Language.mem_kstar.mp hb
  clear hb
  induction units with
  | nil => rfl
  | cons u units ih =>
      obtain ⟨hu, hunits⟩ := List.forall_mem_cons.mp hunits
      rw [List.flatten_cons, List.append_assoc, List.append_assoc, ← ih hunits]
      rcases hu with hescape | ⟨c, hc, rfl⟩
      · obtain ⟨b, tail, rfl, hb, d, -, rfl⟩ := mem_oneOf_mul.mp hescape
        obtain rfl := of_decide_eq_true hb
        exact Lexeme.stringBody_escape hq d _
      · simp only [ne_eq, Bool.and_eq_true, decide_eq_true_eq] at hc
        exact Lexeme.stringBody_cons hc.1 hc.2 _

/-- **A string at the front of a text is the one that the scanner reads.** -/
theorem scanQuoted_of_mem (hq : quote = '"' ∨ quote = '\'') (hw : w ∈ quoted quote)
    (h : w <+: text) :
    ∃ rest, text = quote :: rest ∧ Lexeme.scanQuoted quote rest = .token (.literal .string) w := by
  obtain ⟨body, hbody, rfl⟩ := mem_quoted.mp hw
  obtain ⟨rest, rfl⟩ := h
  have hne : quote ≠ '\\' := by rcases hq with rfl | rfl <;> decide
  refine ⟨body ++ [quote] ++ rest, rfl, ?_⟩
  have htaken : Lexeme.stringBody quote (body ++ [quote] ++ rest) = body := by
    rw [List.append_assoc, stringBody_append_of_mem hne hbody, List.singleton_append,
      Lexeme.stringBody_quote, List.append_nil]
  rw [Lexeme.scanQuoted, htaken, List.append_assoc, List.drop_left, if_neg (by simp)]
  rfl

lemma mem_of_scanQuoted {rest piece : List Char}
    (h : Lexeme.scanQuoted quote rest = .token kind piece) :
    kind = .literal .string ∧ piece ∈ quoted quote := by
  rw [Lexeme.scanQuoted] at h
  split_ifs at h with hclosed
  obtain ⟨rfl, rfl⟩ := Lexeme.Scan.token.inj h
  obtain ⟨tail, htail, rfl | ⟨tail, rfl⟩⟩ := Lexeme.stringBody_append quote rest
  · rw [List.append_nil] at htail
    rw [← htail] at hclosed
    simp at hclosed
  · exact ⟨rfl, mem_quoted.mpr ⟨_, stringBody_mem htail, rfl⟩⟩

/-! ### Operators -/

/-- The operators are the symbols of the kinds that have one. -/
lemma mem_operators_iff : (w, kind) ∈ Lexeme.operators ↔ kind.symbol? = some (String.ofList w) := by
  constructor
  · intro h
    have hall : ∀ op ∈ Lexeme.operators, op.2.symbol? = some (String.ofList op.1) := by decide
    exact hall _ h
  · intro h
    have hw : w = (kind.symbol?.getD "").toList := by rw [h, Option.getD_some, String.toList_ofList]
    rw [hw]
    cases kind with
    | literal | name | finish => cases h
    | arith op => cases op <;> decide
    | compare op => cases op <;> decide
    | assign | openParen | closeParen | openBracket | closeBracket | dot | comma | semicolon =>
        decide

/-- The operator ahead is the longest one. -/
theorem operator_longest (hw : (w, kind) ∈ Lexeme.operators) (h : w <+: text) :
    ∃ piece kind', Lexeme.operator? text = some (piece, kind') ∧ w.length ≤ piece.length := by
  have hsorted : Lexeme.operators.Pairwise fun op op' => op'.1.length ≤ op.1.length := by decide
  cases ho : Lexeme.operator? text with
  | none =>
      have hnone := List.find?_eq_none.mp ho _ hw
      exact absurd (List.isPrefixOf_iff_prefix.mpr h) hnone
  | some found =>
      refine ⟨found.1, found.2, rfl, ?_⟩
      obtain ⟨-, before, behind, hops, hbefore⟩ := List.find?_eq_some_iff_append.mp ho
      rw [hops] at hw hsorted
      rcases List.mem_append.mp hw with hw | hw
      -- An operator before the one found stands not at the front.
      · have hno := hbefore _ hw
        rw [List.isPrefixOf_iff_prefix.mpr h] at hno
        cases hno
      · rcases List.mem_cons.mp hw with rfl | hw
        · exact Nat.le_refl _
        · exact (List.pairwise_cons.mp (List.pairwise_append.mp hsorted).2.1).1 _ hw

lemma mem_lexeme_of_operator (h : (w, kind) ∈ Lexeme.operators) : w ∈ lexeme kind := by
  have hsymbol := mem_operators_iff.mp h
  cases kind with
  | literal | name | finish => cases hsymbol
  | arith | compare | assign | openParen | closeParen | openBracket | closeBracket | dot | comma
  | semicolon => exact hsymbol

/-! ### Tokens -/

/-- **A token that the scanner reads is a lexeme** of its kind. -/
theorem mem_lexeme_of_scan {piece : List Char} (h : Lexeme.scan text = .token kind piece) :
    piece ∈ lexeme kind := by
  cases text with
  | nil => cases h
  | cons c rest =>
      rw [Lexeme.scan] at h
      split_ifs at h with h1 h2 h3 h4 h5
      · obtain ⟨rfl, hpiece⟩ := mem_of_scanQuoted h
        simp only [Bool.or_eq_true, decide_eq_true_eq] at h3
        rcases h3 with rfl | rfl
        · exact .inl hpiece
        · exact .inr hpiece
      · rw [Lexeme.scanDigits] at h
        split_ifs at h
        obtain ⟨rfl, rfl⟩ := Lexeme.Scan.token.inj h
        exact number_mem h4
      · obtain ⟨rfl, rfl⟩ := Lexeme.Scan.token.inj h
        exact mem_lexeme_wordKind (word_mem _ h5)
      · rw [Lexeme.scanSymbol] at h
        split at h
        · rename_i symbol found ho
          obtain ⟨rfl, rfl⟩ := Lexeme.Scan.token.inj h
          exact mem_lexeme_of_operator (List.mem_of_find?_eq_some ho)
        · cases h

end Lexical

end ArrayExpr
