/-
Texts written from lexemes.

* `Lexical.filler`: blanks and comments, each comment with the end of its line;
* `Lexical.Word`: a lexeme with its kind, and the filler behind it;
* `Script`: words to be written one after another, with filler in front of the first
  and between any two;
* `Lexical.munches_filler`, `munches_words`: filler is skipped, and a word is taken
  whole wherever it is written;
* `tokenize_script`: the tokens of the text are the words.
-/
import ArrayExpr.Proofs.Scanner.Apart

namespace ArrayExpr

namespace Lexical

open Computability
open Lexeme (isLayout endsComment)

variable {place : Place} {gap rest piece : List Char} {tokens : List Token} {e : Option ScanError}
  {c : Char}

/-! ### What stands between lexemes -/

/-- A blank, or a comment with the end of its line. -/
def spacer : Language Char :=
  oneOf isLayout +
    oneOf (· = '#') * ((oneOf fun c => !endsComment c)∗ * oneOf fun c => c = '\n' || c = '\r')

/-- Blanks and comments in any number. -/
def filler : Language Char := spacer∗

/-- A comment of a spacer has the end of its line with it. -/
lemma spacer_cases (h : piece ∈ spacer) :
    (∃ c, isLayout c = true ∧ piece = [c]) ∨
      ∃ body c, (∀ d ∈ body, endsComment d = false) ∧ (c = '\n' ∨ c = '\r') ∧
        piece = '#' :: (body ++ [c]) := by
  rcases h with h | h
  · exact .inl h
  · obtain ⟨d, tail, rfl, hd, htail⟩ := mem_oneOf_mul.mp h
    obtain ⟨body, hbody, _, ⟨c, hc, rfl⟩, rfl⟩ := Language.mem_mul.mp htail
    obtain rfl := of_decide_eq_true hd
    exact .inr ⟨body, c, fun d hd => by simpa using mem_kstar_oneOf.mp hbody d hd,
      by simpa using hc, rfl⟩

/-- No lexeme but a string goes on into filler. -/
lemma apart_of_mem_filler (hgap : gap ∈ filler) : ∀ c ∈ gap.head?, Apart c := by
  obtain ⟨pieces, rfl, hpieces⟩ := Language.mem_kstar.mp hgap
  cases pieces with
  | nil => simp
  | cons piece pieces =>
      intro c hc
      rcases spacer_cases (hpieces piece List.mem_cons_self) with
        ⟨d, hd, rfl⟩ | ⟨body, d, -, -, rfl⟩
      · obtain rfl := Option.some.inj hc
        exact apart_of_isLayout hd
      · obtain rfl := Option.some.inj hc
        exact apart_comment

/-- A spacer is skipped. -/
lemma munches_spacer (hpiece : piece ∈ spacer) (h : Munches (place.after piece) rest tokens e) :
    Munches place (piece ++ rest) tokens e := by
  rcases spacer_cases hpiece with ⟨c, hc, rfl⟩ | ⟨body, c, hbody, hc, rfl⟩
  · exact .blank hc h
  · have hlayout : isLayout c = true := by rcases hc with rfl | rfl <;> rfl
    have hend : endsComment c = true := by rcases hc with rfl | rfl <;> rfl
    rw [← List.cons_append, Place.after_append] at h
    rw [← List.cons_append, List.append_assoc]
    refine .comment hbody (fun d hd => ?_) (.blank hlayout h)
    obtain rfl := Option.some.inj hd
    exact hend

/-- **Filler is skipped.** -/
lemma munches_filler (hgap : gap ∈ filler) (h : Munches (place.after gap) rest tokens e) :
    Munches place (gap ++ rest) tokens e := by
  obtain ⟨pieces, rfl, hpieces⟩ := Language.mem_kstar.mp hgap
  clear hgap
  induction pieces generalizing place with
  | nil => exact h
  | cons piece pieces ih =>
      obtain ⟨hpiece, hpieces⟩ := List.forall_mem_cons.mp hpieces
      rw [List.flatten_cons, Place.after_append] at h
      rw [List.flatten_cons, List.append_assoc]
      exact munches_spacer hpiece (ih hpieces h)

/-! ### Words -/

/-- A lexeme with its kind, and what is written behind it. -/
structure Word where
  kind : Kind
  piece : List Char
  gap : List Char
  mem : piece ∈ lexeme kind
  blank : gap ∈ filler

/-- The characters of a word with those behind it. -/
def Word.text (w : Word) : List Char := w.piece ++ w.gap

/-- **Words are taken one after another**, if something stands between any two of
them. -/
theorem munches_words (place : Place) (words : List Word)
    (hgaps : ∀ w ∈ words.dropLast, w.gap ≠ []) :
    ∃ tokens, Munches place (words.flatMap Word.text) tokens none ∧
      tokens.map (fun t => (t.kind, t.text)) =
        words.map fun w => (w.kind, some (String.ofList w.piece)) := by
  induction words generalizing place with
  | nil => exact ⟨[], .finish place, rfl⟩
  | cons w words ih =>
      -- What follows the lexeme begins with the gap, or it is the end of the text.
      have hbehind : ∀ c ∈ (w.gap ++ words.flatMap Word.text).head?, Apart c := by
        intro c hc
        cases hgap : w.gap with
        | cons d gap =>
            rw [hgap] at hc
            exact apart_of_mem_filler w.blank c (by rwa [hgap])
        | nil =>
            cases words with
            | nil =>
                rw [hgap] at hc
                cases hc
            | cons v words => exact absurd hgap (hgaps w (by simp))
      have hrest : ∀ v ∈ words.dropLast, v.gap ≠ [] := by
        intro v hv
        cases words with
        | nil => cases hv
        | cons u words => exact hgaps v (List.mem_cons_of_mem _ hv)
      obtain ⟨tokens, htokens, hmap⟩ := ih ((place.after w.piece).after w.gap) hrest
      refine ⟨Lexeme.tokenAt place w.kind w.piece :: tokens, ?_, ?_⟩
      · rw [List.flatMap_cons, Word.text, List.append_assoc]
        exact munches_of_mem_lexeme w.mem hbehind (munches_filler w.blank htokens)
      · rw [List.map_cons, List.map_cons, hmap]
        rfl

end Lexical

/-! ### Scripts -/

/-- Words to be written one after another. Only behind the last one nothing need be
written. -/
structure Script where
  front : List Char
  words : List Lexical.Word
  blank : front ∈ Lexical.filler
  apart : ∀ w ∈ words.dropLast, w.gap ≠ []

/-- The text that is written. -/
def Script.text (s : Script) : String :=
  String.ofList (s.front ++ s.words.flatMap Lexical.Word.text)

/-- **The tokens of a written text are its words.** Whatever lexemes are written one after
another, with blanks and closed comments between any two of them and perhaps around them
all, are read back in order with their kinds and their texts, and the closing token
follows. -/
theorem tokenize_script (s : Script) :
    ∃ tokens, tokenize s.text = .ok tokens ∧
      tokens.toList.map (fun t => (t.kind, t.text)) =
        s.words.map (fun w => (w.kind, some (String.ofList w.piece))) ++ [(.finish, none)] := by
  obtain ⟨items, hitems, hmap⟩ :=
    Lexical.munches_words (Place.origin.after s.front) s.words s.apart
  have hall := Lexical.munches_filler s.blank hitems
  rw [← String.toList_ofList (l := s.front ++ _)] at hall
  refine ⟨_, tokenize_of_munches hall, ?_⟩
  rw [Tokens.toList, List.map_append, hmap]
  rfl

/-- A number and a string with a comment between them; the comment holds a quote, and the
string a `#`. -/
theorem tokenize_script_comment :
    ∃ s : Script, s.text = "1 #\"\n\"#\"" ∧
      ∃ tokens, tokenize s.text = .ok tokens ∧
        tokens.toList.map (fun t => (t.kind, t.text)) =
          [(.literal .number, some "1"), (.literal .string, some "\"#\""), (.finish, none)] := by
  have hgap : [' ', '#', '"', '\n'] ∈ Lexical.filler := by
    have hquote : ['"'] ∈ KStar.kstar (Lexical.oneOf fun c => !Lexeme.endsComment c) :=
      Lexical.mem_kstar_oneOf.mpr (List.forall_mem_singleton.mpr rfl)
    refine Language.mem_kstar.mpr ⟨[[' '], ['#', '"', '\n']], rfl, ?_⟩
    simp only [List.forall_mem_cons]
    refine ⟨.inl ⟨' ', rfl, rfl⟩, .inr ?_, by simp⟩
    exact Lexical.mem_oneOf_mul.mpr
      ⟨'#', _, rfl, rfl, Language.append_mem_mul hquote ⟨'\n', rfl, rfl⟩⟩
  have hscan : Lexeme.scan ['1'] = .token (.literal .number) ['1'] := rfl
  have hscan' : Lexeme.scan ['"', '#', '"'] = .token (.literal .string) ['"', '#', '"'] := rfl
  have hnumber := Lexical.mem_lexeme_of_scan hscan
  have hstring := Lexical.mem_lexeme_of_scan hscan'
  have hnil : [] ∈ Lexical.filler := Language.nil_mem_kstar _
  let s : Script := ⟨[], [⟨_, _, _, hnumber, hgap⟩, ⟨_, _, _, hstring, hnil⟩], hnil, by simp⟩
  exact ⟨s, rfl, tokenize_script s⟩

end ArrayExpr
