/-
What stands between tokens.

* `Gap`: blanks and comments in front of what stands behind; a comment goes on to
  the end of its line, or of the text;
* `Lexeme.scan_layout_cases`, `scan_comment`: layout is a run of blanks, or one
  comment;
* `Lexeme.scan_nul`: the scanner reads nothing where a `'\x00'` stands;
* `Tiles.gap`: a text without tokens is a gap.
-/
import Mathlib.Data.List.TakeWhile
import ArrayExpr.Proofs.Scanner.Tiling

namespace ArrayExpr

/-- Blanks and comments, while `behind` stands behind them. -/
inductive Gap (behind : List Char) : List Char → Prop
  | nil : Gap behind []
  | blank {c : Char} {text : List Char} (hc : Lexeme.isLayout c = true) (ht : Gap behind text) :
      Gap behind (c :: text)
  | comment {body text : List Char} (hbody : ∀ c ∈ body, c ≠ '\n' ∧ c ≠ '\r')
      (hend : ∀ c ∈ (text ++ behind).head?, c = '\n' ∨ c = '\r') (ht : Gap behind text) :
      Gap behind ('#' :: (body ++ text))

lemma Gap.blanks {behind text piece : List Char} (hp : ∀ c ∈ piece, Lexeme.isLayout c = true)
    (ht : Gap behind text) : Gap behind (piece ++ text) := by
  induction piece with
  | nil => exact ht
  | cons c piece ih =>
      obtain ⟨hc, hp⟩ := List.forall_mem_cons.mp hp
      exact .blank hc (ih hp)

namespace Lexeme

variable {piece rest : List Char}

/-- Layout is a run of blanks, or a comment up to a character that ends it. -/
lemma scan_layout_cases (h : scan (piece ++ rest) = .layout piece) :
    (∀ c ∈ piece, isLayout c = true) ∨
      ∃ body, piece = '#' :: body ∧ (∀ c ∈ body, endsComment c = false) ∧
        ∀ c ∈ rest.head?, endsComment c = true := by
  generalize htext : piece ++ rest = text at h
  cases text with
  | nil =>
      obtain ⟨rfl, rfl⟩ := List.append_eq_nil_iff.mp htext
      exact .inl (by simp)
  | cons c text =>
      -- What is left behind a run is what the run stops before.
      have hdrop : ∀ p : Char → Bool, piece = (c :: text).takeWhile p →
          rest = (c :: text).dropWhile p := fun p hp => by
        have hboth := htext.trans (List.takeWhile_append_dropWhile (p := p)).symm
        rw [hp] at hboth
        exact List.append_cancel_left hboth
      rw [scan] at h
      split_ifs at h with h1 h2 h3 h4 h5
      · obtain rfl := (Scan.layout.inj h).symm
        exact .inl fun d hd => List.mem_takeWhile_imp hd
      · have hpiece := (Scan.layout.inj h).symm
        refine .inr ⟨text.takeWhile fun d => !endsComment d, ?_, fun d hd => ?_, fun d hd => ?_⟩
        · rw [hpiece, h2, List.takeWhile_cons_of_pos (by decide)]
        · simpa using List.mem_takeWhile_imp hd
        · have hstop := List.head?_dropWhile_not (fun d => !endsComment d) (c :: text)
          rw [← hdrop _ hpiece, Option.mem_def.mp hd] at hstop
          simpa using hstop
      · rw [scanQuoted] at h
        split_ifs at h
      · rw [scanDigits] at h
        split_ifs at h
      · rw [scanSymbol] at h
        split at h <;> cases h

/-- A run ends where it cannot begin. -/
lemma takeWhile_of_head {p : Char → Bool} {text : List Char}
    (h : ∀ c ∈ text.head?, p c = false) : text.takeWhile p = [] := by
  cases text with
  | nil => rfl
  | cons c rest => exact List.takeWhile_cons_of_neg (by rw [h c rfl]; decide)

/-- A comment is passed up to a character that ends it. -/
lemma scan_comment {body : List Char} (hbody : ∀ c ∈ body, endsComment c = false)
    (hend : ∀ c ∈ rest.head?, endsComment c = true) :
    scan ('#' :: body ++ rest) = .layout ('#' :: body) := by
  have htaken : (body ++ rest).takeWhile (fun d => !endsComment d) = body := by
    rw [List.takeWhile_append_of_pos fun c hc => by simp [hbody c hc],
      takeWhile_of_head fun c hc => by simp [hend c hc], List.append_nil]
  have hscan : scan ('#' :: body ++ rest) =
      .layout (('#' :: (body ++ rest)).takeWhile fun d => !endsComment d) := rfl
  rw [hscan, List.takeWhile_cons_of_pos (by decide), htaken]

/-- Nothing is read where a `'\x00'` stands. -/
lemma scan_nul (rest : List Char) :
    scan ('\x00' :: rest) = .refusal (.unexpectedCharacter '\x00') := rfl

end Lexeme

/-- A text whose front the scanner does not refuse. -/
def Readable (text : List Char) : Prop := ∀ problem, Lexeme.scan text ≠ .refusal problem

namespace Readable

variable {text : List Char}

lemma head_ne_nul (h : Readable text) : ∀ c ∈ text.head?, c ≠ '\x00' := by
  rintro c hc rfl
  cases text with
  | nil => cases hc
  | cons d rest =>
      obtain rfl := Option.some.inj hc
      exact h _ (Lexeme.scan_nul rest)

end Readable

namespace Tiles

open Lexeme

variable {behind text : List Char} {place : Place} {tokens w : List Token} {t : Token}

/-- The scanner does not refuse the front of a text that is cut into tokens. -/
lemma readable (h : Tiles behind place text tokens) (hb : Readable behind) :
    Readable (text ++ behind) := by
  intro problem
  cases h with
  | nil => exact hb problem
  | layout h hne ht => rw [h]; exact Scan.noConfusion
  | token h ht => rw [h]; exact Scan.noConfusion

/-- **A text without tokens is a gap.** -/
theorem gap (h : Tiles behind place text []) (hb : Readable behind) : Gap behind text := by
  generalize hnone : ([] : List Token) = tokens at h
  induction h with
  | nil place => exact .nil
  | token => cases hnone
  | @layout place piece rest tokens h hne ht ih =>
      have hrest := ht.readable hb
      rw [List.append_assoc] at h
      rcases scan_layout_cases h with hblank | ⟨body, rfl, hbody, hend⟩
      · exact (ih hnone).blanks hblank
      · refine .comment (fun c hc => ?_) (fun c hc => ?_) (ih hnone)
        · have := hbody c hc
          simp only [endsComment, Bool.or_eq_false_iff, decide_eq_false_iff_not] at this
          exact this.1
        · have := hend c hc
          have hnul := hrest.head_ne_nul c hc
          simp only [endsComment, Bool.or_eq_true, decide_eq_true_eq] at this
          exact this.resolve_right hnul

end Tiles

end ArrayExpr
