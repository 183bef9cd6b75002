/-
Text added to a line, or on a line of its own.

* `Lexical.Munches.restOfLine`: a text keeps its tokens if its last line goes on up to
  a character that ends a comment;
* `Lexical.Munches.nextLine`: a text keeps its tokens, and those of the new line
  follow;
* `tokenize_closed`: closing brackets on a new line are tokens behind those of the
  source.
-/
import ArrayExpr.Proofs.Grammar.Unclosed
import ArrayExpr.Proofs.Scanner.Apart

namespace ArrayExpr

namespace Lexical

open Lexeme (scan endsComment)

variable {place : Place} {text line behind : List Char} {stop : Char} {tokens added : List Token}
  {e : Option ScanError}

/-- **A text keeps its tokens** if its last line goes on up to a character that ends a
comment. Behind a comment that the end of the text leaves open the rest of the line belongs
to it, so that the scan may go on in front of the rest of the line or behind it. -/
theorem Munches.restOfLine (h : Munches place text tokens none) (hstop : endsComment stop = true)
    (hline : ∀ c ∈ line, endsComment c = false) (hapart : ∀ c ∈ (line ++ [stop]).head?, Apart c)
    (hb : Munches (place.after text) (line ++ stop :: behind) added e)
    (hopen : Munches (place.after (text ++ line)) (stop :: behind) added e) :
    Munches place (text ++ (line ++ stop :: behind)) (tokens ++ added) e := by
  generalize hnone : (none : Option ScanError) = e' at h
  induction h with
  | finish place => exact hb
  | blank hc _ ih => exact .blank hc (ih hb hopen hnone)
  | @comment place body rest tokens e' hbody hend h ih =>
      cases rest with
      | nil =>
          obtain rfl := h.eq_nil
          rw [List.append_nil] at hopen ⊢
          have hlong : ∀ c ∈ body ++ line, endsComment c = false :=
            List.forall_mem_append.mpr ⟨hbody, hline⟩
          rw [← List.append_assoc, List.cons_append]
          refine .comment hlong (fun c hc => ?_) hopen
          obtain rfl := Option.some.inj hc
          exact hstop
      | cons d rest =>
          rw [List.append_assoc] at hopen ⊢
          rw [Place.after_append] at hb hopen
          exact .comment hbody (fun c hc => hend c hc) (ih hb hopen hnone)
  | @lexeme place kind piece rest tokens e' hl hs _ ih =>
      obtain ⟨c, line', hcons⟩ : ∃ c line', line ++ stop :: behind = c :: line' := by
        cases line <;> exact ⟨_, _, rfl⟩
      have hc : Apart c := by
        refine hapart c ?_
        cases line <;> cases hcons <;> rfl
      rw [List.append_assoc] at hopen
      rw [Place.after_append] at hb hopen
      have hl' := hl.apart hc line'
      rw [← hcons, List.append_assoc] at hl'
      rw [List.append_assoc]
      refine .lexeme hl' (fun hk => ?_) (ih hb hopen hnone)
      rw [hcons]
      exact hc.not_wordFollows (hs hk)
  | suffix => cases hnone
  | noLexeme => cases hnone

/-- A text keeps its tokens with a new line behind it. -/
theorem Munches.nextLine (h : Munches place text tokens none)
    (hb : Munches ((place.after text).next '\n') behind added e) :
    Munches place (text ++ '\n' :: behind) (tokens ++ added) e := by
  have hline : Munches (place.after text) ([] ++ '\n' :: behind) added e := .blank rfl hb
  have hapart : ∀ c ∈ ([] ++ ['\n']).head?, Apart c := by
    intro c hc
    obtain rfl := Option.some.inj hc
    exact apart_newline
  exact h.restOfLine rfl (by simp) hapart hline (by simpa using hline)

/-- Closing brackets are tokens. -/
lemma munches_closers (place : Place) (w : List Token) :
    ∃ added, Munches place (w.map (·.kind.closingCharacter)) added none ∧
      added.map Token.kind = w.map (·.kind.closer) := by
  induction w generalizing place with
  | nil => exact ⟨[], .finish place, rfl⟩
  | cons o w ih =>
      obtain ⟨added, hadded, hkinds⟩ := ih (place.after [o.kind.closingCharacter])
      have hscan : ∀ rest, scan ([o.kind.closingCharacter] ++ rest) =
          .token o.kind.closer [o.kind.closingCharacter] := by
        intro rest
        unfold Kind.closingCharacter Kind.closer
        split <;> rfl
      obtain ⟨hl, hs⟩ := longest_of_scan (hscan _)
      exact ⟨_, .lexeme hl hs hadded, by rw [List.map_cons, List.map_cons, hkinds]; rfl⟩

end Lexical

/-- **Closing brackets on a new line are tokens behind those of the source.** -/
theorem tokenize_closed {source : String} {tokens : Tokens} (h : tokenize source = .ok tokens)
    (w : List Token) :
    ∃ added finish, tokenize (source ++ "\n" ++ String.ofList (closers w)) =
        .ok ⟨tokens.items ++ added, finish⟩ ∧
      added.map Token.kind = (unclosed w).map (·.kind.closer) := by
  obtain ⟨added, hadded, hkinds⟩ :=
    Lexical.munches_closers ((Place.origin.after source.toList).next '\n') (unclosed w)
  refine ⟨added, _, tokenize_of_munches ?_, hkinds⟩
  have hlist : (source ++ "\n" ++ String.ofList (closers w)).toList =
      source.toList ++ '\n' :: (unclosed w).map (·.kind.closingCharacter) := by
    rw [closers]
    simp
  rw [hlist]
  exact (munches_of_tokenize h).nextLine hadded

end ArrayExpr
