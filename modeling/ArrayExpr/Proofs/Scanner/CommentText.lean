/-
What a comment holds.

* `Lexical.Skipped`: the rest of a line that the scanner passes without a token;
  `skipped_comment`, `skipped_blanks`: a comment without a `'\x00'`, and blanks;
* `Lexical.Munches.skip`: a text keeps its tokens with the rest of a line behind it that is
  skipped;
* `lt_refusal_of_skipped`, `tokenize_eq_of_skipped`: nothing is refused in such a line, and
  which of two such lines of one length it is makes no difference;
* `tokenize_of_nul`: a comment ends where it holds a `'\x00'`, and the source is refused
  there;
* `tokenize_comment_iff`: the text of a comment makes a difference exactly if it holds a
  `'\x00'`.
-/
import ArrayExpr.Proofs.Scanner.NextLine
import ArrayExpr.Proofs.Scanner.Places

namespace ArrayExpr

namespace Lexical

open Lexeme (endsComment)

variable {place : Place} {text line body behind : List Char} {tokens added : List Token}
  {e : Option ScanError}

/-! ### The rest of a line -/

/-- The rest of a line that is passed without a token. It may stand behind a comment that is
still open, so it holds nothing that ends a comment. -/
structure Skipped (line : List Char) : Prop where
  quiet : ∀ c ∈ line, endsComment c = false
  apart : ∀ c ∈ line.head?, Apart c
  skip : ∀ {place : Place} {behind : List Char} {tokens : List Token} {e : Option ScanError},
    Munches (place.after line) ('\n' :: behind) tokens e →
      Munches place (line ++ '\n' :: behind) tokens e

lemma skipped_comment (hbody : ∀ c ∈ body, endsComment c = false) : Skipped ('#' :: body) where
  quiet := List.forall_mem_cons.mpr ⟨rfl, hbody⟩
  apart c hc := by
    obtain rfl := Option.some.inj hc
    exact apart_comment
  skip h := .comment hbody (fun c hc => by rw [← Option.some.inj hc]; rfl) h

lemma skipped_blanks (n : ℕ) : Skipped (List.replicate n ' ') := by
  have hblank : ∀ c ∈ List.replicate n ' ', c = ' ' := fun c hc => List.eq_of_mem_replicate hc
  refine ⟨fun c hc => ?_, fun c hc => ?_, fun h => .blanks (fun c hc => ?_) h⟩
  · rw [hblank c hc]
    rfl
  · rw [hblank c (List.mem_of_mem_head? hc)]
    exact apart_of_isLayout rfl
  · rw [hblank c hc]
    rfl

/-- No newline is in it. -/
lemma Skipped.newline_notMem (hline : Skipped line) : '\n' ∉ line := by
  intro h
  cases hline.quiet _ h

/-- **A text keeps its tokens** with the rest of a line behind it that is skipped. -/
theorem Munches.skip (h : Munches place text tokens none) (hline : Skipped line)
    (hb : Munches (((place.after text).after line).next '\n') behind added e) :
    Munches place (text ++ (line ++ '\n' :: behind)) (tokens ++ added) e := by
  have hnext : Munches ((place.after text).after line) ('\n' :: behind) added e := .blank rfl hb
  refine h.restOfLine rfl hline.quiet (fun c hc => ?_) (hline.skip hnext) ?_
  · cases line with
    | nil =>
        obtain rfl := Option.some.inj hc
        exact apart_newline
    | cons d line => exact hline.apart c hc
  · rwa [Place.after_append]

end Lexical

open Lexical

/-! ### Sources -/

variable {pre post : String} {tokens : Tokens} {line line' : List Char}

/-- A source with the rest of a line behind `pre`, and more on the next line. -/
def withLine (pre : String) (line : List Char) (post : String) : String :=
  pre ++ String.ofList line ++ "\n" ++ post

lemma toList_withLine (pre : String) (line : List Char) (post : String) :
    (withLine pre line post).toList = pre.toList ++ (line ++ '\n' :: post.toList) := by
  simp [withLine]

/-- Behind a line that is skipped the scan goes on in the next one. -/
lemma munches_withLine (h : tokenize pre = .ok tokens) (hline : Skipped line)
    {added : List Token} {e : Option ScanError}
    (hpost : Munches (((Place.origin.after pre.toList).after line).next '\n') post.toList
      added e) :
    Munches .origin (withLine pre line post).toList (tokens.items ++ added) e := by
  rw [toList_withLine]
  exact (munches_of_tokenize h).skip hline hpost

/-- What is refused stands behind a line that is skipped. -/
lemma lt_refusal_of_skipped (h : tokenize pre = .ok tokens) (hline : Skipped line)
    {e : ScanError} (herror : tokenize (withLine pre line post) = .error e) :
    pre.toList.length + line.length < e.place.offset := by
  obtain ⟨added, e', hpost⟩ :=
    exists_munches (((Place.origin.after pre.toList).after line).next '\n') post.toList
  have hall := munches_withLine h hline hpost
  cases e' with
  | none => cases herror.symm.trans (tokenize_of_munches hall)
  | some e' =>
      obtain rfl := Except.error.inj (herror.symm.trans (tokenize_of_munches_refused hall))
      have hle := hpost.le_refusal
      rwa [Place.next_offset, Place.after_offset, Place.after_origin_offset] at hle

/-- Behind both lines the scan goes on at one place. -/
lemma after_eq_of_skipped (hline : Skipped line) (hline' : Skipped line')
    (hlen : line.length = line'.length) (p : Place) : p.after line = p.after line' := by
  rw [p.after_of_line hline.newline_notMem, p.after_of_line hline'.newline_notMem, hlen]

/-- **Which of two lines is skipped makes no difference**, if they are equally long. -/
theorem tokenize_eq_of_skipped (h : tokenize pre = .ok tokens) (hline : Skipped line)
    (hline' : Skipped line') (hlen : line.length = line'.length) (post : String) :
    tokenize (withLine pre line post) = tokenize (withLine pre line' post) := by
  have hplace := after_eq_of_skipped hline hline' hlen (Place.origin.after pre.toList)
  obtain ⟨added, e, hpost⟩ :=
    exists_munches (((Place.origin.after pre.toList).after line).next '\n') post.toList
  have hfirst := munches_withLine h hline hpost
  rw [hplace] at hpost
  have hsecond := munches_withLine h hline' hpost
  cases e with
  | some e =>
      rw [tokenize_of_munches_refused hfirst, tokenize_of_munches_refused hsecond]
  | none =>
      have hclose : closingToken (withLine pre line post).toList =
          closingToken (withLine pre line' post).toList := by
        simp only [closingToken, toList_withLine, Place.after_append, hplace]
      rw [tokenize_of_munches hfirst, tokenize_of_munches hsecond, hclose]

/-- **A comment ends where it holds a `'\x00'`**, and the source is refused there. -/
theorem tokenize_of_nul (h : tokenize pre = .ok tokens) {body : List Char}
    (hbody : ∀ c ∈ body, Lexeme.endsComment c = false) (rest : List Char) (post : String) :
    tokenize (withLine pre ('#' :: body ++ '\x00' :: rest) post) =
      .error ⟨.unexpectedCharacter '\x00',
        (Place.origin.after pre.toList).after ('#' :: body)⟩ := by
  set place := (Place.origin.after pre.toList).after ('#' :: body)
  set behind := rest ++ '\n' :: post.toList with hbehind
  have hskipped := skipped_comment hbody
  have hstop : Lexeme.endsComment '\x00' = true := rfl
  have hrefused : Munches place ('\x00' :: behind) []
      (some ⟨.unexpectedCharacter '\x00', place⟩) := munches_of_refusal (Lexeme.scan_nul behind)
  have hcomment : Munches (Place.origin.after pre.toList) ('#' :: body ++ '\x00' :: behind) []
      (some ⟨.unexpectedCharacter '\x00', place⟩) := by
    refine .comment hbody (fun c hc => ?_) hrefused
    rwa [← Option.some.inj hc]
  have hopen : Munches (Place.origin.after (pre.toList ++ '#' :: body)) ('\x00' :: behind) []
      (some ⟨.unexpectedCharacter '\x00', place⟩) := by
    rwa [Place.after_append]
  have hall := (munches_of_tokenize h).restOfLine hstop hskipped.quiet hskipped.apart hcomment
    hopen
  have hsource : (withLine pre ('#' :: body ++ '\x00' :: rest) post).toList =
      pre.toList ++ ('#' :: body ++ '\x00' :: behind) := by
    rw [toList_withLine, hbehind]
    simp
  rw [← hsource] at hall
  exact tokenize_of_munches_refused hall

/-- **What a comment holds makes no difference, unless it is a `'\x00'`.** Behind a text that
is not refused a comment up to the end of its line may be written as blanks: whatever the
comment holds and whatever follows it, the tokens with their places, or the refusal, are
the same, exactly if there is no `'\x00'` in the comment. -/
theorem tokenize_comment_iff (h : tokenize pre = .ok tokens) {body : String}
    (hbody : ∀ c ∈ body.toList, c ≠ '\n' ∧ c ≠ '\r') (post : String) :
    tokenize (withLine pre ('#' :: body.toList) post) =
        tokenize (withLine pre (List.replicate (1 + body.length) ' ') post) ↔
      '\x00' ∉ body.toList := by
  have hquiet : ∀ text : List Char, text ⊆ body.toList → '\x00' ∉ text →
      ∀ c ∈ text, Lexeme.endsComment c = false := by
    intro text hsub hnul c hc
    have hne := hbody c (hsub hc)
    have hzero : c ≠ '\x00' := fun hc' => hnul (hc' ▸ hc)
    simp [Lexeme.endsComment, hne, hzero]
  have hblanks := skipped_blanks (1 + body.length)
  constructor
  · intro heq hmem
    obtain ⟨quiet, rest, hsplit, hnul⟩ := List.eq_append_cons_of_mem hmem
    -- The comment is refused inside, with blanks nothing is refused before the next line.
    have hsub : quiet ⊆ body.toList := hsplit ▸ List.subset_append_left _ _
    have hleft := tokenize_of_nul h (hquiet quiet hsub hnul) rest post
    rw [List.cons_append, ← hsplit, heq] at hleft
    have hlt := lt_refusal_of_skipped h hblanks hleft
    have hlen : body.length = quiet.length + (rest.length + 1) := by
      rw [← String.length_toList, hsplit, List.length_append, List.length_cons]
    rw [Place.after_offset, Place.after_origin_offset, List.length_replicate,
      List.length_cons] at hlt
    omega
  · intro hnul
    have hcomment := skipped_comment (hquiet _ (List.Subset.refl _) hnul)
    refine tokenize_eq_of_skipped h hcomment hblanks ?_ post
    rw [List.length_cons, String.length_toList, List.length_replicate, Nat.add_comm]

/-- A comment with a quote in it, which opens no string. -/
theorem tokenize_comment_iff_quote :
    (∃ tokens, tokenize "x" = .ok tokens) ∧ (∀ c ∈ "\"y".toList, c ≠ '\n' ∧ c ≠ '\r') ∧
      (tokenize (withLine "x" ('#' :: "\"y".toList) "z") =
          tokenize (withLine "x" (List.replicate (1 + "\"y".length) ' ') "z") ↔
        '\x00' ∉ "\"y".toList) := by
  have hpre : tokenize "x" = .ok ⟨[⟨.name, some "x", ⟨0, 1, 1⟩, 1⟩],
      ⟨.finish, none, ⟨1, 1, 2⟩, 1⟩⟩ := rfl
  have hbody : ∀ c ∈ "\"y".toList, c ≠ '\n' ∧ c ≠ '\r' := by simp
  exact ⟨⟨_, hpre⟩, hbody, tokenize_comment_iff hpre hbody "z"⟩

/-- A comment that holds a `'\x00'` is not as good as blanks. -/
theorem not_tokenize_comment_eq_blanks :
    ¬ ∀ (pre body post : String) (tokens : Tokens), tokenize pre = .ok tokens →
      (∀ c ∈ body.toList, c ≠ '\n' ∧ c ≠ '\r') →
      tokenize (withLine pre ('#' :: body.toList) post) =
        tokenize (withLine pre (List.replicate (1 + body.length) ' ') post) := by
  intro h
  have heq := h "" "\x00" "" _ rfl (by simp)
  have hcomment : withLine "" ('#' :: "\x00".toList) "" = "#\x00\n" := rfl
  have hblanks : withLine "" (List.replicate (1 + "\x00".length) ' ') "" = "  \n" := rfl
  have hrefused : tokenize "#\x00\n" = .error ⟨.unexpectedCharacter '\x00', ⟨1, 1, 2⟩⟩ := rfl
  have hread : tokenize "  \n" = .ok ⟨[], ⟨.finish, none, ⟨3, 2, 1⟩, 3⟩⟩ := rfl
  rw [hcomment, hblanks, hrefused, hread] at heq
  cases heq

end ArrayExpr
