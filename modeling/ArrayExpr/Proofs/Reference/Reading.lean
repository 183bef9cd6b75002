/-
What the reference reads of a source.

* `CommentsEnd`: each comment mark in a gap has a newline behind it;
* `Reference.readWithin_gap`: a gap in which comments end is passed;
  `readWithin_swallow`: otherwise a comment goes on behind it;
* `Token.EscapesNewline`: a string in which a newline is escaped;
* `Reference.reads_iff`: a text cut into tokens is read as these tokens exactly if
  no string escapes a newline and comments end in front of tokens;
* `read_eq_iff`: so is a source;
* `read_carriage_return`: not all are.
-/
import ArrayExpr.Proofs.Reference.Agreement
import ArrayExpr.Proofs.Reference.Tokens
import ArrayExpr.Proofs.Scanner.Covering

namespace ArrayExpr

/-- Each comment mark has a newline behind it. -/
def CommentsEnd : List Char → Prop
  | [] => True
  | c :: rest => (c = '#' → '\n' ∈ rest) ∧ CommentsEnd rest

/-- A string token in which a newline is escaped. -/
def Token.EscapesNewline (t : Token) : Prop :=
  t.kind = .literal .string ∧ ∃ text ∈ t.text, Reference.escapesNewline text.toList = true

variable {behind gap text rest piece : List Char} {c : Char} {kind : Kind} {place : Place}
  {tokens done : List Token} {fuel : List Char}

/-! ### Gaps up to a newline -/

/-- Up to a newline comments end. -/
lemma commentsEnd_dropWhile {gap : List Char} (h : '\n' ∈ gap) :
    CommentsEnd (gap.dropWhile (· != '\n')) ↔ CommentsEnd gap := by
  induction gap with
  | nil => cases h
  | cons c gap ih =>
      by_cases hc : c = '\n'
      · subst hc
        rfl
      · have hgap : '\n' ∈ gap := (List.mem_cons.mp h).resolve_left (Ne.symm hc)
        rw [List.dropWhile_cons_of_pos (by simpa using hc), ih hgap]
        exact ⟨fun hends => ⟨fun _ => hgap, hends⟩, fun hends => hends.2⟩

lemma dropWhile_newline {body : List Char} (hbody : ∀ c ∈ body, c ≠ '\n') (rest : List Char) :
    (body ++ rest).dropWhile (· != '\n') = rest.dropWhile (· != '\n') := by
  induction body with
  | nil => rfl
  | cons c body ih =>
      obtain ⟨hc, hbody⟩ := List.forall_mem_cons.mp hbody
      rw [List.cons_append, List.dropWhile_cons_of_pos (by simpa using hc), ih hbody]

/-- From the first newline on a gap is one. -/
lemma Gap.dropWhile (h : Gap behind gap) : Gap behind (gap.dropWhile (· != '\n')) := by
  induction h with
  | nil => exact .nil
  | @blank c text hc ht ih =>
      by_cases hnewline : c = '\n'
      · subst hnewline
        exact .blank hc ht
      · rwa [List.dropWhile_cons_of_pos (by simpa using hnewline)]
  | @comment body text hbody hend ht ih =>
      rw [List.dropWhile_cons_of_pos (by decide), dropWhile_newline fun c hc => (hbody c hc).1]
      exact ih

/-- A comment that a newline follows leaves a gap that begins with it. -/
lemma Gap.exists_newline (h : Gap behind ('#' :: rest)) (hmem : '\n' ∈ rest) :
    ∃ body tail, rest = body ++ '\n' :: tail ∧ '\n' ∉ body ∧ Gap behind ('\n' :: tail) ∧
      (CommentsEnd ('\n' :: tail) ↔ CommentsEnd ('#' :: rest)) := by
  obtain ⟨body, tail, rfl, hbody⟩ := List.eq_append_cons_of_mem hmem
  have hdrop : ('#' :: (body ++ '\n' :: tail)).dropWhile (· != '\n') = '\n' :: tail := by
    rw [List.dropWhile_cons_of_pos (by decide),
      dropWhile_newline fun c hc he => hbody (he ▸ hc)]
    rfl
  have hgap := h.dropWhile
  have hends := commentsEnd_dropWhile (List.mem_cons_of_mem '#' hmem)
  rw [hdrop] at hgap hends
  exact ⟨body, tail, rfl, hbody, hgap, hends⟩

namespace Reference

/-! ### Rounds in gaps -/

lemma isSpace_of_isLayout (h : Lexeme.isLayout c = true) : isSpace c = true := by
  have hne : c ≠ '\x0c' := by
    rintro rfl
    cases h
  rw [isSpace_eq hne, h]

/-- White space is passed one character after the other. -/
lemma readWithin_space (hc : isSpace c = true) (hfuel : (c :: rest).length ≤ fuel.length) :
    ∃ fuel', rest.length ≤ List.length fuel' ∧
      readWithin fuel place done (c :: rest) = readWithin fuel' (place.next c) done rest := by
  obtain ⟨f, fuel, rfl⟩ := List.exists_cons_of_length_pos (l := fuel) (by simp at hfuel; omega)
  rw [List.length_cons, List.length_cons] at hfuel
  have hignored : ∀ {d tail}, isSpace d = true →
      ignored? (d :: tail) = some (cut (d :: tail.takeWhile isSpace) (d :: tail)) := by
    intro d tail hd
    have hne : d ≠ '#' := by
      rintro rfl
      cases hd
    rw [ignored?_of_ne hne, run?, span_eq_cut, List.takeWhile_cons_of_pos hd]
    rfl
  rw [readWithin_cons, hignored hc]
  cases rest with
  | nil => exact ⟨fuel, Nat.zero_le _, rfl⟩
  | cons d rest =>
      by_cases hd : isSpace d = true
      · refine ⟨f :: fuel, by simp only [List.length_cons] at hfuel ⊢; omega, ?_⟩
        rw [readWithin_cons, hignored hd, List.takeWhile_cons_of_pos hd]
        rfl
      · refine ⟨fuel, by omega, ?_⟩
        rw [List.takeWhile_cons_of_neg hd]
        rfl

/-- A comment is passed up to a newline. -/
lemma readWithin_comment (place : Place) (done : List Token)
    (hfuel : ('#' :: rest).length ≤ fuel.length) :
    ∃ fuel', (rest.dropWhile (· != '\n')).length ≤ List.length fuel' ∧
      readWithin fuel place done ('#' :: rest) =
        readWithin fuel' (place.after ('#' :: rest.takeWhile (· != '\n'))) done
          (rest.dropWhile (· != '\n')) := by
  obtain ⟨f, fuel, rfl⟩ := List.exists_cons_of_length_pos (l := fuel) (by simp at hfuel; omega)
  have hle := (List.dropWhile_suffix (· != '\n') (l := rest)).length_le
  rw [List.length_cons, List.length_cons] at hfuel
  refine ⟨fuel, by omega, ?_⟩
  have hignored : ignored? ('#' :: rest) =
      some ('#' :: rest.takeWhile (· != '\n'), rest.dropWhile (· != '\n')) := by
    rw [ignored?, span_eq_cut, cut, drop_takeWhile, List.takeWhile_cons_of_pos (by decide),
      List.dropWhile_cons_of_pos (by decide)]
  rw [readWithin_cons, hignored]

/-- A comment is passed up to the first newline. -/
lemma readWithin_comment_newline (place : Place) (done : List Token) {body : List Char}
    (tail : List Char) (hbody : '\n' ∉ body)
    (hfuel : ('#' :: (body ++ '\n' :: tail)).length ≤ fuel.length) :
    ∃ fuel', ('\n' :: tail).length ≤ List.length fuel' ∧
      readWithin fuel place done ('#' :: (body ++ '\n' :: tail)) =
        readWithin fuel' (place.after ('#' :: body)) done ('\n' :: tail) := by
  have hne : ∀ c ∈ body, c ≠ '\n' := fun c hc he => hbody (he ▸ hc)
  have hdrop : (body ++ '\n' :: tail).dropWhile (· != '\n') = '\n' :: tail :=
    dropWhile_newline hne _
  have htake : (body ++ '\n' :: tail).takeWhile (· != '\n') = body := by
    rw [List.takeWhile_append_of_pos fun c hc => by simpa using hne c hc,
      List.takeWhile_cons_of_neg (by decide), List.append_nil]
  have hcomment := readWithin_comment place done hfuel
  rwa [hdrop, htake] at hcomment

/-- In a gap blanks are passed, and comments with a newline behind them. What is
left is a shorter gap. -/
lemma readWithin_step (place : Place) (done : List Token) (h : Gap behind gap) (hne : gap ≠ [])
    (hnewline : ∀ rest, gap = '#' :: rest → '\n' ∈ rest)
    (hfuel : (gap ++ behind).length ≤ fuel.length) :
    ∃ gap' place' fuel', List.length gap' < gap.length ∧ Gap behind gap' ∧
      (CommentsEnd gap' ↔ CommentsEnd gap) ∧ Place.after place' gap' = place.after gap ∧
      (gap' ++ behind).length ≤ List.length fuel' ∧
      readWithin fuel place done (gap ++ behind) =
        readWithin fuel' place' done (gap' ++ behind) := by
  cases h with
  | nil => exact absurd rfl hne
  | @blank c text hc ht =>
      obtain ⟨fuel', hfuel', hread⟩ := readWithin_space (isSpace_of_isLayout hc) hfuel
      have hmark : c ≠ '#' := by
        rintro rfl
        cases hc
      exact ⟨text, _, fuel', by simp, ht, ⟨fun h => ⟨fun he => absurd he hmark, h⟩, fun h => h.2⟩,
        rfl, hfuel', hread⟩
  | @comment body text hbody hend ht =>
      obtain ⟨body', tail, hsplit, hbody', hgap, hends⟩ :=
        (Gap.comment hbody hend ht).exists_newline (hnewline _ rfl)
      rw [hsplit] at hfuel hends ⊢
      rw [List.cons_append, List.append_assoc] at hfuel ⊢
      obtain ⟨fuel', hfuel', hread⟩ := readWithin_comment_newline place done (tail ++ behind)
        hbody' hfuel
      have hplace : place.after ('#' :: (body' ++ '\n' :: tail)) =
          (place.after ('#' :: body')).after ('\n' :: tail) :=
        Place.after_append place ('#' :: body') ('\n' :: tail)
      refine ⟨'\n' :: tail, _, fuel', ?_, hgap, hends, hplace.symm, hfuel', hread⟩
      simp only [List.length_cons, List.length_append]
      omega

/-- **A gap in which comments end is passed.** -/
theorem readWithin_gap (place : Place) (done : List Token) (h : Gap behind gap)
    (hends : CommentsEnd gap) (hfuel : (gap ++ behind).length ≤ fuel.length) :
    ∃ fuel', behind.length ≤ List.length fuel' ∧
      readWithin fuel place done (gap ++ behind) =
        readWithin fuel' (place.after gap) done behind := by
  induction hn : gap.length using Nat.strong_induction_on generalizing gap place fuel with
  | _ n ih =>
    by_cases hne : gap = []
    · subst hne
      exact ⟨fuel, hfuel, rfl⟩
    have hnewline : ∀ rest, gap = '#' :: rest → '\n' ∈ rest := by
      rintro rest rfl
      exact hends.1 rfl
    obtain ⟨gap', place', fuel', hlt, hgap, hiff, hplace, hfuel', hread⟩ :=
      readWithin_step place done h hne hnewline hfuel
    rw [hread, ← hplace]
    exact ih _ (hn ▸ hlt) place' hgap (hiff.mpr hends) hfuel' rfl

/-- A gap at the end of a text is passed, whether its last comment ends or not. -/
theorem readWithin_last (h : Gap [] gap) (hfuel : gap.length ≤ fuel.length) :
    readWithin fuel place done gap = ⟨done.reverse, none⟩ := by
  induction hn : gap.length using Nat.strong_induction_on generalizing gap place fuel with
  | _ n ih =>
    by_cases hne : gap = []
    · subst hne
      exact readWithin_nil _ _ _
    by_cases hnewline : ∀ rest, gap = '#' :: rest → '\n' ∈ rest
    · rw [← List.append_nil gap] at hfuel
      obtain ⟨gap', place', fuel', hlt, hgap, -, -, hfuel', hread⟩ :=
        readWithin_step place done h hne hnewline hfuel
      rw [List.append_nil, List.append_nil] at hread
      rw [List.append_nil] at hfuel'
      rw [hread]
      exact ih _ (hn ▸ hlt) hgap hfuel' rfl
    · push Not at hnewline
      obtain ⟨rest, rfl, hrest⟩ := hnewline
      obtain ⟨fuel', -, hread⟩ := readWithin_comment place done hfuel
      have hdrop : rest.dropWhile (· != '\n') = [] := by
        rw [← List.append_nil rest, dropWhile_newline fun c hc he => hrest (he ▸ hc)]
        rfl
      rw [hread, hdrop, readWithin_nil]

/-- **A comment that does not end in a gap goes on behind it.** -/
theorem readWithin_swallow (place : Place) (done : List Token) {behind : List Char}
    (h : Gap (c :: behind) gap) (hc : c ≠ '\n') (hends : ¬ CommentsEnd gap)
    (hfuel : (gap ++ c :: behind).length ≤ fuel.length) :
    ∃ fuel' place' text', (place.after gap).offset < Place.offset place' ∧
      readWithin fuel place done (gap ++ c :: behind) = readWithin fuel' place' done text' := by
  induction hn : gap.length using Nat.strong_induction_on generalizing gap place fuel with
  | _ n ih =>
    by_cases hne : gap = []
    · subst hne
      exact absurd trivial hends
    by_cases hnewline : ∀ rest, gap = '#' :: rest → '\n' ∈ rest
    · obtain ⟨gap', place', fuel', hlt, hgap, hiff, hplace, hfuel', hread⟩ :=
        readWithin_step place done h hne hnewline hfuel
      rw [hread, ← hplace]
      exact ih _ (hn ▸ hlt) place' hgap (fun he => hends (hiff.mp he)) hfuel' rfl
    -- The comment takes at least the first character behind the gap.
    · push Not at hnewline
      obtain ⟨rest, rfl, hrest⟩ := hnewline
      rw [List.cons_append] at hfuel ⊢
      obtain ⟨fuel', -, hread⟩ := readWithin_comment place done hfuel
      refine ⟨fuel', _, _, ?_, hread⟩
      have hbody : ∀ d ∈ rest, (d != '\n') = true := fun d hd => by
        simpa using fun he : d = '\n' => hrest (he ▸ hd)
      rw [List.takeWhile_append_of_pos hbody, List.takeWhile_cons_of_pos (by simpa using hc)]
      simp only [Place.after_offset, List.length_cons, List.length_append]
      omega

/-! ### Tokens behind gaps -/

/-- What is read later stands behind. -/
lemma readWithin_start (fuel : List Char) (place : Place) (done : List Token) (text : List Char) :
    ∀ t ∈ (readWithin fuel place done text).tokens, t ∈ done ∨ place.offset ≤ t.start.offset := by
  induction fuel generalizing place done text with
  | nil =>
      intro t ht
      cases text <;> exact .inl (List.mem_reverse.mp ht)
  | cons f fuel ih =>
      cases text with
      | nil => exact fun t ht => .inl (List.mem_reverse.mp ht)
      | cons c rest =>
          rw [readWithin_cons]
          split
          · rename_i piece rest' _
            intro t ht
            refine (ih _ _ _ t ht).imp id fun hle => ?_
            rw [Place.after_offset] at hle
            omega
          · split
            · rename_i kind piece rest' _
              intro t ht
              rcases ih _ _ _ t ht with hmem | hle
              · rcases List.mem_cons.mp hmem with rfl | hmem
                · exact .inr (Nat.le_refl _)
                · exact .inl hmem
              · rw [Place.after_offset] at hle
                exact .inr (by omega)
            · exact fun t ht => .inl (List.mem_reverse.mp ht)

/-- The first character of a token is no newline. -/
lemma exists_head_of_token (h : Lexeme.scan text = .token kind piece) :
    ∃ c rest, text = c :: rest ∧ c ≠ '\n' := by
  cases text with
  | nil => cases h
  | cons c rest =>
      refine ⟨c, rest, rfl, ?_⟩
      rintro rfl
      cases h

/-- A token behind a comment that does not end is not read. -/
lemma not_reads_of_swallow {t : Token} {w : List Token} (h : Gap behind gap)
    (hbehind : ∃ c rest, behind = c :: rest ∧ c ≠ '\n') (hends : ¬ CommentsEnd gap)
    (ht : t.start = place.after gap) (hdone : ∀ u ∈ done, u.start.offset < t.start.offset)
    (hfuel : (gap ++ behind).length ≤ fuel.length) :
    readWithin fuel place done (gap ++ behind) ≠ ⟨done.reverse ++ t :: w, none⟩ := by
  obtain ⟨c, rest, rfl, hc⟩ := hbehind
  obtain ⟨fuel', place', text', hlt, hread⟩ :=
    readWithin_swallow place done h hc hends hfuel
  intro heq
  have hmem : t ∈ (readWithin fuel' place' done text').tokens := by
    rw [← hread, heq]
    simp
  rcases readWithin_start _ _ _ _ t hmem with hdone' | hle
  · exact Nat.lt_irrefl _ (hdone t hdone')
  · rw [ht] at hle
    omega

/-- A string that escapes a newline is not read. -/
lemma not_reads_of_escape {front : List Char} {w : List Token} (h : Gap (piece ++ rest) gap)
    (hends : CommentsEnd gap) (hscan : Lexeme.scan (piece ++ rest) = .token kind piece)
    (hk : kind = .literal .string) (hescape : escapesNewline piece = true)
    (hfuel : (gap ++ (piece ++ rest)).length ≤ fuel.length) :
    readWithin fuel (Place.origin.after front) done (gap ++ (piece ++ rest)) ≠ ⟨w, none⟩ := by
  subst hk
  obtain ⟨fuel', hfuel', hread⟩ := readWithin_gap (Place.origin.after front) done h hends hfuel
  obtain ⟨hi, hterminal⟩ := terminal?_of_escapesNewline hscan hescape
  obtain ⟨c, tail, htext, -⟩ := exists_head_of_token hscan
  rw [hread]
  rw [htext] at hfuel' hi hterminal ⊢
  obtain ⟨f, fuel', rfl⟩ := List.exists_cons_of_length_pos (l := fuel')
    (Nat.lt_of_lt_of_le (Nat.succ_pos _) hfuel')
  rw [readWithin_cons, hi, hterminal]
  intro heq
  cases congrArg Reading.stuck heq

/-- The token behind a gap is read, and the text behind it next. -/
lemma readWithin_front (place : Place) (done : List Token) {tokens : List Token}
    (h : Gap (piece ++ rest) gap) (hends : CommentsEnd gap)
    (hscan : Lexeme.scan (piece ++ rest) = .token kind piece) (hw : Tiles [] place' rest tokens)
    (hescape : kind = .literal .string → escapesNewline piece = false)
    (hfuel : (gap ++ (piece ++ rest)).length ≤ fuel.length) :
    ∃ fuel', rest.length ≤ List.length fuel' ∧
      readWithin fuel place done (gap ++ (piece ++ rest)) =
        readWithin fuel' (place.after (gap ++ piece))
          (Lexeme.tokenAt (place.after gap) kind piece :: done) rest := by
  obtain ⟨fuel', hfuel', hread⟩ := readWithin_gap place done h hends hfuel
  have hpiece := (Lexeme.scan_token hscan).2
  have hpos := List.length_pos_iff.mpr hpiece
  rw [List.length_append] at hfuel'
  obtain ⟨f, fuel', rfl⟩ := List.exists_cons_of_length_pos (l := fuel') (by omega)
  rw [hread, (agrees_of_token hscan hw hescape).readWithin_token hpiece, Place.after_append]
  rw [List.length_cons] at hfuel'
  exact ⟨fuel', by omega, rfl⟩

lemma escapesNewline_tokenAt : (Lexeme.tokenAt place kind piece).EscapesNewline ↔
    kind = .literal .string ∧ escapesNewline piece = true := by
  constructor
  · rintro ⟨hk, text, htext, he⟩
    obtain rfl := Option.some.inj htext
    exact ⟨hk, by simpa using he⟩
  · rintro ⟨hk, he⟩
    exact ⟨hk, _, rfl, by simpa using he⟩

/-- The tokens read so far begin in front of the place behind the last one. -/
lemma start_lt_behind (kind : Kind) (hpiece : piece ≠ [])
    (hdone : ∀ u ∈ done, u.start.offset < (place.after gap).offset) :
    ∀ u ∈ Lexeme.tokenAt (place.after gap) kind piece :: done,
      u.start.offset < (place.after (gap ++ piece)).offset := by
  have hpos := List.length_pos_iff.mpr hpiece
  rw [Place.after_append, Place.after_offset _ piece]
  exact List.forall_mem_cons.mpr
    ⟨Nat.lt_add_of_pos_right hpos, fun u hu => Nat.lt_add_right _ (hdone u hu)⟩

/-- **A text cut into tokens is read as these tokens** exactly if no string escapes a
newline and comments end in front of tokens. -/
theorem reads_iff (front : List Char) (done : List Token)
    (h : Tiles [] (Place.origin.after front) text tokens)
    (hdone : ∀ u ∈ done, u.start.offset < (Place.origin.after front).offset)
    (hfuel : text.length ≤ fuel.length) :
    readWithin fuel (Place.origin.after front) done text = ⟨done.reverse ++ tokens, none⟩ ↔
      (∀ t ∈ tokens, ¬ t.EscapesNewline) ∧
        ∀ g ∈ gaps front.length tokens, CommentsEnd (g.text (front ++ text)) := by
  induction tokens generalizing front text done fuel with
  | nil =>
      have hnil : Readable [] := fun problem => Lexeme.Scan.noConfusion
      rw [readWithin_last (h.gap hnil) hfuel, List.append_nil]
      simp [gaps]
  | cons t tokens ih =>
      obtain ⟨gap, kind, piece, rest, rfl, hgap, rfl, hscan, hw⟩ := h.exists_first
      rw [List.append_nil] at hgap hscan
      have hgap : Gap (piece ++ rest) gap := hgap.gap fun problem hproblem => by
        cases hscan.symm.trans hproblem
      have hdone' : ∀ u ∈ done,
          u.start.offset < ((Place.origin.after front).after gap).offset := fun u hu => by
        have hlt := hdone u hu
        rw [Place.after_offset _ gap]
        omega
      rw [gaps_cons, List.forall_mem_cons, List.forall_mem_cons, text_gap]
      by_cases hends : CommentsEnd gap
      · by_cases hescape : kind = .literal .string ∧ escapesNewline piece = true
        · refine iff_of_false (not_reads_of_escape hgap hends hscan hescape.1 hescape.2 hfuel) ?_
          exact fun hright => hright.1.1 (escapesNewline_tokenAt.mpr hescape)
        · have hno : kind = .literal .string → escapesNewline piece = false := fun hk => by
            simpa using fun he => hescape ⟨hk, he⟩
          obtain ⟨fuel', hfuel', hread⟩ :=
            readWithin_front (Place.origin.after front) done hgap hends hscan hw hno hfuel
          have hplace : (Place.origin.after front).after (gap ++ piece) =
              Place.origin.after (front ++ (gap ++ piece)) := (Place.after_append _ _ _).symm
          have hsource : front ++ (gap ++ piece) ++ rest = front ++ (gap ++ (piece ++ rest)) := by
            simp
          have hbehind := start_lt_behind kind (Lexeme.scan_token hscan).2 hdone'
          rw [← Place.after_append, hplace] at hw
          rw [hplace] at hbehind
          have hlater := ih _ _ hw hbehind hfuel'
          rw [List.reverse_cons, List.append_assoc, List.singleton_append, hsource] at hlater
          rw [hread, hplace, hlater, escapesNewline_tokenAt]
          simp only [hescape, not_false_eq_true, true_and, hends]
      · refine iff_of_false ?_ fun hright => hends hright.2.1
        exact not_reads_of_swallow hgap (exists_head_of_token hscan) hends rfl hdone' hfuel

end Reference

/-- **The reference reads the tokens of a source** exactly if no string escapes a
newline, which the terminal for strings leaves out, and every comment in front of a
token ends at a newline, and not at a carriage return alone. -/
theorem read_eq_iff {source : String} {tokens : Tokens} (h : tokenize source = .ok tokens) :
    Reference.read source.toList = ⟨tokens.items, none⟩ ↔
      (∀ t ∈ tokens.items, ¬ t.EscapesNewline) ∧
        ∀ g ∈ gaps 0 tokens.items, CommentsEnd (g.text source.toList) := by
  have htiles := (tokenize_eq_ok_iff.mp h).1
  exact Reference.reads_iff [] [] htiles (by simp) le_rfl

/-- The theorem at a name behind a comment. -/
theorem read_eq_iff_comment :
    ∃ tokens, tokenize "#a\nx" = .ok tokens ∧
      (Reference.read "#a\nx".toList = ⟨tokens.items, none⟩ ↔
        (∀ t ∈ tokens.items, ¬ t.EscapesNewline) ∧
          ∀ g ∈ gaps 0 tokens.items, CommentsEnd (g.text "#a\nx".toList)) := by
  have h : tokenize "#a\nx" = .ok ⟨[⟨.name, some "x", ⟨3, 2, 1⟩, 4⟩],
      ⟨.finish, none, ⟨4, 2, 2⟩, 4⟩⟩ := rfl
  exact ⟨_, h, read_eq_iff h⟩

/-- A carriage return ends a comment for the scanner only. -/
theorem read_carriage_return :
    ¬ ∀ source tokens, tokenize source = .ok tokens →
      Reference.read source.toList = ⟨tokens.items, none⟩ := by
  intro hall
  have h : tokenize "#\rx" = .ok ⟨[⟨.name, some "x", ⟨2, 1, 3⟩, 3⟩],
      ⟨.finish, none, ⟨3, 1, 4⟩, 3⟩⟩ := rfl
  have hread : Reference.read "#\rx".toList = ⟨[], none⟩ := rfl
  have hitems := congrArg Reference.Reading.tokens (hread.symm.trans (hall _ _ h))
  cases hitems

end ArrayExpr
