/-
The parser agrees with the reference.

* `usual_read`: the tokens of a text have the usual texts of their kinds;
* `Reference.Clashes`: a number with a literal or a name right behind it, which
  no sentence contains;
* `Reference.Follows`: a reading gives the tokens that the scanner gives, or,
  where the scanner is refused, none that make up a sentence;
* `follows_read`: on plain texts the reading of the reference follows the
  scanner;
* `parse_eq_outline_iff_renders`: the reference finds the canonical forms of the
  productions of its grammar, on every text;
* `parseSource_iff_reference`: a plain source is accepted exactly if the
  reference finds an outline, no more brackets than the limit are open at once,
  and a target stands first in every `assign`; then the tree has that outline.
-/
import ArrayExpr.Proofs.Parser.Acceptance
import ArrayExpr.Proofs.Reference.Production
import ArrayExpr.Proofs.Reference.Terminals

namespace ArrayExpr

namespace Reference

open Grammar

variable {text rest piece : List Char} {kind : Kind} {place : Place} {done tokens : List Token}
  {c f : Char} {fuel : List Char} {q q' : State} {t : Token} {w : List Token}

/-! ### Rounds of the reference -/

lemma readWithin_nil (fuel : List Char) (place : Place) (done : List Token) :
    readWithin fuel place done [] = ⟨done.reverse, none⟩ := by
  cases fuel <;> rfl

lemma readWithin_cons (f c : Char) (fuel rest : List Char) (place : Place) (done : List Token) :
    readWithin (f :: fuel) place done (c :: rest) =
      match ignored? (c :: rest) with
      | some (piece, rest) => readWithin fuel (place.after piece) done rest
      | none =>
        match terminal? (c :: rest) with
        | some (kind, piece, rest) =>
          readWithin fuel (place.after piece)
            (⟨kind, some (String.ofList piece), place, (place.after piece).offset⟩ :: done) rest
        | none => ⟨done.reverse, some place⟩ := rfl

/-- The tokens read first stay the first tokens. -/
lemma readWithin_tokens (fuel : List Char) (place : Place) (done : List Token) (text : List Char) :
    done.reverse <+: (readWithin fuel place done text).tokens := by
  induction fuel generalizing place done text with
  | nil => cases text <;> exact List.prefix_rfl
  | cons f fuel ih =>
      cases text with
      | nil => exact List.prefix_rfl
      | cons c rest =>
          rw [readWithin_cons]
          split
          · exact ih _ _ _
          · split
            · exact (by simp : done.reverse <+: (_ :: done).reverse).trans (ih _ _ _)
            · exact List.prefix_rfl

/-! ### Texts of tokens -/

/-- A terminal of a kind with a usual text has that text. -/
lemma symbol_of_terminal (h : terminal? text = some (kind, piece, rest)) :
    kind.symbol?.or (some (String.ofList piece)) = some (String.ofList piece) := by
  unfold terminal? at h
  split at h
  · cases h
    rfl
  split at h
  · cases h
    rfl
  split at h
  · cases h
    unfold wordKind
    split <;> rfl
  · unfold operator? at h
    split at h <;> cases h <;> rfl

lemma usual_readWithin (fuel : List Char) (place : Place) (text : List Char) (h : Usual done) :
    Usual (readWithin fuel place done text).tokens := by
  have hdone : Usual done.reverse := fun t ht => h t (List.mem_reverse.mp ht)
  induction fuel generalizing place done text with
  | nil => cases text <;> exact hdone
  | cons f fuel ih =>
      cases text with
      | nil => exact hdone
      | cons c rest =>
          rw [readWithin_cons]
          split
          · exact ih _ _ h hdone
          · split
            · rename_i kind piece rest ht
              have htoken : Usual (⟨kind, some (String.ofList piece), place,
                  (place.after piece).offset⟩ :: done) := by
                refine usual_cons.mpr ⟨?_, h⟩
                rw [Token.usual, symbol_of_terminal ht]
              exact ih _ _ htoken fun t ht => htoken t (List.mem_reverse.mp ht)
            · exact hdone

/-- **The tokens of a text have their usual texts.** -/
lemma usual_read (source : List Char) : Usual (read source).tokens :=
  usual_readWithin source .origin source (by simp [Usual])

/-! ### Numbers with words right behind them -/

/-- A number with a literal or a name right behind it. -/
def Clashes (tokens : List Token) : Prop :=
  ∃ v t t' w, tokens = v ++ t :: t' :: w ∧ t.kind = .literal .number ∧ IsAtom t'.kind

/-- No sentence contains a clash. -/
lemma Clashes.not_steps (h : Clashes tokens) : ¬ Steps False 0 q tokens q' := by
  obtain ⟨v, t, t', w, rfl, ht, ht'⟩ := h
  intro hs
  obtain ⟨q₁, -, hs⟩ := steps_append_iff.mp hs
  obtain ⟨-, q₂, h₁, hs⟩ := steps_cons_iff.mp hs
  obtain ⟨-, q₃, h₂, -⟩ := steps_cons_iff.mp hs
  have hhold : ∃ x p br, q₂ = .hold x p br := by
    cases q₁ with
    | want p br => exact ⟨leaf t, p, br, by simpa [stepWant, ht, eq_comm] using h₁⟩
    | hold x p br =>
        rcases br with _ | ⟨_ | _ | _ | _, _⟩ <;> simp [stepHold, ht, endItem] at h₁
    | field x p br => simp [ht] at h₁
  obtain ⟨x, p, br, rfl⟩ := hhold
  rcases ht' with ⟨k, ht'⟩ | ht' <;>
    rcases br with _ | ⟨_ | _ | _ | _, _⟩ <;> simp [stepHold, ht', endItem] at h₂

/-! ### Readings -/

/-- A reading gives the tokens that a scan gives; where the scan is refused,
the reading is stuck or its tokens clash. -/
def Follows (r : Scanned) (reading : Reading) : Prop :=
  (r.refused = none ∧ reading = ⟨r.scanner.emitted.reverse, none⟩) ∨
    (r.refused ≠ none ∧ (reading.stuck ≠ none ∨ Clashes reading.tokens))

/-- A number is read with the word right behind it. -/
lemma clashes_readWithin {word : List Char} (hi : ignored? rest = none)
    (ht : terminal? rest = some (kind, cut word rest)) (hk : IsAtom kind)
    (hn : t.kind = .literal .number) (fuel : List Char) (place : Place) (done : List Token) :
    (readWithin fuel place (t :: done) rest).stuck ≠ none ∨
      Clashes (readWithin fuel place (t :: done) rest).tokens := by
  cases rest with
  | nil => simp [terminal?, number?, digits?, run?, string?, word?, operator?] at ht
  | cons c rest =>
      cases fuel with
      | nil => exact Or.inl (by simp [readWithin])
      | cons f fuel =>
          rw [readWithin_cons, hi, ht]
          let t' : Token := ⟨kind, some (String.ofList word), place, (place.after word).offset⟩
          obtain ⟨w, hw⟩ := readWithin_tokens fuel (place.after word) (t' :: t :: done)
            ((c :: rest).drop word.length)
          exact Or.inr ⟨done.reverse, t, t', w, by simpa [cut] using hw.symm, hn, hk⟩

/-- Layout is passed. -/
lemma Agrees.readWithin_layout (h : Agrees (piece ++ rest) (.layout piece)) (hne : piece ≠ []) :
    readWithin (f :: fuel) place done (piece ++ rest) =
      readWithin fuel (place.after piece) done rest := by
  obtain ⟨c, tail, rfl⟩ := List.exists_cons_of_ne_nil hne
  cases h with
  | layout hi =>
      rw [cut, List.drop_left] at hi
      rw [List.cons_append] at hi ⊢
      rw [readWithin_cons, hi]

/-- A token is read. -/
lemma Agrees.readWithin_token (h : Agrees (piece ++ rest) (.token kind piece)) (hne : piece ≠ []) :
    readWithin (f :: fuel) place done (piece ++ rest) =
      readWithin fuel (place.after piece)
        (⟨kind, some (String.ofList piece), place, (place.after piece).offset⟩ :: done) rest := by
  obtain ⟨c, tail, rfl⟩ := List.exists_cons_of_ne_nil hne
  cases h with
  | token hi ht =>
      rw [cut, List.drop_left] at ht
      rw [List.cons_append] at hi ht ⊢
      rw [readWithin_cons, hi, ht]

/-- What the scanner refuses leaves the reading stuck, or its tokens clash. -/
lemma Agrees.readWithin_refusal {problem : ScanProblem}
    (h : Agrees (c :: rest) (.refusal problem)) :
    (readWithin (f :: fuel) place done (c :: rest)).stuck ≠ none ∨
      Clashes (readWithin (f :: fuel) place done (c :: rest)).tokens := by
  cases h with
  | stuck hi ht =>
      rw [readWithin_cons, hi, ht]
      exact Or.inl (by simp)
  | clash hi ht hi' ht' hk =>
      rw [readWithin_cons, hi, ht]
      exact clashes_readWithin hi' ht' hk rfl _ _ _

/-- **The reading of the reference follows the scanner** on plain texts. -/
lemma follows_readWithin (fuel : List Char) {s : Scanner} (hp : PlainText s.ahead)
    (hlen : s.ahead.length ≤ fuel.length) :
    Follows (s.scanWithin fuel) (readWithin fuel s.here s.emitted s.ahead) := by
  induction fuel generalizing s with
  | nil =>
      have hnil : s.ahead = [] := List.length_eq_zero_iff.mp (Nat.le_zero.mp hlen)
      rw [hnil, readWithin_nil]
      exact Or.inl ⟨rfl, rfl⟩
  | cons f fuel ih =>
      rcases hahead : s.ahead with _ | ⟨c, text⟩
      · rw [readWithin_nil, Scanner.scanWithin, if_pos (by simp [hahead])]
        exact Or.inl ⟨rfl, rfl⟩
      · have hne : s.ahead ≠ [] := by simp [hahead]
        have hdoes := Scanner.does_scanToken hne
        have hagrees : Agrees s.ahead (Lexeme.scan s.ahead) := by
          rw [hahead] at hp ⊢
          exact hp.agrees
        -- a piece that is not empty leaves a shorter text, which is plain too
        have hshort : ∀ {piece rest : List Char}, s.ahead = piece ++ rest → piece ≠ [] →
            PlainText rest ∧ rest.length ≤ fuel.length := by
          intro piece rest h hpiece
          have hpos := List.length_pos_iff.mpr hpiece
          rw [h, List.length_append, List.length_cons] at hlen
          exact ⟨hp.of_suffix (h ▸ List.suffix_append _ _), by omega⟩
        rw [← hahead, Scanner.scanWithin, if_neg (by simpa using hne)]
        generalize hscan : Lexeme.scan s.ahead = found at hdoes hagrees
        generalize s.scanToken = r at hdoes
        cases hdoes with
        | @layout piece rest h =>
            have hpiece := (Lexeme.scan_layout hscan hne).2
            obtain ⟨hplain, hle⟩ := hshort h hpiece
            rw [h] at hagrees ⊢
            rw [hagrees.readWithin_layout hpiece]
            exact ih (s := s.past piece rest) hplain hle
        | @token kind piece rest h =>
            have hpiece := (Lexeme.scan_token hscan).2
            obtain ⟨hplain, hle⟩ := hshort h hpiece
            rw [h] at hagrees ⊢
            rw [hagrees.readWithin_token hpiece]
            exact ih (s := s.after kind piece rest) hplain hle
        | refusal r =>
            rw [hahead] at hagrees ⊢
            exact Or.inr ⟨by simp, hagrees.readWithin_refusal⟩

/-! ### Sources -/

lemma tokenize_eq (source : String) : tokenize source =
    match (Scanner.ofSource source.toList).scanAll.refused with
    | none => .ok (Scanner.ofSource source.toList).scanAll.scanner.tokens
    | some e => .error e := rfl

/-- The reading of a source follows its scan. -/
lemma follows_read {source : String} (hp : PlainText source.toList) :
    Follows (Scanner.ofSource source.toList).scanAll (read source.toList) :=
  follows_readWithin source.toList (s := .ofSource source.toList) hp le_rfl

/-- The reference reads the tokens of a plain source. -/
lemma read_of_tokenize {source : String} {tokens : Tokens} (hp : PlainText source.toList)
    (ht : tokenize source = .ok tokens) : read source.toList = ⟨tokens.items, none⟩ := by
  rw [tokenize_eq] at ht
  rcases follows_read hp with ⟨hr, h⟩ | ⟨hr, -⟩
  · rw [hr] at ht
    rw [h, ← Except.ok.inj ht]
    rfl
  · split at ht
    · exact absurd ‹_› hr
    · cases ht

/-- The reference finds no outline where the scanner is refused. -/
lemma parse_ne_outline {source : String} {e : ScanError} (hp : PlainText source.toList)
    (ht : tokenize source = .error e) (o : Outline) : parse source ≠ .outline o := by
  rw [tokenize_eq] at ht
  rcases follows_read hp with ⟨hr, -⟩ | ⟨-, h⟩
  · rw [hr] at ht
    cases ht
  · rw [parse]
    cases hs : (read source.toList).stuck with
    | some place => exact run_stuck place o
    | none =>
        intro hrun
        obtain ⟨q, hsteps, -⟩ := (run_eq_outline_iff (usual_read _)).mp hrun
        exact (h.resolve_left fun hne => hne hs).not_steps hsteps

/-- **The reference finds canonical forms of productions.** On every text it
finds an outline exactly if a terminal matches at every place and the tokens
derive, by the productions of the reference grammar, with a tree of this
canonical form. -/
theorem parse_eq_outline_iff_renders (source : String) (o : Outline) :
    parse source = .outline o ↔ (read source.toList).stuck = none ∧
      Renders .assignment (read source.toList).tokens o := by
  have husual := usual_read source.toList
  rw [parse]
  cases (read source.toList).stuck with
  | some place => simp [run_stuck]
  | none =>
      rw [run_eq_outline_iff husual, ← exists_derives_iff, renders_iff_means husual, Means]
      simp

/-- The reference finds the outlines of derivations. -/
lemma parse_eq_outline_iff {source : String} {tokens : Tokens} (hp : PlainText source.toList)
    (ht : tokenize source = .ok tokens) (o : Outline) :
    parse source = .outline o ↔ ∃ e, Derives .assignment tokens.items e ∧ Expr.outline e = o := by
  have hread := read_of_tokenize hp ht
  rw [parse_eq_outline_iff_renders, renders_iff_means (usual_read _), hread]
  simp [Means]

end Reference

open Grammar

/-- **The parser agrees with the reference.** On a plain source without overlong
integers a parse succeeds with a tree of some outline exactly if the reference
finds this outline, no more brackets than the limit are open at once, and every
`assign` in the outline has a target first. -/
theorem parseSource_iff_reference {source : String} (hp : Reference.PlainText source.toList)
    (hlong : ∀ tokens, tokenize source = .ok tokens → ∀ t ∈ tokens.items, ¬ t.IsLongInteger)
    (limit : ℤ) (o : Outline) :
    (∃ tree, parseSource limit false source = .accepted tree ∧ Expr.outline tree = o) ↔
      Reference.parse source = .outline o ∧
        AtMostOpen limit.toNat (Reference.read source.toList).tokens ∧ o.TargetsValid := by
  cases ht : tokenize source with
  | error e =>
      have hrejected : ∀ tree, parseSource limit false source ≠ .accepted tree := fun tree => by
        rw [parseSource, parseTokens, ht]
        simp
      constructor
      · rintro ⟨tree, h, -⟩
        exact absurd h (hrejected tree)
      · rintro ⟨h, -⟩
        exact absurd h (Reference.parse_ne_outline hp ht o)
  | ok tokens =>
      simp only [parseSource_accepted_iff ht (hlong tokens ht),
        Reference.parse_eq_outline_iff hp ht, Reference.read_of_tokenize hp ht]
      constructor
      · rintro ⟨tree, ⟨hd, htargets, hdepth⟩, rfl⟩
        exact ⟨⟨tree, hd, rfl⟩, hdepth, (targetsValid_outline_iff tree).mpr htargets⟩
      · rintro ⟨⟨tree, hd, rfl⟩, hdepth, htargets⟩
        exact ⟨tree, ⟨hd, (targetsValid_outline_iff tree).mp htargets, hdepth⟩, rfl⟩

/-- The theorem at the source `x=y`. -/
theorem parseSource_iff_reference_assignment :
    Reference.PlainText "x=y".toList ∧
      (∀ tokens, tokenize "x=y" = .ok tokens → ∀ t ∈ tokens.items, ¬ t.IsLongInteger) ∧
      ∀ limit o,
        (∃ tree, parseSource limit false "x=y" = .accepted tree ∧ Expr.outline tree = o) ↔
          Reference.parse "x=y" = .outline o ∧
            AtMostOpen limit.toNat (Reference.read "x=y".toList).tokens ∧ o.TargetsValid := by
  have hdigits : ∀ c ∈ ['x', '=', 'y'], isDecimalDigit c = true → c.isDigit = true := by
    simp only [List.forall_mem_cons]
    exact ⟨by decide, by decide, by decide, List.forall_mem_nil _⟩
  have hp : Reference.PlainText "x=y".toList :=
    ⟨by decide, by decide, hdigits, by decide, by decide⟩
  have ht : tokenize "x=y" = .ok ⟨[⟨.name, some "x", ⟨0, 1, 1⟩, 1⟩,
      ⟨.assign, some "=", ⟨1, 1, 2⟩, 2⟩, ⟨.name, some "y", ⟨2, 1, 3⟩, 3⟩],
      ⟨.finish, none, ⟨3, 1, 4⟩, 3⟩⟩ := rfl
  have hlong : ∀ tokens, tokenize "x=y" = .ok tokens → ∀ t ∈ tokens.items,
      ¬ t.IsLongInteger := by
    intro tokens h
    obtain rfl := Except.ok.inj (ht.symm.trans h)
    simp [Token.IsLongInteger]
  exact ⟨hp, hlong, parseSource_iff_reference hp hlong⟩

end ArrayExpr
