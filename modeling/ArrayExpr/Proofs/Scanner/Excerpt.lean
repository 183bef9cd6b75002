/-
Texts cut out of a source.

* `Lexeme.Settled`: what a lexeme takes does not depend on what stands behind
  it; `settled_number` and those before it;
* `Lexeme.scan_token_cut`, `Lexeme.scan_layout_cut`: a scan takes the same piece
  if less stands behind it;
* `Tiles.cut`, `Tiles.shift`, `Tiles.exists_core`: a text keeps its tokens
  if less stands behind it, at another place, and without the layout around it;
* `tokenize_excerpt`, `tokenize_front`: the text of some tokens has these tokens.
-/
import Mathlib.Data.List.TakeWhile
import ArrayExpr.Proofs.Scanner.Tiling
import ArrayExpr.Proofs.Layout.Basic

namespace ArrayExpr

namespace Lexeme

variable {f g : List Char → List Char} {text text' piece : List Char} {kind : Kind}

/-! ### What lexemes take -/

/-- What `f` takes from a text it takes from every shorter text that still has
it. -/
def Settled (f : List Char → List Char) : Prop :=
  ∀ ⦃text text' : List Char⦄, f text <+: text' → text' <+: text → f text' = f text

lemma prefix_takeWhile (p : Char → Bool) (h : text' <+: text) :
    text'.takeWhile p <+: text.takeWhile p := by
  obtain ⟨rest, rfl⟩ := h
  rw [List.takeWhile_append]
  split_ifs with hall
  · exact (List.takeWhile_prefix p).trans (List.prefix_append _ _)
  · exact List.prefix_rfl

lemma settled_takeWhile (p : Char → Bool) : Settled (List.takeWhile p) := by
  intro text text' h h'
  have hall : (text.takeWhile p).takeWhile p = text.takeWhile p :=
    List.takeWhile_eq_self_iff.mpr fun c hc => List.mem_takeWhile_imp hc
  have hle := (prefix_takeWhile p h).length_le
  rw [hall] at hle
  exact (prefix_takeWhile p h').eq_of_length_le hle

/-- One part behind another. -/
lemma Settled.append (hf : Settled f) (hg : Settled g) :
    Settled fun text => f text ++ g (text.drop (f text).length) := by
  intro text text' h h'
  have hfront : f text <+: text' := (List.prefix_append _ _).trans h
  simp only [hf hfront h']
  dsimp only at h
  generalize f text = taken at h hfront
  obtain ⟨rest, rfl⟩ := hfront
  obtain ⟨more, rfl⟩ := h'
  rw [List.append_assoc, List.drop_left] at h ⊢
  rw [List.drop_left, hg ((List.prefix_append_right_inj _).mp h) (List.prefix_append _ _)]

/-- What begins with the character ahead is compared behind it. -/
lemma settled_of_cons (hnil : f [] = [])
    (hcons : ∀ (c : Char) {rest rest' : List Char}, f (c :: rest) <+: c :: rest' → rest' <+: rest →
      f (c :: rest') = f (c :: rest)) : Settled f := by
  intro text text' h h'
  cases text' with
  | nil => rw [hnil, List.prefix_nil.mp h]
  | cons c rest' =>
      obtain ⟨more, rfl⟩ := h'
      exact hcons c h (List.prefix_append _ _)

lemma settled_digits : Settled digits := settled_takeWhile _

lemma settled_word : Settled word := settled_takeWhile _

lemma sign_cons (c : Char) (rest rest' : List Char) : sign (c :: rest) = sign (c :: rest') := by
  by_cases hplus : c = '+'
  · subst hplus
    rfl
  · by_cases hminus : c = '-'
    · subst hminus
      rfl
    · simp [sign, hplus, hminus]

lemma settled_sign : Settled sign := settled_of_cons rfl fun c _ _ _ _ => sign_cons c _ _

lemma fraction_dot (rest : List Char) :
    fraction ('.' :: rest) = if digits rest = [] then [] else '.' :: digits rest := by
  simp [fraction]

lemma settled_fraction : Settled fraction := by
  refine settled_of_cons rfl fun c {rest rest'} h h' => ?_
  by_cases hc : c = '.'
  · subst hc
    rw [fraction_dot, fraction_dot] at *
    by_cases hnone : digits rest = []
    · have hle : digits rest' <+: digits rest := prefix_takeWhile _ h'
      rw [hnone, List.prefix_nil] at hle
      rw [hnone, hle]
    · rw [if_neg hnone] at h
      rw [settled_digits ((List.prefix_cons_inj _).mp h) h']
  · simp [fraction, hc]

/-- The digits of an exponent, behind its sign. -/
def power (rest : List Char) : List Char := digits (rest.drop (sign rest).length)

lemma exponent_cons (c : Char) (rest : List Char) :
    exponent (c :: rest) =
      if (c = 'e' ∨ c = 'E') ∧ power rest ≠ [] then c :: (sign rest ++ power rest) else [] := by
  simp only [exponent, power, Bool.and_eq_true, Bool.or_eq_true, decide_eq_true_eq,
    Bool.not_eq_true', List.isEmpty_eq_false_iff]
  exact if_congr Iff.rfl rfl rfl

/-- Less text behind an exponent leaves less for its digits. -/
lemma prefix_power {rest rest' : List Char} (h : rest' <+: rest) : power rest' <+: power rest := by
  cases rest' with
  | nil => exact List.nil_prefix
  | cons c rest' =>
      obtain ⟨more, rfl⟩ := h
      rw [power, power, List.cons_append, sign_cons c rest' (rest' ++ more)]
      exact prefix_takeWhile _ ((List.prefix_append (c :: rest') more).drop _)

lemma settled_exponent : Settled exponent := by
  refine settled_of_cons rfl fun c {rest rest'} h h' => ?_
  rw [exponent_cons] at h ⊢
  rw [exponent_cons]
  by_cases hpower : (c = 'e' ∨ c = 'E') ∧ power rest ≠ []
  · rw [if_pos hpower] at h ⊢
    have htail := (List.prefix_cons_inj _).mp h
    have hboth : sign rest' ++ power rest' = sign rest ++ power rest :=
      settled_sign.append settled_digits htail h'
    have hsign := settled_sign ((List.prefix_append _ _).trans htail) h'
    rw [hsign] at hboth
    rw [hsign, List.append_cancel_left hboth, if_pos hpower]
  -- A mark without digits behind it gets none from a shorter text.
  · rw [if_neg hpower, if_neg]
    intro hmark
    refine hpower ⟨hmark.1, fun hnil => hmark.2 ?_⟩
    have hle := prefix_power h'
    rwa [hnil, List.prefix_nil] at hle

lemma settled_number : Settled number := by
  have h := settled_digits.append (settled_fraction.append settled_exponent)
  intro text text' hp hp'
  have := @h text text'
  simp only [number, List.append_assoc] at hp ⊢
  exact this hp hp'

/-! ### Scans -/

lemma exists_cons_of_cut {c : Char} {rest : List Char} (hp : piece <+: text') (hne : piece ≠ [])
    (h : text' <+: c :: rest) : ∃ rest', text' = c :: rest' ∧ rest' <+: rest := by
  cases text' with
  | nil => exact absurd (List.prefix_nil.mp hp) hne
  | cons d rest' =>
      obtain ⟨rfl, hrest⟩ := List.cons_prefix_cons.mp h
      exact ⟨rest', rfl, hrest⟩

lemma stringBody_escape {quote : Char} (h : quote ≠ '\\') (d : Char) (rest : List Char) :
    stringBody quote ('\\' :: d :: rest) = '\\' :: d :: stringBody quote rest := by
  rw [stringBody.eq_def]
  simp [h.symm]

/-- A string with its closing quote is the same whatever follows. -/
lemma stringBody_quoted (quote : Char) (text : List Char) {tail : List Char} (tail' : List Char)
    (h : text = stringBody quote text ++ quote :: tail) :
    stringBody quote (stringBody quote text ++ quote :: tail') = stringBody quote text := by
  induction text using stringBody.induct quote with
  | case1 => cases h
  | case2 rest => rw [stringBody_quote, List.nil_append, stringBody_quote]
  | case3 hq =>
      rw [stringBody.eq_def] at h
      simp [hq] at h
  | case4 d rest hq ih =>
      rw [stringBody_escape (Ne.symm hq)] at h ⊢
      simp only [List.cons_append, List.cons.injEq, true_and] at h
      rw [List.cons_append, List.cons_append, stringBody_escape (Ne.symm hq), ih h]
  | case5 c rest hq hb ih =>
      rw [stringBody_cons hq hb] at h ⊢
      simp only [List.cons_append, List.cons.injEq, true_and] at h
      rw [List.cons_append, stringBody_cons hq hb, ih h]

lemma scanQuoted_cut {quote : Char} {rest rest' : List Char}
    (h : scanQuoted quote rest = .token kind piece) (hp : piece <+: quote :: rest') :
    scanQuoted quote rest' = .token kind piece := by
  rw [scanQuoted] at h ⊢
  split_ifs at h with hclosed
  obtain ⟨rfl, rfl⟩ := Scan.token.inj h
  obtain ⟨tail, htail, hend⟩ := stringBody_append quote rest
  obtain ⟨tail, rfl⟩ : ∃ tail', tail = quote :: tail' := by
    refine hend.resolve_left fun hnil => hclosed ?_
    rw [hnil, List.append_nil] at htail
    rw [← htail, List.drop_length]
    rfl
  rw [List.cons_append, List.prefix_cons_inj] at hp
  obtain ⟨more, hmore⟩ := hp
  have hrest' : rest' = stringBody quote rest ++ quote :: more := by rw [← hmore]; simp
  rw [hrest', stringBody_quoted quote rest more htail, List.drop_left, if_neg (by simp)]

lemma scanDigits_cut (h : scanDigits text = .token kind piece) (hp : piece <+: text')
    (h' : text' <+: text) : scanDigits text' = .token kind piece := by
  rw [scanDigits] at h ⊢
  split_ifs at h with hword
  obtain ⟨rfl, rfl⟩ := Scan.token.inj h
  have hnumber := settled_number hp h'
  -- The word that may not follow a number could only start with what stood there before.
  have hbehind : text'.drop (number text).length <+: text.drop (number text).length := h'.drop _
  rw [hnumber, if_neg]
  intro hword'
  refine hword ?_
  cases hd : text'.drop (number text).length with
  | nil => rw [hd] at hword'; simp [isWordStart] at hword'
  | cons d tail =>
      rw [hd] at hword' hbehind
      obtain ⟨more, hmore⟩ := hbehind
      rw [← hmore]
      exact hword'

lemma operator?_cut (h : operator? text = some (piece, kind)) (hp : piece <+: text')
    (h' : text' <+: text) : operator? text' = some (piece, kind) := by
  rw [operator?, List.find?_eq_some_iff_append] at h ⊢
  obtain ⟨-, before, behind, hops, hbefore⟩ := h
  refine ⟨List.isPrefixOf_iff_prefix.mpr hp, before, behind, hops, fun op hop => ?_⟩
  have hno := hbefore op hop
  rw [Bool.not_eq_true'] at hno ⊢
  rw [Bool.eq_false_iff, ne_eq, List.isPrefixOf_iff_prefix] at hno ⊢
  exact fun hop' => hno (hop'.trans h')

/-- **A token is read the same if less stands behind it.** -/
theorem scan_token_cut (h : scan text = .token kind piece) (hp : piece <+: text')
    (h' : text' <+: text) : scan text' = .token kind piece := by
  have hne := (scan_token h).2
  cases text with
  | nil => cases h
  | cons c rest =>
      obtain ⟨rest', rfl, hrest⟩ := exists_cons_of_cut hp hne h'
      rw [scan] at h ⊢
      split_ifs at h ⊢ with h1 h2 h3 h4 h5
      · exact scanQuoted_cut h hp
      · exact scanDigits_cut h hp h'
      · obtain ⟨rfl, rfl⟩ := Scan.token.inj h
        rw [settled_word hp h']
      · rw [scanSymbol] at h ⊢
        cases ho : operator? (c :: rest) with
        | none => rw [ho] at h; cases h
        | some found =>
            rw [ho] at h
            obtain ⟨rfl, rfl⟩ := Scan.token.inj h
            rw [operator?_cut ho hp h']

/-- Layout is passed the same if less stands behind it. -/
theorem scan_layout_cut (h : scan text = .layout piece) (hne : piece ≠ [])
    (hp : piece <+: text') (h' : text' <+: text) : scan text' = .layout piece := by
  cases text with
  | nil => exact absurd (Scan.layout.inj h).symm hne
  | cons c rest =>
      obtain ⟨rest', rfl, hrest⟩ := exists_cons_of_cut hp hne h'
      rw [scan] at h ⊢
      split_ifs at h ⊢ with h1 h2 h3 h4 h5
      · obtain rfl := Scan.layout.inj h
        rw [settled_takeWhile _ hp h']
      · obtain rfl := Scan.layout.inj h
        rw [settled_takeWhile _ hp h']
      · rw [scanQuoted] at h
        split_ifs at h
      · rw [scanDigits] at h
        split_ifs at h
      · rw [scanSymbol] at h
        split at h <;> cases h

end Lexeme

namespace Tiles

open Lexeme

variable {behind behind' text : List Char} {place : Place} {v w tokens : List Token}

/-! ### Cut texts -/

/-- A text keeps its tokens if less stands behind it. -/
theorem cut (h : Tiles behind place text tokens) (hb : behind' <+: behind) :
    Tiles behind' place text tokens := by
  induction h with
  | nil place => exact .nil place
  | @layout place piece rest tokens h hne ht ih =>
      rw [List.append_assoc] at h
      refine .layout (scan_layout_cut h hne ?_ ?_) hne ih
      · simp
      · simpa using hb
  | @token place kind piece rest tokens h ht ih =>
      rw [List.append_assoc] at h
      refine .token (scan_token_cut h ?_ ?_) ih
      · simp
      · simpa using hb

/-- A text keeps its tokens at another place. -/
theorem shift (h : Tiles behind place text tokens) (place' : Place) :
    ∃ tokens', Tiles behind place' text tokens' ∧ List.Forall₂ Token.Alike tokens tokens' := by
  induction h generalizing place' with
  | nil place => exact ⟨[], .nil place', .nil⟩
  | @layout place piece rest tokens h hne ht ih =>
      obtain ⟨tokens', ht', halike⟩ := ih (place'.after piece)
      exact ⟨tokens', .layout h hne ht', halike⟩
  | @token place kind piece rest tokens h ht ih =>
      obtain ⟨tokens', ht', halike⟩ := ih (place'.after piece)
      exact ⟨_, .token h ht', .cons ⟨rfl, rfl⟩ halike⟩

/-- Behind the last of some tokens the text can be divided. -/
lemma exists_stop (h : Tiles behind place text (v ++ w)) :
    ∃ core rest, text = core ++ rest ∧ Tiles (rest ++ behind) place core v ∧
      Tiles behind (place.after core) rest w ∧ (v = [] → core = []) ∧
      (v ≠ [] → (extent v).stop = (place.after core).offset) := by
  generalize hvw : v ++ w = tokens at h
  by_cases hv : v = []
  · subst hv
    subst hvw
    exact ⟨[], text, rfl, .nil place, h, fun _ => rfl, fun hne => absurd rfl hne⟩
  induction h generalizing v with
  | nil place => exact absurd (List.append_eq_nil_iff.mp hvw).1 hv
  | @layout place piece rest tokens h hne ht ih =>
      obtain ⟨core, tail, rfl, hcore, htail, -, hstop⟩ := ih hvw hv
      refine ⟨piece ++ core, tail, (List.append_assoc ..).symm, .layout ?_ hne hcore, ?_,
        fun hnone => absurd hnone hv, fun _ => ?_⟩
      · simpa using h
      · rwa [Place.after_append]
      · rw [hstop hv, Place.after_append]
  | @token place kind piece rest tokens h ht ih =>
      cases v with
      | nil => exact absurd rfl hv
      | cons t v =>
          obtain ⟨rfl, rfl⟩ := List.cons.inj hvw
          by_cases hnil : v = []
          · subst hnil
            refine ⟨piece, rest, rfl, ?_, ht, fun hnone => absurd hnone hv, fun _ => rfl⟩
            have h' : scan (piece ++ [] ++ (rest ++ behind)) = .token kind piece := by simpa using h
            simpa using Tiles.token h' (.nil _)
          · obtain ⟨core, tail, rfl, hcore, htail, -, hstop⟩ := ih rfl hnil
            refine ⟨piece ++ core, tail, (List.append_assoc ..).symm, .token ?_ hcore, ?_,
              fun hnone => absurd hnone hv, fun _ => ?_⟩
            · simpa using h
            · rwa [Place.after_append]
            · rw [← List.singleton_append, extent_append_stop _ hnil, hstop hnil,
                Place.after_append]

/-- Layout on both sides can be cut off. -/
theorem exists_core (h : Tiles behind place text v) (hv : v ≠ []) :
    ∃ gap core tail, text = gap ++ (core ++ tail) ∧
      Tiles (tail ++ behind) (place.after gap) core v ∧
      extent v = ⟨(place.after gap).offset, ((place.after gap).after core).offset⟩ := by
  obtain ⟨t, w, rfl⟩ := List.exists_cons_of_ne_nil hv
  obtain ⟨gap, kind, piece, rest, rfl, -, rfl, hscan, hw⟩ := h.exists_first
  have htoken := Tiles.token hscan hw
  rw [← List.append_nil (_ :: w)] at htoken
  obtain ⟨core, tail, hcut, hcore, -, -, hstop⟩ := htoken.exists_stop
  refine ⟨gap, core, tail, by rw [hcut], hcore, ?_⟩
  rw [← hstop hv]
  rfl

end Tiles

/-! ### Excerpts of a source -/

variable {source : String} {tokens : Tokens} {u v w : List Token}

/-- **The text of some tokens in a row has these tokens.** -/
theorem tokenize_excerpt (h : tokenize source = .ok tokens) (hitems : tokens.items = u ++ (v ++ w))
    (hv : v ≠ []) :
    ∃ tokens', tokenize (String.ofList ((extent v).text source.toList)) = .ok tokens' ∧
      List.Forall₂ Token.Alike v tokens'.items := by
  obtain ⟨htiles, -⟩ := tokenize_eq_ok_iff.mp h
  rw [hitems] at htiles
  obtain ⟨front, rest, hsource, -, hrest⟩ := htiles.split
  obtain ⟨middle, back, rfl, hmiddle, -⟩ := hrest.split
  obtain ⟨gap, core, tail, rfl, hcore, hextent⟩ := hmiddle.exists_core hv
  have htext : (extent v).text source.toList = core := by
    have hcut : source.toList = front ++ gap ++ core ++ (tail ++ back) := by simp [hsource]
    have hspan : extent v = ⟨(front ++ gap).length, (front ++ gap ++ core).length⟩ := by
      simp [hextent, Place.after_offset, Place.origin, Nat.add_assoc]
    rw [hspan, Span.text, hcut, List.take_left, List.drop_left]
  obtain ⟨tokens', htokens', halike⟩ := (hcore.cut (List.nil_prefix)).shift .origin
  refine ⟨⟨tokens', closingToken core⟩, ?_, halike⟩
  rw [htext, tokenize_eq_ok_iff, String.toList_ofList]
  exact ⟨htokens', rfl⟩

/-- The text up to the last of some tokens is cut into them. -/
lemma Tiles.exists_take {text front behind : List Char} (htext : text = front ++ behind)
    (h : Tiles behind .origin front (v ++ w)) (hv : v ≠ []) :
    ∃ core, text.take (extent v).stop = core ∧ core.length = (extent v).stop ∧
      Tiles [] .origin core v := by
  obtain ⟨core, rest, rfl, hcore, -, -, hstop⟩ := h.exists_stop
  have hlen : core.length = (extent v).stop := by
    rw [hstop hv, Place.after_origin_offset]
  refine ⟨core, ?_, hlen, hcore.cut List.nil_prefix⟩
  rw [htext, List.append_assoc, ← hlen, List.take_left]

/-- **The text up to some token has the tokens up to it**, at the same places. -/
theorem tokenize_front (h : tokenize source = .ok tokens) (hitems : tokens.items = v ++ w)
    (hv : v ≠ []) :
    tokenize (String.ofList (source.toList.take (extent v).stop)) =
      .ok ⟨v, closingToken (source.toList.take (extent v).stop)⟩ := by
  obtain ⟨htiles, -⟩ := tokenize_eq_ok_iff.mp h
  rw [hitems] at htiles
  obtain ⟨core, htake, -, hcore⟩ := htiles.exists_take (List.append_nil _).symm hv
  rw [htake, tokenize_eq_ok_iff, String.toList_ofList]
  exact ⟨hcore, rfl⟩

end ArrayExpr
