/-
The rounds of the scanner.

* `Scanner.Round`, `Scanner.Reaches`: one round that goes well, and any number of
  them;
* `Scanner.Halts`: where there is no further round: at the end of the text, or at
  a refusal;
* `Scanner.exists_halt`: the rounds come to an end, and reading all that is ahead
  gives what they end with;
* `Scanner.Inside`: a scanner inside a text; what it has read are stretches of the
  text;
* `Scanner.Inside.progress`: a round is refused, or goes on without leaving the
  text;
* `Scanner.Inside.reaches`: no round leaves the text.
-/
import Mathlib.Logic.Relation
import ArrayExpr.Proofs.Scanner.Tiling

namespace ArrayExpr

namespace Scanner

open Lexeme

variable {s s' : Scanner} {source piece rest : List Char} {kind : Kind}

/-- One round that goes well. -/
def Round (s s' : Scanner) : Prop := s.ahead ≠ [] ∧ s.scanToken = s'.accepted

/-- Any number of rounds that go well. -/
def Reaches : Scanner → Scanner → Prop := Relation.ReflTransGen Round

/-- There is no further round: the end of the text is reached, or the round is
refused. -/
inductive Halts (s : Scanner) : Scanned → Prop
  | done (h : s.ahead = []) : Halts s s.accepted
  | refused {r : Scanner} {e : ScanError} (hne : s.ahead ≠ []) (h : s.scanToken = ⟨r, some e⟩) :
      Halts s ⟨r, some e⟩

/-! ### The rounds come to an end -/

/-- A round is refused, or passes a piece of the text ahead. -/
lemma scanToken_cases (hne : s.ahead ≠ []) :
    (∃ r e, s.scanToken = ⟨r, some e⟩) ∨
      ∃ piece rest, s.ahead = piece ++ rest ∧ piece ≠ [] ∧
        (s.scanToken = (s.past piece rest).accepted ∨
          ∃ kind, s.scanToken = (s.after kind piece rest).accepted) := by
  have hdoes := does_scanToken hne
  generalize hscan : scan s.ahead = found at hdoes
  generalize hr : s.scanToken = scanned at hdoes
  cases hdoes with
  | @layout piece rest h =>
      exact .inr ⟨piece, rest, h, (scan_layout hscan hne).2, .inl rfl⟩
  | @token kind piece rest h =>
      exact .inr ⟨piece, rest, h, (scan_token hscan).2, .inr ⟨kind, rfl⟩⟩
  | refusal r => exact .inl ⟨r, _, rfl⟩

/-- As many rounds as characters are ahead are enough. -/
lemma exists_halt_within (fuel : List Char) (h : s.ahead.length ≤ fuel.length) :
    ∃ s', s.Reaches s' ∧ s'.Halts (scanWithin fuel s) := by
  induction fuel generalizing s with
  | nil =>
      have hnil : s.ahead = [] := List.length_eq_zero_iff.mp (Nat.le_zero.mp h)
      exact ⟨s, .refl, .done hnil⟩
  | cons c fuel ih =>
      by_cases hne : s.ahead = []
      · rw [scanWithin, if_pos (by simp [hne])]
        exact ⟨s, .refl, .done hne⟩
      -- The next round leaves less ahead, for which the fuel left is enough.
      · have hround : ∀ s' : Scanner, s.scanToken = s'.accepted → s'.ahead.length ≤ fuel.length →
            ∃ s'', s.Reaches s'' ∧ s''.Halts (scanWithin (c :: fuel) s) := by
          intro s' hs' hle
          obtain ⟨s'', hreaches, hhalts⟩ := ih hle
          rw [scanWithin_accepted hne hs']
          exact ⟨s'', .head ⟨hne, hs'⟩ hreaches, hhalts⟩
        rcases scanToken_cases hne with ⟨r, e, hr⟩ | ⟨piece, rest, hahead, hpiece, hcase⟩
        · rw [scanWithin, if_neg (by simpa using hne), hr]
          exact ⟨s, .refl, .refused hne hr⟩
        · have hpos := List.length_pos_iff.mpr hpiece
          have hle : rest.length ≤ fuel.length := by
            rw [hahead, List.length_append, List.length_cons] at h
            omega
          rcases hcase with hs' | ⟨kind, hs'⟩
          · exact hround _ hs' hle
          · exact hround _ hs' hle

/-- **The rounds come to an end**, with what reading all that is ahead gives. -/
theorem exists_halt (s : Scanner) : ∃ s', s.Reaches s' ∧ s'.Halts s.scanAll :=
  exists_halt_within s.ahead (Nat.le_refl _)

/-! ### The rounds stay inside the text -/

/-- A token is a stretch of a text. -/
structure Stretch (source : List Char) (stop : Nat) (t : Token) : Prop where
  nonempty : t.start.offset < t.stop
  bound : t.stop ≤ stop
  text : t.text = some (String.ofList (t.span.text source))

/-- A scanner inside a text: the rest of the text is ahead, and the tokens read so
far are stretches of what it has passed. -/
structure Inside (source : List Char) (s : Scanner) : Prop where
  bound : s.here.offset ≤ source.length
  ahead : s.ahead = source.drop s.here.offset
  emitted : ∀ t ∈ s.emitted, Stretch source s.here.offset t

lemma inside_ofSource (source : List Char) : (ofSource source).Inside source where
  bound := Nat.zero_le _
  ahead := rfl
  emitted := by simp [ofSource]

/-- What is passed stands in the text. -/
lemma Inside.exists_front (hs : s.Inside source) (h : s.ahead = piece ++ rest) :
    ∃ front, source = front ++ (piece ++ rest) ∧ front.length = s.here.offset := by
  refine ⟨source.take s.here.offset, ?_, List.length_take_of_le hs.bound⟩
  rw [← h, hs.ahead, List.take_append_drop]

lemma Inside.past (hs : s.Inside source) (h : s.ahead = piece ++ rest) :
    (s.past piece rest).Inside source := by
  obtain ⟨front, rfl, hfront⟩ := hs.exists_front h
  have hoffset : (s.past piece rest).here.offset = front.length + piece.length := by
    rw [Scanner.past, Place.after_offset, hfront]
  refine ⟨?_, ?_, fun t ht => ?_⟩
  · rw [hoffset, List.length_append, List.length_append]
    omega
  · rw [hoffset, ← List.length_append, ← List.append_assoc, List.drop_left]
    rfl
  · obtain ⟨hnonempty, hbound, htext⟩ := hs.emitted t ht
    exact ⟨hnonempty, by omega, htext⟩

lemma Inside.after (hs : s.Inside source) (h : s.ahead = piece ++ rest) (hne : piece ≠ []) :
    (s.after kind piece rest).Inside source := by
  obtain ⟨bound, ahead, emitted⟩ := hs.past h
  refine ⟨bound, ahead, List.forall_mem_cons.mpr ⟨⟨?_, Nat.le_refl _, ?_⟩, emitted⟩⟩
  · have hpos := List.length_pos_iff.mpr hne
    rw [Place.after_offset]
    exact Nat.lt_add_of_pos_right hpos
  · obtain ⟨front, rfl, hfront⟩ := hs.exists_front h
    simp only [Token.span, Span.text, Place.after_offset]
    rw [← hfront, ← List.length_append, ← List.append_assoc, List.take_left, List.drop_left]

/-- **A round is refused, or goes on without leaving the text.** At the end of the
text it is refused. -/
theorem Inside.progress (hs : s.Inside source) :
    (∃ r e, s.scanToken = ⟨r, some e⟩) ∨
      ∃ s' : Scanner, s.scanToken = s'.accepted ∧ s.here.offset < s'.here.offset ∧
        s'.Inside source := by
  by_cases hne : s.ahead = []
  · obtain ⟨ahead, here, start, emitted⟩ := s
    obtain rfl : ahead = [] := hne
    exact .inl ⟨_, _, rfl⟩
  · rcases scanToken_cases hne with hr | ⟨piece, rest, hahead, hpiece, hcase⟩
    · exact .inl hr
    · have hlt : s.here.offset < (s.here.after piece).offset := by
        have hpos := List.length_pos_iff.mpr hpiece
        rw [Place.after_offset]
        omega
      rcases hcase with h | ⟨kind, h⟩
      · exact .inr ⟨_, h, hlt, hs.past hahead⟩
      · exact .inr ⟨_, h, hlt, hs.after hahead hpiece⟩

lemma Inside.round (hs : s.Inside source) (h : s.Round s') : s'.Inside source := by
  rcases hs.progress with ⟨r, e, hr⟩ | ⟨s'', hs'', -, hinside⟩
  · cases hr.symm.trans h.2
  · cases hs''.symm.trans h.2
    exact hinside

/-- **No round leaves the text.** -/
theorem Inside.reaches (hs : s.Inside source) (h : s.Reaches s') : s'.Inside source := by
  induction h with
  | refl => exact hs
  | tail _ hround ih => exact ih.round hround

end Scanner

end ArrayExpr
