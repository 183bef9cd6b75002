/-
A scanner under calls in any order.

* `Scanner.Moves`: all that any call does is to move on, to mark and to emit;
* `Scanner.moves_call`: this holds of every call, the refused ones too;
* `Scanner.Placed`: the places that a scanner and its tokens carry are those of
  their offsets, and the offsets are in order;
* `Scanner.Later`: nothing moves back, and no token is taken away;
* `Scanner.calls_placed`: **both hold through every sequence of calls**, past the
  end of the text too.
-/
import Mathlib.Order.Nat
import ArrayExpr.Scanner.Call
import ArrayExpr.Proofs.Scanner.Places

namespace ArrayExpr

namespace Scanner

variable {source : List Char} {s r t : Scanner}

/-! ### What calls are made of -/

/-- A scanner reached by moving on, marking and emitting. -/
inductive Moves (s : Scanner) : Scanner → Prop
  | here : Moves s s
  | advance {r : Scanner} (h : Moves s r) (n : Nat) : Moves s (r.advance n)
  | mark {r : Scanner} (h : Moves s r) : Moves s r.mark
  | emit {r : Scanner} (h : Moves s r) (kind : Kind) (text : Option String) :
      Moves s (r.emit kind text)

/-- Moves in a row are a move. -/
lemma Moves.trans (hr : s.Moves r) (ht : r.Moves t) : s.Moves t := by
  induction ht with
  | here => exact hr
  | advance _ n ih => exact ih.advance n
  | mark _ ih => exact ih.mark
  | emit _ kind text ih => exact ih.emit kind text

/-- White space is passed character by character. -/
lemma moves_skipLayout (s : Scanner) : s.Moves s.skipLayout := Moves.here.advance _

/-- So is a comment. -/
lemma moves_skipComment (s : Scanner) : s.Moves s.skipComment := Moves.here.advance _

/-- A string is passed up to its quote, or to where it breaks off. -/
lemma moves_scanString (s : Scanner) : s.Moves s.scanString.scanner := by
  have hclosing := (Moves.here (s := s)).advance 1 |>.advance
    (Lexeme.stringBody (s.peek 0) (s.advance 1).ahead).length
  rw [scanString]
  split_ifs
  · exact hclosing
  · exact (hclosing.advance 1).emit _ _

/-- A number is passed by its digits, and refused where a letter follows. -/
lemma moves_scanNumber (s : Scanner) : s.Moves s.scanNumber.scanner := by
  have hpassed := (Moves.here (s := s)).advance (Lexeme.number s.ahead).length
  rw [scanNumber]
  split_ifs
  · exact hpassed
  · exact hpassed.emit _ _

/-- A word is passed by its letters. -/
lemma moves_scanWord (s : Scanner) : s.Moves s.scanWord.scanner :=
  (Moves.here.advance _).emit _ _

/-- An operator is passed by its one or two characters. -/
lemma moves_scanOperator (s : Scanner) : s.Moves s.scanOperator.scanner := by
  rw [scanOperator]
  split
  · exact (Moves.here.advance _).emit _ _
  · exact .here

/-- One round of the scanner, whichever lexeme it meets. -/
lemma moves_scanToken (s : Scanner) : s.Moves s.scanToken.scanner := by
  have hmark := (Moves.here (s := s)).mark
  rw [scanToken]
  dsimp only
  split_ifs
  · exact s.moves_skipLayout
  · exact s.moves_skipComment
  · exact hmark.trans s.mark.moves_scanString
  · exact hmark.trans s.mark.moves_scanNumber
  · exact hmark.trans s.mark.moves_scanWord
  · exact hmark.trans s.mark.moves_scanOperator

/-- One round after another, also where a round is refused. -/
lemma moves_scanWithin (fuel : List Char) (s : Scanner) :
    s.Moves (scanWithin fuel s).scanner := by
  induction fuel generalizing s with
  | nil => exact .here
  | cons c fuel ih =>
      have hround := s.moves_scanToken
      rw [scanWithin]
      dsimp only
      split_ifs
      · exact .here
      · split
        · exact hround.trans (ih _)
        · exact hround

/-- The closing token is put at the end of what was read. -/
lemma moves_close (s : Scanner) : s.Moves (close s.scanAll).scanner := by
  have hall := moves_scanWithin s.ahead s
  rw [close]
  split
  · exact hall.mark.emit _ _
  · exact hall

/-- **A call moves on, marks and emits, and does nothing else.** -/
lemma moves_call (s : Scanner) (c : Call) : s.Moves (s.call c).1 := by
  cases c with
  | peek n => exact .here
  | advance n =>
      cases n with
      | ofNat n => exact Moves.here.advance n
      | negSucc n => exact .here
  | skipLayout => exact s.moves_skipLayout
  | skipComment => exact s.moves_skipComment
  | mark => exact Moves.here.mark
  | emit kind text => exact Moves.here.emit kind text
  | scanToken => exact s.moves_scanToken
  | scanString => exact s.moves_scanString
  | scanNumber => exact s.moves_scanNumber
  | scanWord => exact s.moves_scanWord
  | scanOperator => exact s.moves_scanOperator
  | scanAll => exact s.moves_close

/-! ### Nothing moves back -/

/-- A scanner as it may be later on. -/
structure Later (s t : Scanner) : Prop where
  here : s.here.offset ≤ t.here.offset
  start : s.start.offset ≤ t.start.offset
  /-- the newest token comes first -/
  emitted : s.emitted <:+ t.emitted

/-- A scanner is not behind itself. -/
lemma Later.refl (s : Scanner) : s.Later s := ⟨le_rfl, le_rfl, List.suffix_rfl⟩

/-- What is later than something later is later. -/
lemma Later.trans (hr : s.Later r) (ht : r.Later t) : s.Later t :=
  ⟨hr.here.trans ht.here, hr.start.trans ht.start, hr.emitted.trans ht.emitted⟩

/-- Steps lead on, also where no character is left. -/
lemma later_advance (s : Scanner) (n : Nat) : s.Later (s.advance n) := by
  refine ⟨?_, le_rfl, List.suffix_rfl⟩
  simp only [advance, Place.after_offset]
  exact Nat.le_add_right _ _

/-! ### Places and offsets -/

/-- Places are those of their offsets in `source`, and offsets are in order. -/
structure Placed (source : List Char) (s : Scanner) : Prop where
  ahead : s.ahead = source.drop s.here.offset
  here : s.here.Matches source
  start : s.start.Matches source
  start_le : s.start.offset ≤ s.here.offset
  token : ∀ t ∈ s.emitted, t.start.Matches source
  token_le : ∀ t ∈ s.emitted, t.start.offset ≤ t.stop
  within : ∀ t ∈ s.emitted, t.start.offset ≤ s.start.offset ∧ t.stop ≤ s.here.offset
  increasing : s.emitted.Pairwise fun t u => u.start.offset ≤ t.start.offset ∧ u.stop ≤ t.stop

/-- A new scanner stands at the first character. -/
lemma placed_ofSource (source : List Char) : (ofSource source).Placed source where
  ahead := rfl
  here := Place.matches_origin source
  start := Place.matches_origin source
  start_le := le_rfl
  token := by simp [ofSource]
  token_le := by simp [ofSource]
  within := by simp [ofSource]
  increasing := by simp [ofSource]

/-- The place behind the next character. -/
lemma advance_one_here (s : Scanner) : (s.advance 1).here = s.here.next (s.peek 0) := by
  rw [advance, upcoming, peek]
  cases s.ahead <;> rfl

lemma advance_zero (s : Scanner) : s.advance 0 = s := by
  simp [advance, upcoming, List.rightpad]

/-- The characters that steps will pass are passed one at a time. -/
lemma upcoming_succ (s : Scanner) (n : Nat) :
    s.upcoming (n + 1) = s.upcoming 1 ++ (s.advance 1).upcoming n := by
  simp only [upcoming, advance]
  cases s.ahead with
  | nil => simp [List.rightpad, List.replicate_succ]
  | cons c rest => simp [List.rightpad]

/-- Moving on goes character by character. -/
lemma advance_succ (s : Scanner) (n : Nat) : s.advance (n + 1) = (s.advance 1).advance n := by
  conv => lhs; rw [advance, upcoming_succ, Place.after_append, Nat.add_comm, ← List.drop_drop]
  rfl

/-- One character more, which past the end of the text is the sentinel. -/
lemma Placed.advance_one (hs : s.Placed source) : (s.advance 1).Placed source := by
  have hpeek : s.peek 0 = source[s.here.offset]?.getD '\x00' := by
    rw [peek, hs.ahead, List.getElem?_drop, Nat.add_zero]
  have hoffset : (s.advance 1).here.offset = s.here.offset + 1 := by
    rw [advance_one_here, Place.next_offset]
  refine ⟨?_, ?_, hs.start, ?_, hs.token, hs.token_le, fun t ht => ?_, hs.increasing⟩
  · rw [hoffset, ← List.drop_drop, ← hs.ahead]
    rfl
  · rw [advance_one_here, hpeek]
    exact hs.here.next
  · rw [hoffset]
    exact hs.start_le.trans (Nat.le_succ _)
  · rw [hoffset]
    exact ⟨(hs.within t ht).1, (hs.within t ht).2.trans (Nat.le_succ _)⟩

/-- Every step keeps the place of a scanner, by induction on their number. -/
lemma Placed.advance (hs : s.Placed source) (n : Nat) : (s.advance n).Placed source := by
  induction n generalizing s with
  | zero => rwa [advance_zero]
  | succ n ih =>
      rw [advance_succ]
      exact ih hs.advance_one

/-- A mark is set where the scanner stands. -/
lemma Placed.mark (hs : s.Placed source) : s.mark.Placed source where
  ahead := hs.ahead
  here := hs.here
  start := hs.here
  start_le := le_rfl
  token := hs.token
  token_le := hs.token_le
  within t ht := ⟨(hs.within t ht).1.trans hs.start_le, (hs.within t ht).2⟩
  increasing := hs.increasing

/-- A token that is emitted leaves the scanner where it is. -/
lemma Placed.emit (hs : s.Placed source) (kind : Kind) (text : Option String) :
    (s.emit kind text).Placed source where
  ahead := hs.ahead
  here := hs.here
  start := hs.start
  start_le := hs.start_le
  token := List.forall_mem_cons.mpr ⟨hs.start, hs.token⟩
  token_le := List.forall_mem_cons.mpr ⟨hs.start_le, hs.token_le⟩
  within := List.forall_mem_cons.mpr ⟨⟨le_rfl, le_rfl⟩, hs.within⟩
  increasing := List.pairwise_cons.mpr ⟨hs.within, hs.increasing⟩

/-! ### Steps and runs -/

/-- Moves keep the place of a scanner. -/
lemma Moves.placed (h : s.Moves t) (hs : s.Placed source) : t.Placed source := by
  induction h with
  | here => exact hs
  | advance _ n ih => exact ih.advance n
  | mark _ ih => exact ih.mark
  | emit _ kind text ih => exact ih.emit kind text

/-- A mark moves the start of the token up to the place reached, so that it
matters that the start is never ahead of it. -/
lemma Moves.later (h : s.Moves t) (hs : s.Placed source) : s.Later t := by
  induction h with
  | here => exact .refl s
  | advance _ n ih => exact ih.trans (later_advance _ n)
  | mark h ih => exact ih.trans ⟨le_rfl, (h.placed hs).start_le, List.suffix_rfl⟩
  | emit _ kind text ih => exact ih.trans ⟨le_rfl, le_rfl, List.suffix_cons _ _⟩

/-- The states that calls lead through, the one before the first call included. -/
def states (s : Scanner) (cs : List Call) : List Scanner := s :: (s.calls cs).map Prod.fst

/-- The states of a sequence of calls: the one before it and those behind the first call. -/
lemma states_cons (s : Scanner) (c : Call) (cs : List Call) :
    s.states (c :: cs) = s :: (s.call c).1.states cs := rfl

/-- From a state that is placed, calls lead through such states only, and each is
later than those before it. -/
lemma Placed.states (hs : s.Placed source) (cs : List Call) :
    (∀ t ∈ s.states cs, t.Placed source ∧ s.Later t) ∧ (s.states cs).Pairwise Later := by
  induction cs generalizing s with
  | nil => simpa [Scanner.states, calls] using And.intro hs (Later.refl s)
  | cons c cs ih =>
      have hmoves := s.moves_call c
      obtain ⟨hplaced, hlater⟩ := ih (hmoves.placed hs)
      have hall : ∀ t ∈ (s.call c).1.states cs, t.Placed source ∧ s.Later t := fun t ht =>
        ⟨(hplaced t ht).1, (hmoves.later hs).trans (hplaced t ht).2⟩
      rw [states_cons]
      exact ⟨List.forall_mem_cons.mpr ⟨⟨hs, .refl s⟩, hall⟩,
        List.pairwise_cons.mpr ⟨fun t ht => (hall t ht).2, hlater⟩⟩

/-- **Through calls in any order a scanner keeps its places.** In the state before the
first call and in the state after each one, refused calls and calls past the end of the
text included, line and column are those of the offset, for the place reached, for the
start of the token and for every token emitted; a token ends behind its start and not
past the place reached, and tokens start and end one after another. From state to state
neither offset moves back, and tokens are only added. -/
theorem calls_placed (source : List Char) (cs : List Call) :
    (∀ s ∈ (ofSource source).states cs, s.Placed source) ∧
      ((ofSource source).states cs).Pairwise Later := by
  obtain ⟨hplaced, hlater⟩ := (placed_ofSource source).states cs
  exact ⟨fun s hs => (hplaced s hs).1, hlater⟩

/-- Past the end the offset and the column go on, the line does not. -/
example :
    ((ofSource ['a', '\n']).states [.advance 4, .scanOperator, .mark]).map Scanner.start =
      [⟨0, 1, 1⟩, ⟨0, 1, 1⟩, ⟨0, 1, 1⟩, ⟨4, 2, 3⟩] := by
  rfl

end Scanner

end ArrayExpr
