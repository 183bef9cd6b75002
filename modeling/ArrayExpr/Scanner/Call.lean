/-
Calls on a scanner, in any order.

* `Scanner.Call`: one step of a scanner driven from outside;
* `Scanner.Answer`: what a step gives back;
* `Scanner.call`: the scanner after a step, with its answer.

Steps may be taken where `scanToken` would not take them, and past the end of
the text; a refused step leaves the scanner where it stopped.
-/
import ArrayExpr.Scanner.Basic

namespace ArrayExpr

namespace Scanner

/-- One step of a scanner. -/
inductive Call where
  | peek (n : Nat)
  | advance (n : Int)
  | skipLayout
  | skipComment
  | mark
  | emit (kind : Kind) (text : Option String)
  | scanToken
  | scanString
  | scanNumber
  | scanWord
  | scanOperator
  | scanAll
deriving Repr

/-- What a step gives back. -/
inductive Answer where
  | done
  | text (text : String)
  | flag (flag : Bool)
  | refused (error : ScanError)
  | negative (n : Int)
deriving Repr

/-- The wording for a negative number of characters. -/
def negativeMessage (n : Int) : String := s!"advance() requires n >= 0, got {n}"

/-- The answer of a scan. -/
def answerOf (r : Scanned) : Scanner × Answer :=
  (r.scanner, match r.refused with
    | none => .done
    | some e => .refused e)

/-- Adds the closing token, if the end of the text was reached. -/
def close (r : Scanned) : Scanned :=
  match r.refused with
  | none => (r.scanner.mark.emit .finish none).accepted
  | some _ => r

/-- Takes one step. -/
def call (s : Scanner) : Call → Scanner × Answer
  | .peek n => (s, .text (String.singleton (s.peek n)))
  | .advance (.ofNat n) => (s.advance n, .text (String.ofList (s.upcoming n)))
  | .advance (.negSucc n) => (s, .negative (.negSucc n))
  | .skipLayout => (s.skipLayout, .flag s.atLayout)
  | .skipComment => (s.skipComment, .done)
  | .mark => (s.mark, .done)
  | .emit kind text => (s.emit kind text, .done)
  | .scanToken => answerOf s.scanToken
  | .scanString => answerOf s.scanString
  | .scanNumber => answerOf s.scanNumber
  | .scanWord => answerOf s.scanWord
  | .scanOperator => answerOf s.scanOperator
  | .scanAll => answerOf (close s.scanAll)

/-- Takes steps one after another. -/
def calls (s : Scanner) : List Call → List (Scanner × Answer)
  | [] => []
  | c :: cs =>
    let r := s.call c
    r :: calls r.1 cs

end Scanner

end ArrayExpr
