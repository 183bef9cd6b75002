/-
The reference parser: a machine that takes tokens one at a time.

* `Reference.Pending`: the operators of the expression being read whose right
  side is still open;
* `Reference.Bracket`: a bracket that is open, with what stood before it;
* `Reference.State`: an operand is wanted, an operand is in hand, or a field
  name is wanted;
* `Reference.step`: the state after a token, none if no sentence goes on with
  it;
* `Reference.parse`: the outline of a whole text, or what stands in its way.

The machine has no limit on nesting and takes any operand as a target. It
builds calls, indices and fields in canonical form as it goes.
-/
import ArrayExpr.Reference.Canonical
import ArrayExpr.Reference.Terminal

namespace ArrayExpr

namespace Reference

/-- The leaf of a token. -/
def leaf (t : Token) : Outline := .leaf t.kind.label (t.text.getD "")

/-! ### Operators that wait for their right side -/

/-- What stands before the operand that is being read, since the last bracket
or separator. -/
structure Pending where
  /-- the targets of assignments, the last one first -/
  targets : List Outline
  /-- the operands and operators of a comparison, the last one first -/
  chain : List Outline
  /-- the left side of a sum and its operator -/
  sum : Option (Outline × Outline)
  /-- the left side of a product and its operator -/
  product : Option (Outline × Outline)
  /-- how many minus signs -/
  signs : Nat
deriving Repr

namespace Pending

/-- Nothing stands before the operand. -/
def nothing : Pending := ⟨[], [], none, none, 0⟩

/-- Whether nothing stands before the operand. -/
def isNothing (p : Pending) : Bool :=
  p.targets.isEmpty && p.chain.isEmpty && p.sum.isNone && p.product.isNone && p.signs = 0

/-- An operator with both sides, or the right side alone. -/
def combine (left : Option (Outline × Outline)) (right : Outline) : Outline :=
  match left with
  | some (left, op) => .branch "binop" [left, op, right]
  | none => right

/-- An operand under minus signs. -/
def negated (operand : Outline) : Nat → Outline
  | 0 => operand
  | n + 1 => .branch "neg" [negated operand n]

/-- The product that ends with an operand. -/
def factor (p : Pending) (operand : Outline) : Outline :=
  combine p.product (negated operand p.signs)

/-- The sum that ends with an operand. -/
def term (p : Pending) (operand : Outline) : Outline := combine p.sum (p.factor operand)

/-- The comparison that ends with an operand. -/
def compared (p : Pending) (operand : Outline) : Outline :=
  if p.chain.isEmpty then p.term operand
  else .branch "comparison" (p.term operand :: p.chain).reverse

/-- The assignment that ends with an operand. -/
def whole (p : Pending) (operand : Outline) : Outline :=
  p.targets.foldl (fun value target => .branch "assign" [target, value]) (p.compared operand)

/-- What is pending after a factor and an operator of a product. -/
def afterFactor (p : Pending) (operand op : Outline) : Pending :=
  { p with product := some (p.factor operand, op), signs := 0 }

/-- What is pending after a term and an operator of a sum. -/
def afterTerm (p : Pending) (operand op : Outline) : Pending :=
  { p with sum := some (p.term operand, op), product := none, signs := 0 }

/-- What is pending after an operand of a comparison and its operator. -/
def afterComparand (p : Pending) (operand op : Outline) : Pending :=
  { nothing with targets := p.targets, chain := op :: p.term operand :: p.chain }

/-- What is pending after a target and its `=`. -/
def afterTarget (p : Pending) (operand : Outline) : Pending :=
  { nothing with targets := p.compared operand :: p.targets }

end Pending

/-! ### Brackets -/

/-- An open bracket. Each keeps what was pending before it; lists are kept
with the last item first. -/
inductive Bracket where
  | group (outer : Pending)
  | args (outer : Pending) (callee : Outline) (items : List Outline)
  | subscripts (outer : Pending) (base : Outline) (items : List Outline)
  | array (outer : Pending) (rows : List Outline) (items : List Outline)
deriving Repr

/-- A call. -/
def callOutline (callee : Outline) (items : List Outline) : Outline :=
  reshape "call" (callee :: items.reverse)

/-- An operand with subscripts. -/
def indexOutline (base : Outline) (items : List Outline) : Outline :=
  reshape "index" (base :: items.reverse)

/-- An operand with a field. -/
def fieldOutline (base name : Outline) : Outline := reshape "field" [base, name]

/-- The rows of an array with the row that is being read, unless that is
empty. -/
def closeRow (rows items : List Outline) : List Outline :=
  if items.isEmpty then rows else .branch "row" items.reverse :: rows

/-- An array. -/
def arrayOutline (rows items : List Outline) : Outline :=
  .branch "array" (closeRow rows items).reverse

/-! ### The machine -/

/-- What the machine has read. -/
inductive State where
  /-- an operand is wanted -/
  | want (pending : Pending) (brackets : List Bracket)
  /-- an operand is in hand, with its suffixes so far -/
  | hold (operand : Outline) (pending : Pending) (brackets : List Bracket)
  /-- the name of a field is wanted -/
  | field (operand : Outline) (pending : Pending) (brackets : List Bracket)
deriving Repr

/-- The machine before the first token. -/
def State.start : State := .want .nothing []

/-- A bracket that ends where an item is wanted: nothing was put in, or the
last separator is a trailing one. -/
def endEmpty (kind : Kind) : List Bracket → Option State
  | .args outer callee items :: rest =>
    if kind = .closeParen then some (.hold (callOutline callee items) outer rest) else none
  | .subscripts outer base items :: rest =>
    if kind = .closeBracket && !items.isEmpty then
      some (.hold (indexOutline base items) outer rest)
    else none
  | .array outer rows items :: rest =>
    if kind = .closeBracket then some (.hold (arrayOutline rows items) outer rest)
    else if kind = .semicolon && !items.isEmpty then
      some (.want .nothing (.array outer (closeRow rows items) [] :: rest))
    else none
  | .group _ :: _ | [] => none

/-- A bracket or separator after an item. -/
def endItem (kind : Kind) (item : Outline) : List Bracket → Option State
  | .group outer :: rest =>
    if kind = .closeParen then some (.hold (.branch "group" [item]) outer rest) else none
  | .args outer callee items :: rest =>
    if kind = .closeParen then some (.hold (callOutline callee (item :: items)) outer rest)
    else if kind = .comma then some (.want .nothing (.args outer callee (item :: items) :: rest))
    else none
  | .subscripts outer base items :: rest =>
    if kind = .closeBracket then some (.hold (indexOutline base (item :: items)) outer rest)
    else if kind = .comma then
      some (.want .nothing (.subscripts outer base (item :: items) :: rest))
    else none
  | .array outer rows items :: rest =>
    if kind = .closeBracket then some (.hold (arrayOutline rows (item :: items)) outer rest)
    else if kind = .comma then some (.want .nothing (.array outer rows (item :: items) :: rest))
    else if kind = .semicolon then
      some (.want .nothing (.array outer (closeRow rows (item :: items)) [] :: rest))
    else none
  | [] => none

/-- A token where an operand is wanted. -/
def stepWant (t : Token) (p : Pending) (brackets : List Bracket) : Option State :=
  match t.kind with
  | .literal _ | .name => some (.hold (leaf t) p brackets)
  | .arith .minus => some (.want { p with signs := p.signs + 1 } brackets)
  | .openParen => some (.want .nothing (.group p :: brackets))
  | .openBracket => some (.want .nothing (.array p [] [] :: brackets))
  | kind => if p.isNothing then endEmpty kind brackets else none

/-- A token after an operand. -/
def stepHold (t : Token) (x : Outline) (p : Pending) (brackets : List Bracket) : Option State :=
  match t.kind with
  | .openParen => some (.want .nothing (.args p x [] :: brackets))
  | .openBracket => some (.want .nothing (.subscripts p x [] :: brackets))
  | .dot => some (.field x p brackets)
  | .arith .times | .arith .divide => some (.want (p.afterFactor x (leaf t)) brackets)
  | .arith _ => some (.want (p.afterTerm x (leaf t)) brackets)
  | .compare _ => some (.want (p.afterComparand x (leaf t)) brackets)
  | .assign => some (.want (p.afterTarget x) brackets)
  | kind => endItem kind (p.whole x) brackets

/-- The state after a token, none if no sentence goes on with it. -/
def step : State → Token → Option State
  | .want p brackets, t => stepWant t p brackets
  | .hold x p brackets, t => stepHold t x p brackets
  | .field x p brackets, t =>
    if t.kind = .name then
      some (.hold (fieldOutline x (leaf t)) p brackets)
    else none

/-- The sentence that has been read, if it may end here. -/
def State.sentence? : State → Option Outline
  | .hold x p [] => some (p.whole x)
  | _ => none

/-! ### Whole texts -/

/-- The outline of a text, or the first thing that stands in its way. -/
inductive Verdict where
  | outline (outline : Outline)
  | unexpectedCharacter (place : Place)
  | unexpectedToken (token : Token)
  | unexpectedEnd
deriving Repr

/-- Takes tokens one after another. The first one that is refused is the
verdict; after the last one the text must end, and end a sentence. -/
def run (stuck : Option Place) : State → List Token → Verdict
  | state, [] =>
    match stuck with
    | some place => .unexpectedCharacter place
    | none =>
      match state.sentence? with
      | some outline => .outline outline
      | none => .unexpectedEnd
  | state, t :: rest =>
    match step state t with
    | some state => run stuck state rest
    | none => .unexpectedToken t

/-- Parses a text. -/
def parse (source : String) : Verdict :=
  let reading := read source.toList
  run reading.stuck .start reading.tokens

end Reference

end ArrayExpr
