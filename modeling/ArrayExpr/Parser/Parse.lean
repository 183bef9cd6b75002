/-
Parsing a source.

* `Verdict`: a value, an error, or the refusal of an overlong integer;
* `parseTokens`: the first expression of a source and the stream after it;
* `parse`: the expression and where it ends; what follows is left alone;
* `parseSource`: the expression, and an error if anything follows;
* `Session.call`: a parse with its calls counted; `Session.run`: several sources
  that share their counts; `Session.fresh`: a source with counts of its own;
* `parseNotes`: the notes a parse leaves for those who follow it.
-/
import ArrayExpr.Parser.Expression
import ArrayExpr.Parser.Counting

namespace ArrayExpr

/-- How the parse of a source ends. -/
inductive Verdict (α : Type) where
  | accepted (value : α)
  | rejected (error : ParseError)
  | overlong (digits : Nat)
deriving Repr

/-- A verdict with the accepted value replaced. -/
def Verdict.map (f : α → β) : Verdict α → Verdict β
  | accepted a => accepted (f a)
  | rejected e => rejected e
  | overlong n => overlong n

/-- The verdict on a source, and the visits paid on the way. -/
structure Report (α : Type) where
  verdict : Verdict α
  visits : List Visit
deriving Repr

/-- A report with the accepted value replaced. -/
def Report.map (f : α → β) (r : Report α) : Report β := ⟨r.verdict.map f, r.visits⟩

/-- The report of a run over the tokens of a source. -/
def Report.ofRun (source : List Char) (run : Run α) : Report (α × TokenStream) :=
  match run.outcome with
  | .success a rest => ⟨.accepted (a, rest), run.visits⟩
  | .failure f => ⟨.rejected (.ofFailure f source), run.visits⟩
  | .overlong n => ⟨.overlong n, run.visits⟩

/-! ### Parsing -/

/-- The rule for a whole expression under a nesting limit. -/
def Parser.root (limit : Int) : Rule Expr := Parser.expr limit limit.toNat

/-- The first expression of a source and the stream after it. -/
def parseTokens (limit : Int) (source : String) : Report (Expr × TokenStream) :=
  match tokenize source with
  | .error e => ⟨.rejected (.ofScanError e source.toList), []⟩
  | .ok tokens => .ofRun source.toList (Parser.root limit (.ofTokens tokens))

/-- An expression and the offset after its last token. -/
structure Parsed where
  tree : Expr
  consumed : Nat
deriving Repr

/-- The first expression of a source. What follows it is left alone. -/
def parse (limit : Int) (source : String) : Report Parsed :=
  (parseTokens limit source).map fun (tree, rest) => ⟨tree, rest.consumedEnd⟩

/-- The first token of a source that no expression could take. -/
def trailingError (rest : TokenStream) (source : List Char) : ParseError :=
  .ofFailure (.ofKind .trailingInput rest (.named "end of input")) source

/-- The expression that a source writes. Unless `allowPartial` is set, nothing
may follow it. -/
def parseSource (limit : Int) (allowPartial : Bool) (source : String) : Verdict Expr :=
  match (parseTokens limit source).verdict with
  | .accepted (tree, rest) =>
    if allowPartial || rest.atEnd then .accepted tree
    else .rejected (trailingError rest source.toList)
  | .rejected e => .rejected e
  | .overlong n => .overlong n

/-! ### Sessions -/

namespace Session

/-- One parse that counts its calls under a number. A source that has no tokens
leaves all counts as they are. -/
def call (limit : Int) (number : Nat) (source : String) (counters : Counters) :
    Verdict Parsed × Counters :=
  match tokenize source with
  | .error e => (.rejected (.ofScanError e source.toList), counters)
  | .ok tokens =>
    match Parser.Counting.expr ⟨limit, 0, number⟩ (.ofTokens tokens) counters with
    | (.success tree rest, counters) => (.accepted ⟨tree, rest.consumedEnd⟩, counters)
    | (.failure f, counters) => (.rejected (.ofFailure f source.toList), counters)
    | (.overlong n, counters) => (.overlong n, counters)

/-- Parses sources one after another, and counts all calls under one number. Each
verdict comes with all counts up to then. -/
def runOn (limit : Int) (number : Nat) (counters : Counters) :
    List String → List (Verdict Parsed × Counters)
  | [] => []
  | source :: sources =>
    let step := call limit number source counters
    step :: runOn limit number step.2 sources

/-- Parses sources one after another. Each verdict comes with the counts of all calls
up to then. -/
def run (limit : Int) (stats : Stats) (sources : List String) : List (Verdict Parsed × Stats) :=
  (runOn limit 0 ⟨[stats]⟩ sources).map fun step => (step.1, step.2.read 0)

/-- One parse with counts of its own, beside those that are in use. -/
def fresh (limit : Int) (counters : Counters) (source : String) : Verdict Parsed × Stats :=
  let (number, counters) := counters.new
  let (verdict, counters) := call limit number source counters
  (verdict, counters.read number)

/-- The counts after the last source of a session. -/
def finalStats (steps : List (Verdict Parsed × Stats)) : Stats :=
  match steps.getLast? with
  | some step => step.2
  | none => .empty

end Session

/-! ### Notes -/

/-- The note on a source that has no tokens. -/
def scanNote (e : ScanError) : String :=
  s!"lex error at offset {e.place.offset}: {e.problem.message}"

/-- The note before a parse; the closing token is counted. -/
def startNote (limit : Int) (tokens : Tokens) : String :=
  s!"parsing {tokens.items.length + 1} tokens (max depth {limit})"

/-- The note after a parse that failed. -/
def failureNote (e : ParseError) : String :=
  s!"parse failed: {e.kind.text} at offset {e.offset}"

/-- The note after a parse that went well. -/
def successNote (parsed : Parsed) (source : String) (visits : List Visit) : String :=
  s!"parsed {parsed.consumed} of {source.length} chars in {visits.length} rule calls"

/-- The notes of one parse. An overlong integer ends it without a last note. -/
def parseNotes (limit : Int) (source : String) : Verdict (List String) :=
  match tokenize source with
  | .error e => .accepted [scanNote e]
  | .ok tokens =>
    let report := parse limit source
    match report.verdict with
    | .accepted parsed =>
      .accepted [startNote limit tokens, successNote parsed source report.visits]
    | .rejected e => .accepted [startNote limit tokens, failureNote e]
    | .overlong n => .overlong n

end ArrayExpr
