/-
The command line.

* `CommandLine.input`: where the source is read from;
* `CommandLine.newlines`: a text with every line end as a newline;
* `CommandLine.dump`: the outline of a source as text, or an error text with
  exit status one;
* `CommandLine.run`: a whole run, given the texts it may read.

A run without a source, without a nesting limit, or with an integer literal too
long to read ends in a fault instead.
-/
import ArrayExpr.Expr.Outline
import ArrayExpr.Parser.DepthSetting
import ArrayExpr.Parser.Parse

namespace ArrayExpr

namespace CommandLine

/-- Where a source is read from. -/
inductive Input where
  | standard
  | file (name : String)
deriving DecidableEq, Repr

/-- Whether an argument is an option. -/
def isOption (arg : String) : Bool := ['-', '-'].isPrefixOf arg.toList

/-- The input that arguments choose: the first one that is no option names a
file, and a hyphen stands for standard input. -/
def input (args : List String) : Input :=
  match args.filter fun arg => !isOption arg with
  | [] => .standard
  | name :: _ => if name = "-" then .standard else .file name

/-- A text with each line end, a carriage return or one with a newline after
it, as a newline. -/
def newlines : List Char → List Char
  | [] => []
  | '\r' :: '\n' :: rest => '\n' :: newlines rest
  | c :: rest => (if c = '\r' then '\n' else c) :: newlines rest

/-- What a run prints, and its exit status. -/
structure Result where
  status : Nat
  output : String
  errors : String
deriving DecidableEq, Repr

/-- Why a run has no result. -/
inductive Fault where
  | missingFile (name : String)
  | badSetting (error : DepthError)
  | overlong (digits : Nat)
deriving DecidableEq, Repr

/-- The wording of a fault. -/
def Fault.message : Fault → String
  | missingFile name => s!"[Errno 2] No such file or directory: {quoted name}"
  | badSetting error => error.message
  | overlong digits => Literal.overlongMessage digits

/-- The outline under a root, line by line. -/
def listing (e : Expr) : String := (Outline.branch "expr" [e.outline]).pretty

/-- Parses a text under a setting and prints the outcome. -/
def dump (setting : Option String) (text : String) : Except Fault Result :=
  match DepthSetting.limit setting with
  | .error e => .error (.badSetting e)
  | .ok limit =>
    match parseSource limit false (String.ofList (newlines text.toList)) with
    | .accepted e => .ok ⟨0, listing e, ""⟩
    | .rejected e => .ok ⟨1, "", s!"Parse error: {e.message}\n"⟩
    | .overlong n => .error (.overlong n)

/-- The text of an input, given standard input and the files there are. -/
def textOf (standard : String) (file? : String → Option String) : Input → Except Fault String
  | .standard => .ok standard
  | .file name =>
    match file? name with
    | some text => .ok text
    | none => .error (.missingFile name)

/-- A run with arguments. The source is read before the setting is looked
at. -/
def run (setting : Option String) (standard : String) (file? : String → Option String)
    (args : List String) : Except Fault Result :=
  match textOf standard file? (input args) with
  | .ok text => dump setting text
  | .error fault => .error fault

end CommandLine

end ArrayExpr
