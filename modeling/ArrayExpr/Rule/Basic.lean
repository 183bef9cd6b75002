/-
Rules: functions from a stream of tokens to a value, a failure, or the refusal
of a numeral that is too long, together with the visits paid to named rules.

* `Rule`: the monad; the visits of two steps follow one another, and a step
  that fails ends the run;
* `Rule.visit`: records that a rule was entered;
* `Rule.attempt`: a rule that may be missing;
* `Rule.spanned`: a rule with the span of what it read;
* `Rule.collect`: repeats a step for as long as it asks to go on.
-/
import ArrayExpr.Failure

namespace ArrayExpr

/-- A rule was entered, in front of the token with the given index. -/
structure Visit where
  rule : String
  index : Nat
deriving DecidableEq, Repr

/-- How a rule ended. -/
inductive Outcome (α : Type) where
  /-- a value, and the stream after what was read -/
  | success (value : α) (rest : TokenStream)
  /-- the input was refused -/
  | failure (failure : Failure)
  /-- an integer numeral has more digits than are read -/
  | overlong (digits : Nat)
deriving Repr

/-- The outcome of a rule and the visits on the way. -/
structure Run (α : Type) where
  outcome : Outcome α
  visits : List Visit
deriving Repr

/-- A rule of the grammar. -/
def Rule (α : Type) : Type := TokenStream → Run α

namespace Run

/-- The visits of one step and of the next; nothing is copied where no visit
follows. -/
def joinVisits (first next : List Visit) : List Visit :=
  match next with
  | [] => first
  | _ => first ++ next

@[simp] theorem joinVisits_eq (first next : List Visit) :
    joinVisits first next = first ++ next := by
  cases next <;> simp [joinVisits]

/-- A run with visits before its own. -/
def afterVisits (visits : List Visit) (r : Run α) : Run α :=
  ⟨r.outcome, joinVisits visits r.visits⟩

end Run

namespace Rule

/-- The rule that reads nothing. -/
@[inline] protected def pure (a : α) : Rule α := fun s => ⟨.success a s, []⟩

/-- One rule after another. -/
@[inline] protected def bind (r : Rule α) (f : α → Rule β) : Rule β := fun s =>
  match r s with
  | ⟨.success a rest, visits⟩ => (f a rest).afterVisits visits
  | ⟨.failure e, visits⟩ => ⟨.failure e, visits⟩
  | ⟨.overlong n, visits⟩ => ⟨.overlong n, visits⟩

instance : Monad Rule where
  pure := Rule.pure
  bind := Rule.bind

@[simp] theorem pure_run (a : α) (s : TokenStream) :
    (pure a : Rule α) s = ⟨.success a s, []⟩ := rfl

theorem bind_run (r : Rule α) (f : α → Rule β) (s : TokenStream) :
    (r >>= f) s =
      match r s with
      | ⟨.success a rest, visits⟩ => (f a rest).afterVisits visits
      | ⟨.failure e, visits⟩ => ⟨.failure e, visits⟩
      | ⟨.overlong n, visits⟩ => ⟨.overlong n, visits⟩ := rfl

theorem map_id_run (r : Rule α) (s : TokenStream) : (id <$> r) s = r s := by
  change (r >>= fun a => pure (id a)) s = r s
  rw [bind_run]
  rcases r s with ⟨⟨a, rest⟩ | f | n, visits⟩ <;> simp [Run.afterVisits]

theorem pure_bind_run (a : α) (f : α → Rule β) (s : TokenStream) :
    (pure a >>= f) s = f a s := by
  simp [bind_run, Run.afterVisits]

theorem bind_assoc_run (r : Rule α) (f : α → Rule β) (g : β → Rule γ) (s : TokenStream) :
    (r >>= f >>= g) s = (r >>= fun a => f a >>= g) s := by
  simp only [bind_run]
  rcases r s with ⟨⟨a, rest⟩ | f' | n, visits⟩
  · simp only [Run.afterVisits]
    rcases f a rest with ⟨⟨b, rest'⟩ | f'' | m, visits'⟩ <;> simp [List.append_assoc]
  · rfl
  · rfl

instance : LawfulMonad Rule :=
  LawfulMonad.mk' Rule (fun r => funext (map_id_run r))
    (fun a f => funext (pure_bind_run a f)) (fun r f g => funext (bind_assoc_run r f g))

/-! ### Single steps -/

/-- The stream itself; reads nothing. -/
def stream : Rule TokenStream := fun s => ⟨.success s s, []⟩

/-- The token ahead; reads nothing. -/
def current : Rule Token := fun s => ⟨.success s.current s, []⟩

/-- Reads the token ahead; the closing token stays. -/
def advance : Rule Unit := fun s => ⟨.success () s.advance, []⟩

/-- Fails. -/
def fail (f : TokenStream → Failure) : Rule α := fun s => ⟨.failure (f s), []⟩

/-- Refuses a numeral of too many digits. -/
def overlong (digits : Nat) : Rule α := fun _ => ⟨.overlong digits, []⟩

/-- Records that a rule is entered. -/
def visit (rule : String) : Rule Unit := fun s => ⟨.success () s, [⟨rule, s.index⟩]⟩

/-- Reads one token of the given kind. Where the text ends before the bracket
`opener` was closed, the failure says so. An empty description counts as
none. -/
def token (kind : Kind) (expected : Option String) (opener : Option Token) : Rule Token := fun s =>
  if s.current.kind = kind then ⟨.success s.current s.advance, []⟩
  else
    let what := match expected with
      | some what => if what = "" then kind.describe else what
      | none => kind.describe
    match opener with
    | some opener =>
      if s.atEnd then ⟨.failure (.ofKind .unterminatedBracket s (.closing what opener)), []⟩
      else ⟨.failure (.unexpected s (.named what)), []⟩
    | none => ⟨.failure (.unexpected s (.named what)), []⟩

/-! ### Rules from rules -/

/-- A rule that may be missing: where the input does not start it, nothing is
read. -/
def attempt (r : Rule α) : Rule (Option α) := fun s =>
  match r s with
  | ⟨.success a rest, visits⟩ => ⟨.success (some a) rest, visits⟩
  | ⟨.failure f, visits⟩ =>
    if f.declinesAt s then ⟨.success none s, visits⟩ else ⟨.failure f, visits⟩
  | ⟨.overlong n, visits⟩ => ⟨.overlong n, visits⟩

/-- A rule under a name: where the input does not start it, the name is what
was expected. -/
def called (what : String) (r : Rule α) : Rule α := fun s =>
  match r s with
  | ⟨.failure f, visits⟩ =>
    ⟨.failure (if f.declinesAt s then .unexpected s (.named what) else f), visits⟩
  | run => run

/-- A rule with the span of the tokens it read. -/
def spanned (r : Rule α) : Rule (α × Span) := do
  let start ← stream
  let a ← r
  let stop ← stream
  return (a, stop.spanFrom start)

/-! ### Repetition -/

/-- Repeats a step for at most as many rounds as `fuel` has tokens, and one
more. -/
def collectWithin (step : σ → Rule (Option (β × σ))) : List Token → σ → Rule (List β)
  | fuel, state => do
    match ← step state with
    | none => return []
    | some (b, state) =>
      match fuel with
      | [] => return [b]
      | _ :: fuel =>
        let rest ← collectWithin step fuel state
        return b :: rest

/-- Repeats a step until it gives nothing, and lists what it gave. A step that
goes on must read a token, so that the tokens ahead bound the rounds. -/
def collect (step : σ → Rule (Option (β × σ))) (state : σ) : Rule (List β) := fun s =>
  collectWithin step s.ahead state s

/-- Repeats a step without state. -/
def many (step : Rule (Option β)) : Rule (List β) :=
  collect (fun (_ : Unit) => return (← step).map (·, ())) ()

end Rule

end ArrayExpr
