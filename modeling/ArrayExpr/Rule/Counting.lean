/-
Rules that count their calls.

* `CountingRule`: a rule that is run on all counts in use and may change them;
* `CountingRule.hit`: counts a call where the context says;
* `CountingRule.attempt`, `choice`, `collect`, `separatedList` and the others: the
  ways to make rules from rules. Each part goes on with the counts as the part before
  it left them, and nothing is taken back where a rule fails.
-/
import ArrayExpr.Context
import ArrayExpr.Rule.SeparatedList

namespace ArrayExpr

/-- A rule that counts its calls: how it ends, and the counts afterwards. -/
def CountingRule (α : Type) : Type := TokenStream → Counters → Outcome α × Counters

namespace CountingRule

/-- The rule that reads nothing. -/
@[inline] protected def pure (a : α) : CountingRule α := fun s counters =>
  (.success a s, counters)

/-- One rule after another. -/
@[inline] protected def bind (r : CountingRule α) (f : α → CountingRule β) : CountingRule β :=
  fun s counters =>
    match r s counters with
    | (.success a rest, counters) => f a rest counters
    | (.failure e, counters) => (.failure e, counters)
    | (.overlong n, counters) => (.overlong n, counters)

instance : Monad CountingRule where
  pure := CountingRule.pure
  bind := CountingRule.bind

theorem bind_run (r : CountingRule α) (f : α → CountingRule β) (s : TokenStream)
    (counters : Counters) :
    (r >>= f) s counters =
      match r s counters with
      | (.success a rest, counters) => f a rest counters
      | (.failure e, counters) => (.failure e, counters)
      | (.overlong n, counters) => (.overlong n, counters) := rfl

/-! ### Single steps -/

/-- The stream itself; reads nothing. -/
def stream : CountingRule TokenStream := fun s counters => (.success s s, counters)

/-- The token ahead; reads nothing. -/
def current : CountingRule Token := fun s counters => (.success s.current s, counters)

/-- Reads the token ahead; the closing token stays. -/
def advance : CountingRule Unit := fun s counters => (.success () s.advance, counters)

/-- Fails. -/
def fail (f : TokenStream → Failure) : CountingRule α := fun s counters =>
  (.failure (f s), counters)

/-- Refuses a numeral of too many digits. -/
def overlong (digits : Nat) : CountingRule α := fun _ counters => (.overlong digits, counters)

/-- Counts a call of a rule. -/
def hit (ctx : Context) (rule : String) : CountingRule Unit := fun s counters =>
  (.success () s, counters.hit ctx.counter rule)

/-- Reads one token of the given kind; its failures are those of `Rule.token`. -/
def token (kind : Kind) (expected : Option String) (opener : Option Token) :
    CountingRule Token := fun s counters =>
  if s.current.kind = kind then (.success s.current s.advance, counters)
  else
    let what := match expected with
      | some what => if what = "" then kind.describe else what
      | none => kind.describe
    match opener with
    | some opener =>
      if s.atEnd then (.failure (.ofKind .unterminatedBracket s (.closing what opener)), counters)
      else (.failure (.unexpected s (.named what)), counters)
    | none => (.failure (.unexpected s (.named what)), counters)

/-- Enters a bracket whose opening token has just been read. The context inside is a
new one, and counts where the one outside counts. -/
def descend (ctx : Context) : CountingRule ctx.Inner := fun s counters =>
  if h : ctx.depth < ctx.limit then (.success ⟨ctx.deeper, ctx.room_deeper h⟩ s, counters)
  else (.failure (.ofKind .nestingTooDeep s (.nesting ctx.limit)), counters)

/-! ### Rules from rules -/

/-- A rule that may be missing: where the input does not start it, nothing is
read. -/
def attempt (r : CountingRule α) : CountingRule (Option α) := fun s counters =>
  match r s counters with
  | (.success a rest, counters) => (.success (some a) rest, counters)
  | (.failure f, counters) =>
    if f.declinesAt s then (.success none s, counters) else (.failure f, counters)
  | (.overlong n, counters) => (.overlong n, counters)

/-- A rule under a name: where the input does not start it, the name is what
was expected. -/
def called (what : String) (r : CountingRule α) : CountingRule α := fun s counters =>
  match r s counters with
  | (.failure f, counters) =>
    (.failure (if f.declinesAt s then .unexpected s (.named what) else f), counters)
  | result => result

/-- A rule with the span of the tokens it read. -/
def spanned (r : CountingRule α) : CountingRule (α × Span) := do
  let start ← stream
  let a ← r
  let stop ← stream
  return (a, stop.spanFrom start)

/-- An alternative under its name, which its failures carry. -/
def alternative (name : String) (r : CountingRule α) : CountingRule α := fun s counters =>
  match r s counters with
  | (.failure f, counters) => (.failure (f.inAlternative name), counters)
  | result => result

/-- Ordered choice between named rules, of which there is at least one. -/
def choice (first : String × CountingRule α) : List (String × CountingRule α) → CountingRule α
  | [] => alternative first.1 first.2
  | next :: others => fun s counters =>
    match alternative first.1 first.2 s counters with
    | (.failure f, counters) =>
      if f.isRecoverable then
        match choice next others s counters with
        | (.failure g, counters) =>
          (.failure (if g.isRecoverable then f.furthest g else g), counters)
        | result => result
      else (.failure f, counters)
    | result => result

/-! ### Repetition -/

/-- Repeats a step for at most as many rounds as `fuel` has tokens, and one
more. -/
def collectWithin (step : σ → CountingRule (Option (β × σ))) :
    List Token → σ → CountingRule (List β)
  | fuel, state => do
    match ← step state with
    | none => return []
    | some (b, state) =>
      match fuel with
      | [] => return [b]
      | _ :: fuel =>
        let rest ← collectWithin step fuel state
        return b :: rest

/-- Repeats a step until it gives nothing, and lists what it gave. -/
def collect (step : σ → CountingRule (Option (β × σ))) (state : σ) : CountingRule (List β) :=
  fun s => collectWithin step s.ahead state s

/-- Repeats a step without state. -/
def many (step : CountingRule (Option β)) : CountingRule (List β) :=
  collect (fun (_ : Unit) => return (← step).map (·, ())) ()

/-! ### Lists and brackets -/

/-- An item that may be missing where `may` says so. -/
def itemWhere (may : Bool) (item : CountingRule α) : CountingRule (Option α) :=
  if may then attempt item else return some (← item)

/-- A separator and the item after it; nothing where no separator stands. -/
def furtherItem (style : ListStyle) (separator : Kind) (item : CountingRule α) :
    CountingRule (Option α) := do
  if (← current).kind = separator then
    advance
    itemWhere style.trailing item
  else
    return none

/-- Items with separators between them. The list counts a call under `name`. -/
def separatedList (ctx : Context) (name : String) (style : ListStyle) (separator : Kind)
    (item : CountingRule α) : CountingRule (List α) := do
  hit ctx name
  match ← itemWhere style.empty item with
  | none => return []
  | some first =>
    let others ← many (furtherItem style separator item)
    return first :: others

/-- A bracket with what stands inside it, and the span of the whole. -/
def bracketed (ctx : Context) (opening closing : Kind) (inside : ctx.Inner → CountingRule α) :
    CountingRule (α × Span) :=
  spanned do
    let opener ← token opening none none
    let inner ← descend ctx
    let a ← inside inner
    let _ ← token closing none (some opener)
    return a

end CountingRule

end ArrayExpr
