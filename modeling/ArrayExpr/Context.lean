/-
Contexts: what a rule is told besides the tokens.

* `Context`: the nesting limit, how many brackets are open, and the number of the
  counts that calls are added to;
* `Context.deeper`: the context inside one bracket more; it counts on the same counts;
* `Context.Inner`: the contexts that have less room left.
-/
import ArrayExpr.Stats

namespace ArrayExpr

/-- What a rule is told besides the tokens. -/
structure Context where
  /-- how many brackets may be open at once -/
  limit : Int
  /-- how many are open -/
  depth : Int
  /-- the number of the counts that calls are added to -/
  counter : Nat
deriving DecidableEq, Repr

namespace Context

/-- How many brackets more may be opened. -/
def room (ctx : Context) : Nat := (ctx.limit - ctx.depth).toNat

/-- The context inside one bracket more. -/
def deeper (ctx : Context) : Context := { ctx with depth := ctx.depth + 1 }

/-- A context that has less room than another. -/
def Inner (ctx : Context) : Type := { inner : Context // inner.room < ctx.room }

theorem room_deeper (ctx : Context) (h : ctx.depth < ctx.limit) :
    ctx.deeper.room < ctx.room := by
  simp only [room, deeper]
  omega

end Context

end ArrayExpr
