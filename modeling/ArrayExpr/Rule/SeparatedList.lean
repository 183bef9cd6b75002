/-
Lists with separators.

* `Rule.separatedList`: items with separators between them, maybe none at all,
  maybe one separator more after the last item.

Each item is tried once at its place. An item that is missing after a
separator makes that separator a trailing one.
-/
import ArrayExpr.Rule.Basic

namespace ArrayExpr

/-- What a list allows: a separator after the last item, and no items. -/
structure ListStyle where
  trailing : Bool := true
  empty : Bool := true
deriving DecidableEq, Repr

namespace Rule

/-- An item that may be missing where `may` says so. -/
def itemWhere (may : Bool) (item : Rule α) : Rule (Option α) :=
  if may then attempt item else return some (← item)

/-- A separator and the item after it; nothing where no separator stands. -/
def furtherItem (style : ListStyle) (separator : Kind) (item : Rule α) : Rule (Option α) := do
  if (← current).kind = separator then
    advance
    itemWhere style.trailing item
  else
    return none

/-- Items with separators between them. The list is visited under `name`. -/
def separatedList (name : String) (style : ListStyle) (separator : Kind) (item : Rule α) :
    Rule (List α) := do
  visit name
  match ← itemWhere style.empty item with
  | none => return []
  | some first =>
    let others ← many (furtherItem style separator item)
    return first :: others

end Rule

end ArrayExpr
