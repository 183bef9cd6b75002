/-
Counts of calls.

* `Counter`: how often names occurred, in the order in which they occurred first;
* `Stats`: the calls of rules in one parse or several, as the owner of the counts
  sees them; `Stats.hit` counts one call more, `Stats.add` those of a log;
* `Counters`: the counts that are in use at a time, told apart by their numbers. A
  rule is given the number of those that it counts on.
-/
import ArrayExpr.Rule.Basic

namespace ArrayExpr

/-! ### Counters -/

/-- How often names occurred. A name that never occurred is not listed. -/
structure Counter where
  entries : List (String × Nat)
deriving DecidableEq, Repr

namespace Counter

/-- Nothing occurred. -/
def empty : Counter := ⟨[]⟩

/-- Entries with one occurrence more; a new name comes last. -/
def bump (name : String) : List (String × Nat) → List (String × Nat)
  | [] => [(name, 1)]
  | (other, n) :: entries =>
    if other = name then (other, n + 1) :: entries else (other, n) :: bump name entries

/-- One occurrence more. -/
def increment (counter : Counter) (name : String) : Counter := ⟨bump name counter.entries⟩

/-- How often a name occurred. -/
def get (counter : Counter) (name : String) : Nat := (counter.entries.lookup name).getD 0

/-- The rules of a log, counted. -/
def ofVisits (visits : List Visit) : Counter :=
  visits.foldl (fun counter v => counter.increment v.rule) empty

instance : Coe (List Visit) Counter := ⟨ofVisits⟩

end Counter

/-! ### The counts of an owner -/

/-- How often rules were called, in one parse or several. -/
structure Stats where
  calls : Counter
deriving DecidableEq, Repr

namespace Stats

/-- No calls. -/
def empty : Stats := ⟨Counter.empty⟩

/-- One call more. -/
def hit (stats : Stats) (rule : String) : Stats := ⟨stats.calls.increment rule⟩

/-- The calls of what came before and those of a log. -/
def add (stats : Stats) (visits : List Visit) : Stats :=
  visits.foldl (fun stats v => stats.hit v.rule) stats

/-- How often a rule was called. -/
def count (stats : Stats) (rule : String) : Nat := stats.calls.get rule

/-- How many calls there were. -/
def total (stats : Stats) : Nat :=
  stats.calls.entries.foldl (fun n entry => n + entry.2) 0

/-- The rules that were called, with their counts. -/
def counts (stats : Stats) : List (String × Nat) := stats.calls.entries

end Stats

/-! ### The counts in use -/

/-- All counts that are in use, by number. -/
structure Counters where
  all : List Stats
deriving DecidableEq, Repr

namespace Counters

/-- Counts for a new owner, under a number of their own. -/
def new (counters : Counters) : Nat × Counters :=
  (counters.all.length, ⟨counters.all ++ [.empty]⟩)

/-- The counts under a number. -/
def read (counters : Counters) (number : Nat) : Stats := counters.all.getD number .empty

/-- One call more under a number. -/
def hit (counters : Counters) (number : Nat) (rule : String) : Counters :=
  ⟨counters.all.modify number (·.hit rule)⟩

/-- The calls of a log under a number. -/
def add (counters : Counters) (number : Nat) (visits : List Visit) : Counters :=
  visits.foldl (fun counters v => counters.hit number v.rule) counters

end Counters

end ArrayExpr
