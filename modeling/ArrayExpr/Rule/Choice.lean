/-
Ordered choice.

* `Rule.choice`: the first alternative that succeeds; a failure that leaves no
  room for another rule ends the choice; when all fail, the failure furthest
  into the input is kept, of several at one offset the first.
-/
import ArrayExpr.Rule.Basic

namespace ArrayExpr

namespace Rule

/-- An alternative under its name, which its failures carry. -/
def alternative (name : String) (r : Rule α) : Rule α := fun s =>
  match r s with
  | ⟨.failure f, visits⟩ => ⟨.failure (f.inAlternative name), visits⟩
  | run => run

/-- Ordered choice between named rules, of which there is at least one. -/
def choice (first : String × Rule α) : List (String × Rule α) → Rule α
  | [] => alternative first.1 first.2
  | next :: others => fun s =>
    match alternative first.1 first.2 s with
    | ⟨.failure f, visits⟩ =>
      if f.isRecoverable then
        (match choice next others s with
        | ⟨.failure g, more⟩ =>
          ⟨.failure (if g.isRecoverable then f.furthest g else g), more⟩
        | run => run : Run α).afterVisits visits
      else ⟨.failure f, visits⟩
    | run => run

end Rule

end ArrayExpr
