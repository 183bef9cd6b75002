/-
The nesting limit as a setting.

* `DepthSetting.limit`: the limit that a setting gives, fifty where there is
  none;
* `DepthError.message`: what is wrong with a setting.
-/
import ArrayExpr.Number.Setting
import ArrayExpr.Text.Quoted

namespace ArrayExpr

/-- Why a setting gives no limit. -/
inductive DepthError where
  | notAnInteger (text : String)
  | notPositive (value : Int)
deriving DecidableEq, Repr

namespace DepthSetting

/-- The name of the variable that holds the setting. -/
def variableName : String := "MATEXPR_MAX_DEPTH"

/-- The limit where nothing is set. -/
def standard : Int := 50

/-- The limit that a setting gives. -/
def limit : Option String → Except DepthError Int
  | none => .ok standard
  | some text =>
    match readInteger text.toList with
    | none => .error (.notAnInteger text)
    | some value => if value < 1 then .error (.notPositive value) else .ok value

end DepthSetting

/-- The wording of what is wrong with a setting. -/
def DepthError.message : DepthError → String
  | notAnInteger text => s!"{DepthSetting.variableName} must be an integer, got {quoted text}"
  | notPositive value => s!"{DepthSetting.variableName} must be positive, got {value}"

end ArrayExpr
