import DeclStyle.Letter
import DeclStyle.StyleRule.Basic

/-!
# Presets

Named selections of rules: the safe ones, and those together with the risky one.  The case of a
preset's name does not matter, nor do signs `@` in front of it.
-/

namespace DeclStyle

/-- A named selection of rules. -/
inductive Preset where
  /-- The rules that are safe. -/
  | standard
  /-- All rules. -/
  | strict
  deriving DecidableEq, Repr, Inhabited

namespace Preset

/-- The name of a preset. -/
def name : Preset → String
  | standard => "default"
  | strict => "strict"

/-- The preset meant by a text. -/
def ofName? (s : String) : Option Preset :=
  let plain := (s.toList.flatMap Letter.lowercase).dropWhile (· = '@')
  [standard, strict].find? (·.name.toList == plain)

/-- The rules of a preset. -/
def rules : Preset → List StyleRule
  | standard => [.redundantUnsafe, .staticClassMembers, .visibilityRequired, .orderedModifiers]
  | strict =>
    [.redundantUnsafe, .staticClassMembers, .visibilityRequired, .orderedModifiers,
      .orderedClassElements]

/-- The rules of the preset meant by a text; none if no preset is meant. -/
def rulesOfName (s : String) : List StyleRule :=
  match ofName? s with
  | some p => p.rules
  | none => []

end Preset

end DeclStyle
