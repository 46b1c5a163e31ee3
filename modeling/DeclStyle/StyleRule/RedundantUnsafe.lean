import DeclStyle.Edit
import DeclStyle.StyleRule.Basic

/-!
# Redundant `unsafe`

A member of an unsafe type is unsafe without saying so; the rule drops its `unsafe`.
-/

namespace DeclStyle.StyleRule

/-- Whether a declaration is a type that makes its members unsafe. -/
def isUnsafeType (d : Declaration) : Bool := d.kind.isType && d.hasModifier .unsafeKw

/-- Drops the first `unsafe` of a member of an unsafe type. -/
def fixRedundantUnsafe : NodeFix := fun d parent =>
  if parent.any isUnsafeType && d.hasModifier .unsafeKw then do
    let fixed ← d.removeKind .unsafeKw
    return some (fixed, "Remove redundant 'unsafe' from " ++ d.describe)
  else
    return none

end DeclStyle.StyleRule
