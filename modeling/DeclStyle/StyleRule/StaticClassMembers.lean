import DeclStyle.Edit
import DeclStyle.StyleRule.Basic

/-!
# Members of static classes

Every member of a static class has to be static; the rule inserts `static` where it is missing.
Constant fields are static without saying so.  Nested types and operators are left alone.
-/

namespace DeclStyle.StyleRule

/-- Whether a declaration is a static class. -/
def isStaticClass (d : Declaration) : Bool :=
  d.kind == .type .classType && d.hasModifier .staticKw

/-- Whether a member of a static class has to say that it is static. -/
def canBeStatic (d : Declaration) : Bool :=
  match d.kind with
  | .plain .field => !d.isConstField
  | .plain .constructor | .plain .event | .plain .eventField | .plain .property
  | .plain .method => true
  | _ => false

/-- Makes a member of a static class static. -/
def fixStaticClassMember : NodeFix := fun d parent =>
  if parent.any isStaticClass && canBeStatic d && !d.hasModifier .staticKw then do
    let fixed ← d.insertKind .staticKw none
    return some (fixed, "Make " ++ d.describe ++ " static")
  else
    return none

end DeclStyle.StyleRule
