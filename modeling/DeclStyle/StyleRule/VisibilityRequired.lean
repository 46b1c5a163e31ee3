import DeclStyle.Edit
import DeclStyle.StyleRule.Basic

/-!
# Declared accessibility

Members of classes and structs have to declare their accessibility; the rule inserts the default
one where none is declared.  Static constructors and partial methods cannot declare one, and that of
destructors and operators is fixed.
-/

namespace DeclStyle.StyleRule

/-- Whether a declaration has to declare its accessibility and does not. -/
def needsAccessibility (d : Declaration) : Bool :=
  d.accessibility?.isNone &&
    match d.kind with
    | .plain .constructor => !d.hasModifier .staticKw
    | .plain .method => !d.hasModifier .partialKw
    | .plain .field | .plain .delegate | .plain .event | .plain .eventField | .plain .property
    | .plain .indexer | .plain .enum | .type _ => true
    | _ => false

/-- Declares the default accessibility of a member of a class or a struct. -/
def fixVisibility (accessibility : Accessibility) : NodeFix := fun d parent =>
  if parent.any (·.kind.isClassOrStruct) && needsAccessibility d then do
    let fixed ← d.insertAccessibility accessibility none
    return some (fixed, "Add '" ++ accessibility.display ++ "' to " ++ d.describe)
  else
    return none

end DeclStyle.StyleRule
