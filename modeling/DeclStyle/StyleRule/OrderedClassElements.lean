import DeclStyle.StyleRule.Basic

/-!
# Members in canonical order

The rule sorts the members of every class, struct and interface.  Namespaces keep theirs as they
are.
-/

namespace DeclStyle.StyleRule

/-- Sorts the members of a type that are out of order. -/
def fixMemberOrder (order : MemberOrder) : NodeFix := fun d _ =>
  if d.kind.isType && !Comparer.inOrder order.compare d.members then
    .ok <| some
      (d.withMembers (Comparer.stableSort order.compare d.members),
        "Reorder members of " ++ d.describe)
  else
    .ok none

end DeclStyle.StyleRule
