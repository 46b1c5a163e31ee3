import DeclStyle.Order.Modifiers
import DeclStyle.StyleRule.Basic

/-!
# Modifiers in canonical order

The rule sorts every modifier list by rank.  The trivia in front of the list, its indentation and
documentation, stay in front of whichever modifier comes first.
-/

namespace DeclStyle.StyleRule

/-- The modifiers in order of rank, with the trivia in front of the list kept in front. -/
def sortModifiers (modifiers : List Token) : List Token :=
  match modifiers with
  | [] => []
  | first :: rest =>
    (ModifierOrder.compareTokens.stableSort ({ first with leading := [] } :: rest)).modifyHead
      fun t => { t with leading := first.leading ++ t.leading }

/-- Sorts the modifiers of a declaration that are out of order. -/
def fixModifierOrder : NodeFix := fun d _ =>
  match d.signature? with
  | some s =>
    if Comparer.inOrder ModifierOrder.compareTokens s.modifiers then .ok none
    else
      .ok <| some
        (d.withSignature { s with modifiers := sortModifiers s.modifiers },
          "Reorder modifiers of " ++ d.describe)
  | none => .ok none

end DeclStyle.StyleRule
