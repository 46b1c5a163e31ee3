import DeclStyle.Edit
import DeclStyle.Members
import DeclStyle.Traversal.Transform

/-!
# Transforming by rules

A list of rules is a transformer: at each declaration the first rule whose conditions all hold
acts, and without such a rule the declaration is kept.
-/

namespace DeclStyle

/-- When a rule applies.  A condition that is not given holds. -/
structure RuleCondition where
  kindIs : Option DeclarationKind
  nameIs : Option String
  /-- The kind of the container.  It fails for a declaration without container. -/
  parentIs : Option DeclarationKind
  /-- A modifier of the container.  It fails for a declaration without container. -/
  parentHas : Option ModifierKind

/-- What a rule does. -/
inductive RuleAction where
  | keep
  | replace (replacement : Declaration)
  | insertKind (kind : ModifierKind)
  | removeAllModifiers
  | insertMember (member : Declaration)

/-- A rule for transforming declarations. -/
structure TransformRule where
  condition : RuleCondition
  action : RuleAction

namespace RuleCondition

/-- Whether a condition that may be absent holds. -/
def holdsIfGiven {α : Type} (condition : Option α) (p : α → Bool) : Bool :=
  match condition with
  | none => true
  | some a => p a

/-- Whether a rule applies to a declaration in a container. -/
def holds (c : RuleCondition) (d : Declaration) (parent : Option Declaration) : Bool :=
  holdsIfGiven c.kindIs (d.kind == ·) && holdsIfGiven c.nameIs (d.name == ·)
    && holdsIfGiven c.parentIs (fun k => parent.any (·.kind == k))
    && holdsIfGiven c.parentHas (fun k => parent.any (·.hasModifier k))

end RuleCondition

namespace RuleAction

/-- The replacement of a declaration that a rule acts on. -/
def apply (a : RuleAction) (d : Declaration) : Except EditError (Option Declaration) :=
  match a with
  | keep => .ok none
  | replace e => .ok (some e)
  | insertKind kind => (d.insertKind kind none).map some
  | removeAllModifiers => d.removeAll.map some
  | insertMember m => (d.insertMember m none).map some

end RuleAction

namespace TransformRule

/-- The transformer of a list of rules.  Its state records what it was shown. -/
def transformer (rules : List TransformRule) :
    Transformer (List (Declaration × Option Declaration)) := fun d parent seen =>
  (match rules.find? (·.condition.holds d parent) with
    | some rule => rule.action.apply d
    | none => .ok none,
   seen ++ [(d, parent)])

/-- How many levels a tree may reach while rules are applied to it. -/
def levelLimit : Nat := 10000

/-- Applies rules to a tree, recording the declarations they were tried on. -/
def apply (rules : List TransformRule) (d : Declaration) :
    PassResult (List (Declaration × Option Declaration)) Declaration :=
  (transformer rules).transform levelLimit none d []

end TransformRule

end DeclStyle
