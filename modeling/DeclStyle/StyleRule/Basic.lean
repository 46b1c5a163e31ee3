import DeclStyle.Accessibility
import DeclStyle.Log
import DeclStyle.Order.Members

/-!
# Style rules

The five rules that a declaration tree can be held to, with the name, the description and the
priority of each, the settings they depend on, and the record of the changes they make.  Rules of
higher priority run first: removals, then insertions, then the order of modifiers, then the order of
members.
-/

namespace DeclStyle

/-- The style rules, those of higher priority first. -/
inductive StyleRule where
  | redundantUnsafe
  | staticClassMembers
  | visibilityRequired
  | orderedModifiers
  | orderedClassElements
  deriving DecidableEq, Repr, Inhabited

/-- What the rules depend on. -/
structure StyleSettings where
  sortMode : SortMode
  collation : Collation
  /-- The accessibility for members that declare none. -/
  defaultAccessibility : Accessibility
  deriving DecidableEq, Repr

namespace StyleSettings

/-- The settings where none are given. -/
def standard : StyleSettings := ⟨.byKind, .invariant, .privateAccess⟩

instance : Inhabited StyleSettings := ⟨standard⟩

/-- The order of members under the settings. -/
def memberOrder (s : StyleSettings) : MemberOrder := ⟨s.sortMode, s.collation⟩

end StyleSettings

namespace StyleRule

/-- Every rule, those of higher priority first. -/
def all : List StyleRule :=
  [redundantUnsafe, staticClassMembers, visibilityRequired, orderedModifiers, orderedClassElements]

/-- The name of a rule in configuration files. -/
def name : StyleRule → String
  | redundantUnsafe => "redundant_unsafe"
  | staticClassMembers => "static_class_members"
  | visibilityRequired => "visibility_required"
  | orderedModifiers => "ordered_modifiers"
  | orderedClassElements => "ordered_class_elements"

/-- The rule of a given name. -/
def ofName? (s : String) : Option StyleRule := all.find? (·.name == s)

/-- What a rule does, in a few words. -/
def description : StyleRule → String
  | redundantUnsafe => "Remove unsafe modifier already implied by the containing type"
  | staticClassMembers => "Make every member of a static class static"
  | visibilityRequired => "Ensure accessibility is declared on class and struct members"
  | orderedModifiers => "Order modifiers as: new, access, const, static, virtual, ..., partial"
  | orderedClassElements =>
    "Order class members: constants, fields, constructors, ..., nested types"

/-- Rules of higher priority run first. -/
def priority : StyleRule → Nat
  | redundantUnsafe => 40
  | staticClassMembers => 35
  | visibilityRequired => 30
  | orderedModifiers => 20
  | orderedClassElements => 10

/-- Whether a rule may change what the program does: moving members can change the order in which
fields are initialised. -/
def isRisky : StyleRule → Bool
  | orderedClassElements => true
  | _ => false

theorem mem_all (r : StyleRule) : r ∈ all := by
  cases r <;> decide

theorem ofName?_name (r : StyleRule) : ofName? r.name = some r := by
  cases r <;> decide

theorem ofName?_eq_some_iff {n : String} {r : StyleRule} : ofName? n = some r ↔ r.name = n := by
  constructor
  · intro h
    simpa using List.find?_some h
  · rintro rfl
    exact ofName?_name r

theorem name_injective {r s : StyleRule} (h : r.name = s.name) : r = s :=
  Option.some.inj ((ofName?_name r).symm.trans (ofName?_eq_some_iff.2 h.symm))

theorem priority_injective {r s : StyleRule} (h : r.priority = s.priority) : r = s := by
  revert h
  cases r <;> cases s <;> decide

end StyleRule

/-- One change made by a rule. -/
structure Fix where
  rule : StyleRule
  message : String
  deriving DecidableEq, Repr, Inhabited

/-- The log message about a change. -/
def Fix.logEntry (f : Fix) : LogEntry := ⟨.debug, f.rule.name ++ ": " ++ f.message⟩

/-- A declaration in words: its kind, and its name in quotes if it has one. -/
def Declaration.describe (d : Declaration) : String :=
  if d.name == "" then d.kind.display else d.kind.display ++ " '" ++ d.name ++ "'"

/-- What a rule does to one declaration in its container, which the rule has dealt with already: a
replacement and a message about it, or none to keep the declaration. -/
abbrev NodeFix :=
  Declaration → Option Declaration → Except EditError (Option (Declaration × String))

end DeclStyle
