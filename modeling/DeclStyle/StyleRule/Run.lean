import DeclStyle.StyleRule.OrderedClassElements
import DeclStyle.StyleRule.OrderedModifiers
import DeclStyle.StyleRule.RedundantUnsafe
import DeclStyle.StyleRule.StaticClassMembers
import DeclStyle.StyleRule.VisibilityRequired
import DeclStyle.Traversal.Transform

/-!
# Running style rules

A rule is applied to a tree from the top down, and every change is recorded.  A check runs several
rules by name: unknown names are reported and skipped, the others run once each in order of
priority, each on what the one before it produced.  The first edit that fails ends the check.

Since a rule at most reorders the members of a declaration, a pass goes no deeper than the tree it
is given.
-/

namespace DeclStyle

/-- A tree that rules have been applied to, and the changes they made. -/
structure Fixed where
  tree : Declaration
  fixes : List Fix

/-- Whether any change was made. -/
def Fixed.isChanged (f : Fixed) : Bool := !f.fixes.isEmpty

/-- How the application of one rule ended, and the changes made up to there. -/
structure Attempt where
  outcome : Except EditError Declaration
  fixes : List Fix

namespace Attempt

/-- The tree with the changes, or the error. -/
def fixed (a : Attempt) : Except EditError Fixed := a.outcome.map (⟨·, a.fixes⟩)

/-- What is logged about the changes. -/
def log (a : Attempt) : List LogEntry := a.fixes.map Fix.logEntry

end Attempt

namespace StyleRule

/-- What a rule does to one declaration. -/
def fixNode (r : StyleRule) (settings : StyleSettings) : NodeFix :=
  match r with
  | redundantUnsafe => fixRedundantUnsafe
  | staticClassMembers => fixStaticClassMember
  | visibilityRequired => fixVisibility settings.defaultAccessibility
  | orderedModifiers => fixModifierOrder
  | orderedClassElements => fixMemberOrder settings.memberOrder

/-- The transformer that records the changes made by a rule. -/
def transformer (r : StyleRule) (fix : NodeFix) : Transformer (List Fix) := fun d parent fixes =>
  match fix d parent with
  | .error e => (.error e, fixes)
  | .ok none => (.ok none, fixes)
  | .ok (some (d', message)) => (.ok (some d'), fixes ++ [⟨r, message⟩])

/-- An edit of the signature, reported with a message, leaves the members alone. -/
theorem members_of_reported {d e : Declaration} {edit : Signature → Except EditError Signature}
    {message m : String}
    (h : (do let fixed ← d.editSignature edit; return some (fixed, message)) =
      Except.ok (some (e, m))) : e.members = d.members := by
  cases hd : d.editSignature edit with
  | error err => rw [hd] at h; cases h
  | ok fixed =>
    rw [hd] at h
    cases h
    exact Declaration.members_of_editSignature hd

/-- A rule at most reorders the members of a declaration. -/
theorem members_perm_of_fixNode {r : StyleRule} {settings : StyleSettings} {d e : Declaration}
    {parent : Option Declaration} {m : String}
    (h : r.fixNode settings d parent = .ok (some (e, m))) : e.members.Perm d.members := by
  cases r with
  | redundantUnsafe =>
    simp only [fixNode, fixRedundantUnsafe] at h
    split at h
    · exact members_of_reported h ▸ List.Perm.refl _
    · cases h
  | staticClassMembers =>
    simp only [fixNode, fixStaticClassMember] at h
    split at h
    · exact members_of_reported h ▸ List.Perm.refl _
    · cases h
  | visibilityRequired =>
    simp only [fixNode, fixVisibility] at h
    split at h
    · exact members_of_reported h ▸ List.Perm.refl _
    · cases h
  | orderedModifiers =>
    simp only [fixNode, fixModifierOrder] at h
    split at h
    · split at h
      · cases h
      · cases h
        exact (Declaration.members_withSignature d _).symm ▸ List.Perm.refl _
    · cases h
  | orderedClassElements =>
    simp only [fixNode, fixMemberOrder] at h
    split at h
    · cases h
      cases d with
      | plain k s => exact List.Perm.refl _
      | type k s ms tl => exact Comparer.stableSort_perm _ ms
      | space hd ms tl => exact Comparer.stableSort_perm _ ms
    · cases h

theorem transformer_keepsMembers (r : StyleRule) (settings : StyleSettings) :
    (transformer r (r.fixNode settings)).KeepsMembers := by
  intro d parent s e s' h
  unfold transformer at h
  split at h
  · cases h
  · cases h
  · rename_i d' message hfix
    cases h
    exact members_perm_of_fixNode hfix

/-- Applies a rule to a whole tree. -/
def attempt (r : StyleRule) (settings : StyleSettings) (d : Declaration) : Attempt :=
  match (transformer r (r.fixNode settings)).transform d.depth none d [] with
  | .done d' fixes => ⟨.ok d', fixes⟩
  | .failed e fixes => ⟨.error e, fixes⟩
  | .unfinished => ⟨.ok d, []⟩

/-- A pass of a rule comes to an end. -/
theorem transform_depth_ne_unfinished (r : StyleRule) (settings : StyleSettings) (d : Declaration) :
    (transformer r (r.fixNode settings)).transform d.depth none d [] ≠ .unfinished :=
  Transformer.transform_ne_unfinished (transformer_keepsMembers r settings) (Nat.le_refl _) none []

/-- The tree that a rule makes of a tree, with its changes. -/
def fix (r : StyleRule) (settings : StyleSettings) (d : Declaration) : Except EditError Fixed :=
  (r.attempt settings d).fixed

end StyleRule

/-! ## Checks -/

namespace Check

/-- The warning about a name that no rule has. -/
def unknownWarning (name : String) : LogEntry := ⟨.warn, "Unknown fixer '" ++ name ++ "', skipping"⟩

/-- The warnings about a list of names. -/
def warnings (names : List String) : List LogEntry :=
  (names.filter fun n => (StyleRule.ofName? n).isNone).map unknownWarning

/-- Compares rules by priority, the higher one first. -/
def comparePriority : Comparer StyleRule := fun r s => compare s.priority r.priority

/-- Keeps one of several equal rules that stand next to each other. -/
def dropRepeats : List StyleRule → List StyleRule
  | r :: s :: rest => if r = s then dropRepeats (s :: rest) else r :: dropRepeats (s :: rest)
  | rules => rules

/-- The rules of the given names in the order in which they run. -/
def resolve (names : List String) : List StyleRule :=
  dropRepeats (Comparer.stableSort comparePriority (names.filterMap StyleRule.ofName?))

/-- The message about a rule that made changes. -/
def ruleSummary (r : StyleRule) (count : Nat) : LogEntry :=
  ⟨.debug, r.name ++ " made " ++ toString count ++ " change(s)"⟩

/-- The message at the end of a check. -/
def summary (rules changes : Nat) : LogEntry :=
  ⟨.info, "Ran " ++ toString rules ++ " fixer(s): " ++ toString changes ++ " change(s)"⟩

/-- How a check ended, and what it logged. -/
structure Report where
  outcome : Except EditError Fixed
  log : List LogEntry

/-- Runs rules one after another.  The tree of a rule that made no change is not taken over. -/
def runRules (settings : StyleSettings) : List StyleRule → Fixed → Report
  | [], current => ⟨.ok current, []⟩
  | r :: rest, current =>
    let a := r.attempt settings current.tree
    match a.outcome with
    | .error e => ⟨.error e, a.log⟩
    | .ok tree =>
      if a.fixes.isEmpty then runRules settings rest current
      else
        let report := runRules settings rest ⟨tree, current.fixes ++ a.fixes⟩
        ⟨report.outcome, a.log ++ ruleSummary r a.fixes.length :: report.log⟩

/-- Runs the rules of the given names over a tree. -/
def run (names : List String) (settings : StyleSettings) (d : Declaration) : Report :=
  let rules := resolve names
  let report := runRules settings rules ⟨d, []⟩
  let closing :=
    match report.outcome with
    | .ok fixed => [summary rules.length fixed.fixes.length]
    | .error _ => []
  ⟨report.outcome, warnings names ++ report.log ++ closing⟩

/-- Runs every rule over a tree, risky ones included. -/
def runAll (settings : StyleSettings) (d : Declaration) : Report :=
  run (StyleRule.all.map StyleRule.name) settings d

end Check

end DeclStyle
