import DeclStyle.Proofs.Edit.Document
import DeclStyle.Proofs.Traversal.Induction
import DeclStyle.StyleRule.Run

/-!
# Runs of style rules

What the application of one rule does, and what a check does, in terms of what the rule does to
single declarations.

* `StyleRule.Changes` — what each rule makes of a single declaration that it does not keep, and on
  what conditions (`exists_fixNode_eq_iff`);
* `StyleRule.fix_induction` — induction over the application of a rule, with one case for a
  declaration that is kept and one for a declaration that is changed;
* `StyleRule.change`, `StyleRule.record_induction` — what a rule records about a declaration that it
  changes, and the same induction with the record; `StyleRule.eq_of_fix` is the case of a tree and a
  record that are functions of the given tree, and `StyleRule.rule_eq_of_fix` that of the rule that
  each change is recorded for;
* `StyleRule.Preserves` — every change that a rule makes to one declaration keeps a relation.  Where
  the relation goes through nesting, the application of the rule to a tree keeps it
  (`Preserves.outcome`), and so does a check of rules that all keep it (`Check.run_preserves`);
* `Check.name_mem_of_mem_resolve` — a check runs no rule that it was not asked for.
-/

namespace DeclStyle

namespace StyleRule

/-! ## Single declarations -/

/-- What a rule makes of a declaration in its container. -/
inductive Changes (settings : StyleSettings) :
    StyleRule → Option Declaration → Declaration → Declaration → Prop where
  /-- A member of an unsafe type loses its first `unsafe`. -/
  | redundantUnsafe {parent : Option Declaration} {d e : Declaration} :
      parent.any isUnsafeType → d.hasModifier .unsafeKw → d.removeKind .unsafeKw = .ok e →
      Changes settings redundantUnsafe parent d e
  /-- A member of a static class becomes static. -/
  | staticClassMembers {parent : Option Declaration} {d e : Declaration} :
      parent.any isStaticClass → canBeStatic d → d.hasModifier .staticKw = false →
      d.insertKind .staticKw none = .ok e → Changes settings staticClassMembers parent d e
  /-- A member of a class or a struct gets the default accessibility. -/
  | visibilityRequired {parent : Option Declaration} {d e : Declaration} :
      parent.any (·.kind.isClassOrStruct) → needsAccessibility d →
      d.insertAccessibility settings.defaultAccessibility none = .ok e →
      Changes settings visibilityRequired parent d e
  /-- Modifiers that are out of order are sorted. -/
  | orderedModifiers {parent : Option Declaration} {d : Declaration} {s : Signature} :
      d.signature? = some s → Comparer.inOrder ModifierOrder.compareTokens s.modifiers = false →
      Changes settings orderedModifiers parent d
        (d.withSignature { s with modifiers := sortModifiers s.modifiers })
  /-- Members of a type that are out of order are sorted. -/
  | orderedClassElements {parent : Option Declaration} {d : Declaration} :
      d.kind.isType → Comparer.inOrder settings.memberOrder.compare d.members = false →
      Changes settings orderedClassElements parent d
        (d.withMembers (Comparer.stableSort settings.memberOrder.compare d.members))

variable {r : StyleRule} {settings : StyleSettings} {parent : Option Declaration}
  {d e : Declaration}

/-- A reported edit is the edit. -/
theorem eq_ok_of_reported {x : Except EditError Declaration} {message m : String}
    (h : (do let fixed ← x; return some (fixed, message)) = Except.ok (some (e, m))) :
    x = .ok e := by
  obtain ⟨fixed, hfixed, hdone⟩ := bind_eq_ok_iff.1 h
  cases hdone
  exact hfixed

theorem changes_of_fixNode {message : String}
    (h : r.fixNode settings d parent = .ok (some (e, message))) :
    Changes settings r parent d e := by
  cases r with
  | redundantUnsafe =>
    simp only [fixNode, fixRedundantUnsafe] at h
    split at h
    · rename_i hfires
      rw [Bool.and_eq_true] at hfires
      exact .redundantUnsafe hfires.1 hfires.2 (eq_ok_of_reported h)
    · cases h
  | staticClassMembers =>
    simp only [fixNode, fixStaticClassMember] at h
    split at h
    · rename_i hfires
      simp only [Bool.and_eq_true, Bool.not_eq_true'] at hfires
      exact .staticClassMembers hfires.1.1 hfires.1.2 hfires.2 (eq_ok_of_reported h)
    · cases h
  | visibilityRequired =>
    simp only [fixNode, fixVisibility] at h
    split at h
    · rename_i hfires
      rw [Bool.and_eq_true] at hfires
      exact .visibilityRequired hfires.1 hfires.2 (eq_ok_of_reported h)
    · cases h
  | orderedModifiers =>
    simp only [fixNode, fixModifierOrder] at h
    split at h
    · rename_i s hs
      split at h
      · cases h
      · rename_i hfires
        cases h
        exact .orderedModifiers hs (by simpa using hfires)
    · cases h
  | orderedClassElements =>
    simp only [fixNode, fixMemberOrder] at h
    split at h
    · rename_i hfires
      simp only [Bool.and_eq_true, Bool.not_eq_true'] at hfires
      cases h
      exact .orderedClassElements hfires.1 hfires.2
    · cases h

theorem exists_fixNode_of_changes (h : Changes settings r parent d e) :
    ∃ message, r.fixNode settings d parent = .ok (some (e, message)) := by
  cases h with
  | redundantUnsafe hparent hunsafe hedit =>
    simp only [fixNode, fixRedundantUnsafe, hparent, hunsafe, hedit]
    exact ⟨_, rfl⟩
  | staticClassMembers hparent hmember hstatic hedit =>
    simp only [fixNode, fixStaticClassMember, hparent, hmember, hstatic, hedit]
    exact ⟨_, rfl⟩
  | visibilityRequired hparent hmember hedit =>
    simp only [fixNode, fixVisibility, hparent, hmember, hedit]
    exact ⟨_, rfl⟩
  | orderedModifiers hs horder =>
    simp only [fixNode, fixModifierOrder, hs, horder]
    exact ⟨_, rfl⟩
  | orderedClassElements htype horder =>
    simp only [fixNode, fixMemberOrder, htype, horder]
    exact ⟨_, rfl⟩

/-- **A rule changes a declaration** exactly on these conditions, and to exactly these results. -/
theorem exists_fixNode_eq_iff :
    (∃ message, r.fixNode settings d parent = .ok (some (e, message))) ↔
      Changes settings r parent d e :=
  ⟨fun ⟨_, h⟩ => changes_of_fixNode h, exists_fixNode_of_changes⟩

/-! ## Trees -/

/-- The application of a rule succeeds where its pass comes to an end without an error. -/
theorem exists_transform_of_outcome (h : (r.attempt settings d).outcome = .ok e) :
    ∃ fixes, (transformer r (r.fixNode settings)).transform d.depth none d [] = .done e fixes := by
  unfold attempt at h
  split at h
  · rename_i d' fixes hdone
    obtain rfl := Except.ok.inj h
    exact ⟨fixes, hdone⟩
  · cases h
  · rename_i hunfinished
    exact absurd hunfinished (transform_depth_ne_unfinished r settings d)

/-- The application of a rule fails where its pass fails. -/
theorem outcome_eq_error_iff {err : EditError} :
    (r.attempt settings d).outcome = .error err ↔
      ∃ fixes, (transformer r (r.fixNode settings)).transform d.depth none d [] =
        .failed err fixes := by
  unfold attempt
  cases (transformer r (r.fixNode settings)).transform d.depth none d [] <;> simp

/-- **Induction over the application of a rule.** -/
theorem fix_induction (P : Option Declaration → Declaration → Declaration → Prop)
    (hkept : ∀ parent d members, r.fixNode settings d parent = .ok none →
      List.Forall₂ (P (some d)) d.members members → P parent d (d.withMembers members))
    (hchanged : ∀ parent d current members, Changes settings r parent d current →
      List.Forall₂ (P (some current)) current.members members →
      P parent d (current.withMembers members))
    (h : (r.attempt settings d).outcome = .ok e) : P none d e := by
  obtain ⟨fixes, hdone⟩ := exists_transform_of_outcome h
  refine Transformer.transform_induction ?_ hdone
  intro parent d s replacement s₁ members hshown hmembers
  unfold transformer at hshown
  split at hshown
  · cases hshown
  · rename_i hfix
    cases hshown
    exact hkept parent d members hfix hmembers
  · rename_i current message hfix
    cases hshown
    exact hchanged parent d current members (exists_fixNode_eq_iff.1 ⟨message, hfix⟩) hmembers

/-- A pass over a list adds to the record what the passes over its elements add, in their order. -/
theorem exists_results_of_mapAll {f : Declaration → List Fix → PassResult (List Fix) Declaration}
    {Q : Declaration → Declaration → List Fix → Prop}
    (hf : ∀ d fixes e fixes', f d fixes = .done e fixes' →
      ∃ new, fixes' = fixes ++ new ∧ Q d e new)
    {ds es : List Declaration} {fixes fixes' : List Fix}
    (h : PassResult.mapAll f ds fixes = .done es fixes') :
    ∃ results : List (Declaration × List Fix), es = results.map Prod.fst ∧
      fixes' = fixes ++ results.flatMap Prod.snd ∧
      List.Forall₂ (fun d result => Q d result.1 result.2) ds results := by
  induction ds generalizing fixes es fixes' with
  | nil =>
    obtain ⟨rfl, rfl⟩ := PassResult.done.inj h
    exact ⟨[], rfl, (List.append_nil fixes).symm, .nil⟩
  | cons d ds ih =>
    obtain ⟨e, fixes₁, hfirst, hrest⟩ := PassResult.bind_eq_done_iff.1 h
    obtain ⟨es', fixes₂, hothers, hdone⟩ := PassResult.bind_eq_done_iff.1 hrest
    obtain ⟨rfl, rfl⟩ := PassResult.done.inj hdone
    obtain ⟨new, rfl, hd⟩ := hf d fixes e fixes₁ hfirst
    obtain ⟨results, rfl, rfl, hds⟩ := ih hothers
    refine ⟨(e, new) :: results, rfl, ?_, .cons hd hds⟩
    rw [List.flatMap_cons, List.append_assoc]

/-- What a rule says about a declaration that it changes. -/
def message (r : StyleRule) (settings : StyleSettings) (d : Declaration) : String :=
  match r with
  | redundantUnsafe => "Remove redundant 'unsafe' from " ++ d.describe
  | staticClassMembers => "Make " ++ d.describe ++ " static"
  | visibilityRequired =>
    "Add '" ++ settings.defaultAccessibility.display ++ "' to " ++ d.describe
  | orderedModifiers => "Reorder modifiers of " ++ d.describe
  | orderedClassElements => "Reorder members of " ++ d.describe

/-- What a rule records about a declaration that it changes. -/
def change (r : StyleRule) (settings : StyleSettings) (d : Declaration) : Fix :=
  ⟨r, r.message settings d⟩

theorem message_of_fixNode {text : String}
    (h : r.fixNode settings d parent = .ok (some (e, text))) : text = r.message settings d := by
  have hreported : ∀ {x : Except EditError Declaration} {m : String},
      (do let fixed ← x; return some (fixed, m)) = Except.ok (some (e, text)) → text = m := by
    intro x m hx
    obtain ⟨fixed, -, hdone⟩ := bind_eq_ok_iff.1 hx
    cases hdone
    rfl
  cases r with
  | redundantUnsafe =>
    simp only [fixNode, fixRedundantUnsafe] at h
    split at h
    · exact hreported h
    · cases h
  | staticClassMembers =>
    simp only [fixNode, fixStaticClassMember] at h
    split at h
    · exact hreported h
    · cases h
  | visibilityRequired =>
    simp only [fixNode, fixVisibility] at h
    split at h
    · exact hreported h
    · cases h
  | orderedModifiers =>
    simp only [fixNode, fixModifierOrder] at h
    split at h
    · split at h
      · cases h
      · cases h
        rfl
    · cases h
  | orderedClassElements =>
    simp only [fixNode, fixMemberOrder] at h
    split at h
    · cases h
      rfl
    · cases h

/-- **Induction over the application of a rule and its record.**  The record of a declaration is
that of its members, after the change of the declaration itself if there is one. -/
theorem record_induction (P : Option Declaration → Declaration → Declaration → List Fix → Prop)
    (hkept : ∀ parent d results, r.fixNode settings d parent = .ok none →
      List.Forall₂ (fun m (result : Declaration × List Fix) => P (some d) m result.1 result.2)
        d.members results →
      P parent d (d.withMembers (results.map Prod.fst)) (results.flatMap Prod.snd))
    (hchanged : ∀ parent d current results, Changes settings r parent d current →
      List.Forall₂ (fun m (result : Declaration × List Fix) => P (some current) m result.1 result.2)
        current.members results →
      P parent d (current.withMembers (results.map Prod.fst))
        (r.change settings d :: results.flatMap Prod.snd))
    {f : Fixed} (h : r.fix settings d = .ok f) : P none d f.tree f.fixes := by
  have hpass : ∀ levels parent d fixes e fixes',
      (transformer r (r.fixNode settings)).transform levels parent d fixes = .done e fixes' →
        ∃ new, fixes' = fixes ++ new ∧ P parent d e new := by
    intro levels
    induction levels with
    | zero => intro parent d fixes e fixes' h; cases h
    | succ levels ih =>
      intro parent d fixes e fixes' h
      rw [Transformer.transform] at h
      cases hnode : r.fixNode settings d parent with
      | error err => simp [transformer, hnode] at h
      | ok outcome =>
        cases outcome with
        | none =>
          simp only [transformer, hnode, Option.getD_none] at h
          obtain ⟨members, fixes₁, hmembers, hdone⟩ := PassResult.bind_eq_done_iff.1 h
          obtain ⟨rfl, rfl⟩ := PassResult.done.inj hdone
          obtain ⟨results, rfl, rfl, hresults⟩ := exists_results_of_mapAll (ih (some d)) hmembers
          exact ⟨_, rfl, hkept parent d results hnode hresults⟩
        | some replacement =>
          obtain ⟨current, text⟩ := replacement
          simp only [transformer, hnode, Option.getD_some] at h
          obtain ⟨members, fixes₁, hmembers, hdone⟩ := PassResult.bind_eq_done_iff.1 h
          obtain ⟨rfl, rfl⟩ := PassResult.done.inj hdone
          obtain ⟨results, rfl, rfl, hresults⟩ :=
            exists_results_of_mapAll (ih (some current)) hmembers
          obtain rfl := message_of_fixNode hnode
          refine ⟨r.change settings d :: results.flatMap Prod.snd, ?_, ?_⟩
          · rw [List.append_assoc, List.singleton_append, change]
          · exact hchanged parent d current results (exists_fixNode_eq_iff.1 ⟨_, hnode⟩) hresults
  rw [fix, attempt] at h
  split at h
  · rename_i d' fixes hdone
    obtain rfl := Except.ok.inj h
    obtain ⟨new, rfl, hP⟩ := hpass _ _ _ _ _ _ hdone
    exact hP
  · cases h
  · rename_i hunfinished
    exact absurd hunfinished (transform_depth_ne_unfinished r settings d)

/-- **What a rule makes and records by recursion.**  A function that makes of every declaration what
the rule makes of it, given what it makes of the members, is what the rule makes of a tree; the same
holds of the record. -/
theorem eq_of_fix {tree : Declaration → Declaration} {record : Declaration → List Fix}
    (hkept : ∀ parent d, r.fixNode settings d parent = .ok none →
      tree d = d.withMembers (d.members.map tree) ∧ record d = d.members.flatMap record)
    (hchanged : ∀ parent d current, Changes settings r parent d current →
      tree d = current.withMembers (current.members.map tree) ∧
        record d = r.change settings d :: current.members.flatMap record)
    {f : Fixed} (h : r.fix settings d = .ok f) : f.tree = tree d ∧ f.fixes = record d := by
  have hmembers : ∀ {ms : List Declaration} {results : List (Declaration × List Fix)},
      List.Forall₂ (fun m result => result.1 = tree m ∧ result.2 = record m) ms results →
        results.map Prod.fst = ms.map tree ∧ results.flatMap Prod.snd = ms.flatMap record := by
    intro ms results hresults
    induction hresults with
    | nil => exact ⟨rfl, rfl⟩
    | cons hm _ ih =>
      rw [List.map_cons, List.map_cons, List.flatMap_cons, List.flatMap_cons, hm.1, hm.2, ih.1,
        ih.2]
      exact ⟨rfl, rfl⟩
  refine record_induction (fun _ d e new => e = tree d ∧ new = record d) ?_ ?_ h
  · intro parent d results hfix hresults
    obtain ⟨htree, hrecord⟩ := hkept parent d hfix
    rw [htree, hrecord, (hmembers hresults).1, (hmembers hresults).2]
    exact ⟨rfl, rfl⟩
  · intro parent d current results hchanges hresults
    obtain ⟨htree, hrecord⟩ := hchanged parent d current hchanges
    rw [htree, hrecord, (hmembers hresults).1, (hmembers hresults).2]
    exact ⟨rfl, rfl⟩

/-- A rule records its own changes. -/
theorem rule_eq_of_fix {f : Fixed} (h : r.fix settings d = .ok f) :
    ∀ change ∈ f.fixes, change.rule = r := by
  have hmembers : ∀ {ms : List Declaration} {results : List (Declaration × List Fix)},
      List.Forall₂ (fun _ result => ∀ change ∈ result.2, change.rule = r) ms results →
        ∀ change ∈ results.flatMap Prod.snd, change.rule = r := by
    intro ms results hresults
    induction hresults with
    | nil => exact fun change hchange => nomatch hchange
    | cons hfirst _ ih =>
      rw [List.flatMap_cons, List.forall_mem_append]
      exact ⟨hfirst, ih⟩
  refine record_induction (fun _ _ _ fixes => ∀ change ∈ fixes, change.rule = r) ?_ ?_ h
  · intro parent d results _ hresults
    exact hmembers hresults
  · intro parent d current results _ hresults
    exact List.forall_mem_cons.2 ⟨rfl, hmembers hresults⟩

/-- A relation of a declaration and what became of it that can be followed through the steps of a
pass, and that holds of a declaration once it holds of all members. -/
structure Nests (R : Declaration → Declaration → Prop) : Prop where
  refl : ∀ d, R d d
  trans : ∀ d₁ d₂ d₃, R d₁ d₂ → R d₂ d₃ → R d₁ d₃
  members : ∀ d ms, List.Forall₂ R d.members ms → R d (d.withMembers ms)

/-- Every change that a rule makes to one declaration keeps a relation. -/
def Preserves (r : StyleRule) (settings : StyleSettings) (R : Declaration → Declaration → Prop) :
    Prop :=
  ∀ parent d e, Changes settings r parent d e → R d e

/-- What a rule keeps in single declarations it keeps in trees. -/
theorem Preserves.outcome {R : Declaration → Declaration → Prop} (hr : r.Preserves settings R)
    (hR : Nests R) (h : (r.attempt settings d).outcome = .ok e) : R d e := by
  refine fix_induction (fun _ d e => R d e) ?_ ?_ h
  · intro parent d members _ hmembers
    exact hR.members d members hmembers
  · intro parent d current members hchanged hmembers
    exact hR.trans d current _ (hr parent d current hchanged) (hR.members current members hmembers)

end StyleRule

/-! ## Checks -/

namespace Check

open StyleRule

theorem mem_of_mem_dropRepeats {r : StyleRule} {rules : List StyleRule}
    (h : r ∈ dropRepeats rules) : r ∈ rules := by
  fun_induction dropRepeats rules with
  | case1 s rest ih => exact List.mem_cons_of_mem s (ih h)
  | case2 s s' rest hne ih =>
    rcases List.mem_cons.1 h with rfl | h
    · exact List.mem_cons_self
    · exact List.mem_cons_of_mem s (ih h)
  | case3 rules => exact h

/-- A check runs no rule that it was not asked for. -/
theorem name_mem_of_mem_resolve {r : StyleRule} {names : List String} (h : r ∈ resolve names) :
    r.name ∈ names := by
  have hsorted := mem_of_mem_dropRepeats h
  rw [(Comparer.stableSort_perm comparePriority _).mem_iff, List.mem_filterMap] at hsorted
  obtain ⟨name, hname, hfound⟩ := hsorted
  rwa [ofName?_eq_some_iff.1 hfound]

/-- What every one of some rules keeps, they keep one after another. -/
theorem runRules_preserves {settings : StyleSettings} {R : Declaration → Declaration → Prop}
    {rules : List StyleRule} {current f : Fixed} (hrules : ∀ r ∈ rules, r.Preserves settings R)
    (hR : Nests R) (h : (runRules settings rules current).outcome = .ok f) :
    R current.tree f.tree := by
  induction rules generalizing current with
  | nil =>
    obtain rfl := Except.ok.inj h
    exact hR.refl current.tree
  | cons r rest ih =>
    have hrest : ∀ r ∈ rest, r.Preserves settings R := fun r' hr' =>
      hrules r' (List.mem_cons_of_mem r hr')
    simp only [runRules] at h
    split at h
    · cases h
    · rename_i tree houtcome
      split at h
      · exact ih hrest h
      · have hfirst := (hrules r List.mem_cons_self).outcome hR houtcome
        exact hR.trans _ tree _ hfirst (ih hrest h)

/-- **What every rule of a check keeps, the check keeps.** -/
theorem run_preserves {names : List String} {settings : StyleSettings} {d : Declaration}
    {f : Fixed} {R : Declaration → Declaration → Prop}
    (hrules : ∀ r : StyleRule, r.name ∈ names → r.Preserves settings R) (hR : Nests R)
    (h : (run names settings d).outcome = .ok f) : R d f.tree :=
  runRules_preserves (fun r hr => hrules r (name_mem_of_mem_resolve hr)) hR h

end Check

end DeclStyle
