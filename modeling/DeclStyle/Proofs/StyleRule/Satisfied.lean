import DeclStyle.Proofs.Edit.Keywords
import DeclStyle.Proofs.StyleRule.Run

/-!
# Trees that satisfy a rule

A rule fires at a declaration that it does not keep, and a tree satisfies a rule that fires nowhere
in it.  Such a tree comes out of the application of the rule as it went in, and nothing is recorded.

* `StyleRule.fires` — the condition under which each rule acts on a declaration
  (`fixNode_eq_ok_none_iff`);
* `StyleRule.Satisfied` — a rule fires nowhere in a tree (`fix_of_satisfied`);
* `StyleRule.tree_eq_of_no_fixes` — where nothing is recorded, nothing has changed;
* `StyleRule.exists_fix_eq_ok` — all rules but the one against redundant `unsafe` succeed on every
  tree.
-/

namespace DeclStyle.StyleRule

variable {r : StyleRule} {settings : StyleSettings} {parent : Option Declaration}
  {d e : Declaration}

/-! ## Firing -/

/-- Whether a rule acts on a declaration in its container. -/
def fires (r : StyleRule) (settings : StyleSettings) (parent : Option Declaration)
    (d : Declaration) : Bool :=
  match r with
  | redundantUnsafe => parent.any isUnsafeType && d.hasModifier .unsafeKw
  | staticClassMembers =>
    parent.any isStaticClass && canBeStatic d && !d.hasModifier .staticKw
  | visibilityRequired => parent.any (·.kind.isClassOrStruct) && needsAccessibility d
  | orderedModifiers => !Comparer.inOrder ModifierOrder.compareTokens d.modifiers
  | orderedClassElements =>
    d.kind.isType && !Comparer.inOrder settings.memberOrder.compare d.members

/-- An edit that is reported where a condition holds keeps a declaration exactly where it does
not. -/
theorem reported_eq_ok_none_iff {condition : Bool} {x : Except EditError Declaration}
    {message : String} :
    (if condition then do let fixed ← x; return some (fixed, message) else return none) =
        (Except.ok none : Except EditError (Option (Declaration × String))) ↔
      condition = false := by
  cases condition with
  | false => exact iff_of_true rfl rfl
  | true => cases x <;> exact iff_of_false (fun h => nomatch h) (fun h => nomatch h)

/-- **A rule keeps the declarations at which it does not fire**, and no others. -/
theorem fixNode_eq_ok_none_iff :
    r.fixNode settings d parent = .ok none ↔ r.fires settings parent d = false := by
  cases r with
  | redundantUnsafe => exact reported_eq_ok_none_iff
  | staticClassMembers => exact reported_eq_ok_none_iff
  | visibilityRequired => exact reported_eq_ok_none_iff
  | orderedModifiers =>
    simp only [fixNode, fixModifierOrder, fires]
    cases hs : d.signature? with
    | none => simp [Declaration.modifiers_eq_nil hs, Comparer.inOrder]
    | some s =>
      rw [Declaration.modifiers_eq hs]
      cases hsorted : Comparer.inOrder ModifierOrder.compareTokens s.modifiers <;> simp [hsorted]
  | orderedClassElements =>
    simp only [fixNode, fixMemberOrder, fires]
    cases d.kind.isType && !Comparer.inOrder settings.memberOrder.compare d.members <;> simp

/-- A rule fires at what it changes. -/
theorem fires_of_changes (h : Changes settings r parent d e) : r.fires settings parent d := by
  obtain ⟨message, hfix⟩ := exists_fixNode_of_changes h
  rw [← Bool.not_eq_false, ← fixNode_eq_ok_none_iff, hfix]
  exact fun hkept => nomatch hkept

/-! ## Satisfied trees -/

/-- A rule fires at no declaration of a tree. -/
inductive Satisfied (r : StyleRule) (settings : StyleSettings) :
    Option Declaration → Declaration → Prop where
  | intro {parent : Option Declaration} {d : Declaration} :
      r.fires settings parent d = false → (∀ m ∈ d.members, Satisfied r settings (some d) m) →
      Satisfied r settings parent d

/-- The pass of a rule keeps a tree that satisfies it, and records nothing. -/
theorem transform_of_satisfied (h : Satisfied r settings parent d) {levels : Nat}
    (hd : d.depth ≤ levels) (fixes : List Fix) :
    (transformer r (r.fixNode settings)).transform levels parent d fixes = .done d fixes := by
  induction levels generalizing parent d with
  | zero =>
    rw [Declaration.depth_eq] at hd
    exact absurd hd (Nat.not_succ_le_zero _)
  | succ levels ih =>
    obtain ⟨hquiet, hmembers⟩ := h
    have hshown : transformer r (r.fixNode settings) d parent fixes = (.ok none, fixes) := by
      rw [transformer, fixNode_eq_ok_none_iff.2 hquiet]
    have hdone : PassResult.mapAll
        ((transformer r (r.fixNode settings)).transform levels (some d)) d.members fixes =
          .done d.members fixes := by
      refine PassResult.mapAll_eq_done_self fun m hm => ih (hmembers m hm) ?_
      have hdepth := Declaration.depth_le_depthOfAll hm
      rw [Declaration.depth_eq] at hd
      omega
    rw [Transformer.transform, hshown]
    simp only [Option.getD_none]
    rw [hdone, PassResult.bind, Declaration.withMembers_members]

/-- **A rule does nothing to a tree that satisfies it.** -/
theorem fix_of_satisfied (h : Satisfied r settings none d) :
    r.fix settings d = .ok ⟨d, []⟩ := by
  rw [fix, attempt, transform_of_satisfied h (Nat.le_refl _)]
  rfl

/-! ## Passes that record nothing -/

/-- **A rule that records no change has made none.** -/
theorem tree_eq_of_no_fixes {f : Fixed} (h : r.fix settings d = .ok f) (hfixes : f.fixes = []) :
    f.tree = d := by
  refine record_induction (fun _ d e new => new = [] → e = d) ?kept ?changed h hfixes
  case kept =>
    intro parent d results _ hresults hnothing
    have hsame : results.map Prod.fst = d.members := by
      generalize d.members = members at hresults
      induction hresults with
      | nil => rfl
      | cons hkept _ ih =>
        rw [List.flatMap_cons, List.append_eq_nil_iff] at hnothing
        rw [List.map_cons, hkept hnothing.1, ih hnothing.2]
    rw [hsame, Declaration.withMembers_members]
  case changed =>
    intro _ _ _ _ _ _ hnothing
    cases hnothing

/-! ## Rules that always succeed -/

theorem isSome_signature?_of_canBeStatic (h : canBeStatic d) : d.signature?.isSome := by
  cases d with
  | space hd ms tl => exact absurd h Bool.false_ne_true
  | _ => rfl

theorem isSome_signature?_of_needsAccessibility (h : needsAccessibility d) :
    d.signature?.isSome := by
  cases d with
  | space hd ms tl =>
    rw [needsAccessibility, Bool.and_eq_true] at h
    exact absurd h.2 Bool.false_ne_true
  | _ => rfl

/-- Only the removal of a redundant `unsafe` can be refused. -/
theorem exists_fixNode_eq_ok (hr : r ≠ redundantUnsafe) (settings : StyleSettings)
    (d : Declaration) (parent : Option Declaration) :
    ∃ outcome, r.fixNode settings d parent = .ok outcome := by
  cases r with
  | redundantUnsafe => exact absurd rfl hr
  | staticClassMembers =>
    simp only [fixNode, fixStaticClassMember]
    split
    · rename_i hfires
      simp only [Bool.and_eq_true] at hfires
      obtain ⟨s, hs⟩ := Option.isSome_iff_exists.1 (isSome_signature?_of_canBeStatic hfires.1.2)
      obtain ⟨e, he, -⟩ := Declaration.exists_textAdded_of_insertKind hs .staticKw none
      rw [he]
      exact ⟨_, rfl⟩
    · exact ⟨_, rfl⟩
  | visibilityRequired =>
    simp only [fixNode, fixVisibility]
    split
    · rename_i hfires
      rw [Bool.and_eq_true] at hfires
      obtain ⟨e, he, -⟩ := Declaration.exists_keywordsAdded
        (isSome_signature?_of_needsAccessibility hfires.2)
        settings.defaultAccessibility.keywords none
      have hedit : d.insertAccessibility settings.defaultAccessibility none = .ok e := he
      rw [hedit]
      exact ⟨_, rfl⟩
    · exact ⟨_, rfl⟩
  | orderedModifiers =>
    simp only [fixNode, fixModifierOrder]
    split
    · split <;> exact ⟨_, rfl⟩
    · exact ⟨_, rfl⟩
  | orderedClassElements =>
    simp only [fixNode, fixMemberOrder]
    split <;> exact ⟨_, rfl⟩

/-- **All rules but one succeed on every tree.** -/
theorem exists_fix_eq_ok (hr : r ≠ redundantUnsafe) (settings : StyleSettings) (d : Declaration) :
    ∃ f, r.fix settings d = .ok f ∧ (r.attempt settings d).outcome = .ok f.tree := by
  have hstep : ∀ d parent fixes, ∃ replacement fixes',
      transformer r (r.fixNode settings) d parent fixes = (.ok replacement, fixes') := by
    intro d parent fixes
    obtain ⟨outcome, houtcome⟩ := exists_fixNode_eq_ok hr settings d parent
    rw [transformer, houtcome]
    cases outcome <;> exact ⟨_, _, rfl⟩
  rw [fix, attempt]
  split
  · exact ⟨_, rfl, rfl⟩
  · rename_i err fixes hfailed
    exact absurd hfailed (Transformer.transform_ne_failed hstep _ _ _ _ _ _)
  · rename_i hunfinished
    exact absurd hunfinished (transform_depth_ne_unfinished r settings d)

end DeclStyle.StyleRule
