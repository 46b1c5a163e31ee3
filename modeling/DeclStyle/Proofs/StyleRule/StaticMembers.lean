import DeclStyle.Proofs.Edit.Together
import DeclStyle.Proofs.StyleRule.InPlace

/-!
# Static members

The rule for members of static classes makes every member static that lacks the keyword and can have
it, and does nothing else.  It never makes a class static, so it does not matter that it is shown
the members of a class after the class itself.

* `StyleRule.LacksStatic` — a declaration is to be made static in its container;
* `StyleRule.leavesMembers_staticClassMembers` — a static class comes of a static class;
* `StyleRule.static_members_completed` — what the rule makes of a tree, position by position, and of
  its text.
-/

namespace DeclStyle.StyleRule

open Token Declaration

variable {settings : StyleSettings} {container parent : Option Declaration} {d e : Declaration}

/-- A declaration is a member of a static class without being static: a constructor, an event, an
event field, a property, a method, or a field that is not constant. -/
def LacksStatic (container : Option Declaration) (d : Declaration) : Prop :=
  (∃ c ∈ container, c.kind = .type .classType ∧ c.hasModifier .staticKw) ∧
  d.hasModifier .staticKw = false ∧
  (d.kind = .plain .field ∧ d.hasModifier .constKw = false ∨
    d.kind ∈ [.plain .constructor, .plain .event, .plain .eventField, .plain .property,
      .plain .method])

theorem canBeStatic_iff : canBeStatic d ↔
    (d.kind = .plain .field ∧ d.hasModifier .constKw = false ∨
      d.kind ∈ [.plain .constructor, .plain .event, .plain .eventField, .plain .property,
        .plain .method]) := by
  rw [canBeStatic, isConstField]
  rcases d.kind with k | k | _
  · cases k <;> simp
  · simp
  · simp

/-- The rule fires at what lacks `static`. -/
theorem fires_staticClassMembers_iff :
    staticClassMembers.fires settings container d ↔ LacksStatic container d := by
  have hcontainer : container.any isStaticClass ↔
      ∃ c ∈ container, c.kind = .type .classType ∧ c.hasModifier .staticKw := by
    cases container <;> simp [isStaticClass]
  rw [fires, Bool.and_eq_true, Bool.and_eq_true, hcontainer, canBeStatic_iff, Bool.not_eq_true',
    LacksStatic, and_assoc, and_comm (a := d.hasModifier .staticKw = false)]

instance (container : Option Declaration) (d : Declaration) : Decidable (LacksStatic container d) :=
  decidable_of_iff (staticClassMembers.fires .standard container d) fires_staticClassMembers_iff

theorem fires_staticClassMembers_eq (settings : StyleSettings) (container : Option Declaration)
    (d : Declaration) :
    staticClassMembers.fires settings container d = decide (LacksStatic container d) := by
  rw [Bool.eq_iff_iff, fires_staticClassMembers_iff, decide_eq_true_iff]

/-- Types, operators and constant fields do not lack it. -/
theorem LacksStatic.eligible (h : LacksStatic container d) :
    ¬ (d.kind.isType ∨ d.kind = .plain .operator ∨ d.kind = .plain .conversionOperator ∨
      d.isConstField) := by
  obtain ⟨-, -, ⟨hfield, hconst⟩ | hother⟩ := h
  · simp [isConstField, hfield, hconst, DeclarationKind.isType]
  · simp only [List.mem_cons, List.not_mem_nil, or_false] at hother
    rcases hother with hkind | hkind | hkind | hkind | hkind <;>
      simp [isConstField, hkind, DeclarationKind.isType]

theorem blockInserted_of_insertKind (h : d.insertKind .staticKw none = .ok e) :
    BlockInserted (Placement.byRank (d.modifiers.map Token.rank) ModifierKind.staticKw.rank)
      [.staticKw] d e :=
  insertKinds_together (insertKinds_of_insertKind h) (List.pairwise_singleton _ _)
    fun _ _ _ hk => absurd hk List.not_mem_nil

/-- An insertion makes no class static, nor one that was static something else. -/
theorem isStaticClass_of_insertKind (hd : canBeStatic d) (h : d.insertKind .staticKw none = .ok e) :
    isStaticClass e = isStaticClass d := by
  have hkind : d.kind ≠ .type .classType := by
    intro hclass
    rw [canBeStatic, hclass] at hd
    exact absurd hd Bool.false_ne_true
  rw [isStaticClass, isStaticClass, kind_of_editSignature h, beq_eq_false_iff_ne.2 hkind,
    Bool.false_and, Bool.false_and]

theorem leavesMembers_staticClassMembers (settings : StyleSettings) :
    staticClassMembers.LeavesMembers settings := by
  intro parent d current hchanges
  cases hchanges with
  | staticClassMembers _ hmember _ hedit =>
    refine ⟨members_of_editSignature hedit, fun m => ?_⟩
    rw [fires, fires, Option.any_some, Option.any_some, isStaticClass_of_insertKind hmember hedit]

/-- What the rule makes of a declaration in a container. -/
structure MadeStatic (container : Option Declaration) (before after : Declaration) : Prop where
  /-- Apart from its members the declaration stays as it is, or the keyword is inserted. -/
  edited : after.withMembers before.members = before ∨
    before.insertKind .staticKw none = .ok (after.withMembers before.members)
  changed_iff : after.modifiers ≠ before.modifiers ↔ LacksStatic container before
  /-- The keyword goes where its rank puts it. -/
  placed : LacksStatic container before →
    InsertedAt (Placement.byRank (before.modifiers.map Token.rank) ModifierKind.staticKw.rank)
      [.word (.modifier .staticKw) "static"] (before.modifiers.map word) (after.modifiers.map word)
  once : LacksStatic container before → after.modifiers.countP (·.isModifier .staticKw) = 1
  /-- Types, operators and constant fields stay as they are. -/
  ineligible : before.kind.isType ∨ before.kind = .plain .operator ∨
    before.kind = .plain .conversionOperator ∨ before.isConstField →
      after.modifiers = before.modifiers
  sameStaticClass : isStaticClass after = isStaticClass before
  inOrder : (before.modifiers.Pairwise fun t u => t.rank ≤ u.rank) →
    after.modifiers.Pairwise fun t u => t.rank ≤ u.rank

theorem isStaticClass_withMembers (d : Declaration) (ms : List Declaration) :
    isStaticClass (d.withMembers ms) = isStaticClass d := by
  rw [isStaticClass, isStaticClass, kind_withMembers, hasModifier, modifiers_withMembers,
    hasModifier]

/-- A declaration that is kept. -/
theorem madeStatic_withMembers (h : ¬ LacksStatic container d) (ms : List Declaration) :
    MadeStatic container d (d.withMembers ms) where
  edited := .inl (withMembers_withMembers_eq_self rfl ms)
  changed_iff := by simp [h]
  placed hlacks := absurd hlacks h
  once hlacks := absurd hlacks h
  ineligible _ := modifiers_withMembers d ms
  sameStaticClass := isStaticClass_withMembers d ms
  inOrder horder := by rwa [modifiers_withMembers]

/-- A declaration that is changed. -/
theorem madeStatic_of_insertKind (h : LacksStatic container d)
    (hedit : d.insertKind .staticKw none = .ok e) (ms : List Declaration) :
    MadeStatic container d (e.withMembers ms) := by
  have hblock := blockInserted_of_insertKind hedit
  have hmodifiers := modifiers_withMembers e ms
  refine ⟨?edited, ?changed, ?placed, ?once, ?ineligible, ?sameStaticClass, ?inOrder⟩
  case edited =>
    rw [withMembers_withMembers_eq_self (members_of_editSignature hedit)]
    exact .inr hedit
  case changed =>
    rw [hmodifiers]
    exact iff_of_true (hblock.modifiers_ne (List.cons_ne_nil _ _)) h
  case placed =>
    rw [hmodifiers]
    exact fun _ => hblock.read ignoresTrivia_word
  case once =>
    intro _
    have hnone : d.modifiers.countP (·.isModifier .staticKw) = 0 := by
      rw [List.countP_eq_zero]
      exact List.any_eq_false.1 h.2.1
    have hcount := (hblock.read (f := (·.isModifier .staticKw)) fun _ _ _ => rfl).perm.countP_eq id
    simp only [List.countP_append, List.countP_map, Function.id_comp, hnone] at hcount
    rw [hmodifiers, hcount]
    rfl
  case ineligible => exact fun hineligible => absurd hineligible h.eligible
  case sameStaticClass =>
    rw [isStaticClass_withMembers, isStaticClass_of_insertKind (canBeStatic_iff.2 h.2.2) hedit]
  case inOrder =>
    rw [hmodifiers]
    exact hblock.inOrder

/-- **The rule for members of static classes does exactly its job.**  It succeeds on every tree.  At
each position the declaration becomes static if it lacks the keyword there, and keeps its modifiers
otherwise.  The text is the given one with the keyword and a space put in for each of those
declarations. -/
theorem static_members_completed (settings : StyleSettings) (d : Declaration) :
    ∃ f, staticClassMembers.fix settings d = .ok f ∧
      (∀ path, Option.Rel (MadeStatic (container? none d path)) (d.at? path) (f.tree.at? path)) ∧
      Interspersed
        (((listed none d).filter fun x => LacksStatic x.2 x.1).map fun _ => "static ")
        d.render f.tree.render := by
  simp only [← fires_staticClassMembers_eq settings]
  refine exists_fix_in_place (by decide) (leavesMembers_staticClassMembers settings) ?kept ?changed
    ?text d
  case kept =>
    intro container d ms hquiet
    rw [fires_staticClassMembers_eq, decide_eq_false_iff_not] at hquiet
    exact madeStatic_withMembers hquiet ms
  case changed =>
    intro container parent d current ms hfires hchanges
    cases hchanges with
    | staticClassMembers _ _ _ hedit =>
      exact madeStatic_of_insertKind (fires_staticClassMembers_iff.1 hfires) hedit ms
  case text =>
    intro parent d current hchanges
    cases hchanges with
    | staticClassMembers _ _ _ hedit =>
      exact ⟨(blockInserted_of_insertKind hedit).text, tail_of_editSignature hedit⟩

end DeclStyle.StyleRule
