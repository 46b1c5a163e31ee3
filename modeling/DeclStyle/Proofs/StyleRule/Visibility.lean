import DeclStyle.Proofs.Edit.Accessibility
import DeclStyle.Proofs.StyleRule.InPlace

/-!
# Declared accessibility

The rule on declared accessibility inserts the default one where a member of a class or a struct
has to declare some and does not, and does nothing else.

* `StyleRule.LacksAccessibility` — a declaration is to declare its accessibility in its container;
* `StyleRule.accessibility_completed` — what the rule makes of a tree, position by position, and of
  its text.
-/

namespace DeclStyle

open Token Signature

namespace StyleRule

open Declaration

variable {settings : StyleSettings} {container parent : Option Declaration} {d e : Declaration}

/-- A declaration is a member of a class or a struct that declares no accessibility, although it
has to: it is a constructor that is not static, a method that is not partial, or of one of the
other kinds that declare it. -/
def LacksAccessibility (container : Option Declaration) (d : Declaration) : Prop :=
  (∃ c ∈ container, c.kind = .type .classType ∨ c.kind = .type .structType) ∧
  d.accessibility? = none ∧
  (d.kind = .plain .constructor ∧ d.hasModifier .staticKw = false ∨
    d.kind = .plain .method ∧ d.hasModifier .partialKw = false ∨
    d.kind ∈ [.plain .field, .plain .delegate, .plain .event, .plain .eventField, .plain .property,
      .plain .indexer, .plain .enum, .type .interfaceType, .type .structType, .type .classType])

/-- The rule fires at what lacks accessibility. -/
theorem fires_visibilityRequired_iff :
    visibilityRequired.fires settings container d ↔ LacksAccessibility container d := by
  have hcontainer : container.any (·.kind.isClassOrStruct) ↔
      ∃ c ∈ container, c.kind = .type .classType ∨ c.kind = .type .structType := by
    cases container with
    | none => simp
    | some c => rcases hc : c.kind with k | k | _ <;> (try cases k) <;>
        simp [hc, DeclarationKind.isClassOrStruct]
  rw [fires, Bool.and_eq_true, hcontainer, needsAccessibility, LacksAccessibility,
    Bool.and_eq_true, Option.isNone_iff_eq_none]
  refine and_congr_right fun _ => and_congr_right fun _ => ?_
  rcases d.kind with k | k | _
  · cases k <;> simp
  · cases k <;> simp
  · simp

instance (container : Option Declaration) (d : Declaration) :
    Decidable (LacksAccessibility container d) :=
  decidable_of_iff (visibilityRequired.fires .standard container d) fires_visibilityRequired_iff

theorem fires_visibilityRequired_eq (settings : StyleSettings) (container : Option Declaration)
    (d : Declaration) :
    visibilityRequired.fires settings container d = decide (LacksAccessibility container d) := by
  rw [Bool.eq_iff_iff, fires_visibilityRequired_iff, decide_eq_true_iff]

theorem leavesMembers_visibilityRequired (settings : StyleSettings) :
    visibilityRequired.LeavesMembers settings := by
  intro parent d current hchanges
  cases hchanges with
  | visibilityRequired _ _ hedit =>
    refine ⟨members_of_editSignature hedit, fun m => ?_⟩
    rw [fires, fires, Option.any_some, Option.any_some, kind_of_editSignature hedit]

/-- What the rule makes of a declaration in a container. -/
structure MadeVisible (a : Accessibility) (container : Option Declaration)
    (before after : Declaration) : Prop where
  /-- Apart from its members the declaration stays as it is, or the accessibility is inserted. -/
  edited : after.withMembers before.members = before ∨
    before.insertAccessibility a none = .ok (after.withMembers before.members)
  changed_iff : after.modifiers ≠ before.modifiers ↔ LacksAccessibility container before
  declared : LacksAccessibility container before → after.accessibility? = some a
  /-- The keywords stand next to each other, in canonical order. -/
  together : LacksAccessibility container before → ∃ place,
    InsertedAt place (a.keywords.map fun k => .word (.modifier k) k.keyword)
      (before.modifiers.map word) (after.modifiers.map word)
  kept : before.accessibility?.isSome → after.accessibility? = before.accessibility?
  inOrder : (before.modifiers.Pairwise fun t u => t.rank ≤ u.rank) →
    after.modifiers.Pairwise fun t u => t.rank ≤ u.rank

theorem accessibility?_withMembers (d : Declaration) (ms : List Declaration) :
    (d.withMembers ms).accessibility? = d.accessibility? := by
  rw [accessibility?, modifiers_withMembers, accessibility?]

/-- A declaration that is kept. -/
theorem madeVisible_withMembers {a : Accessibility} (h : ¬ LacksAccessibility container d)
    (ms : List Declaration) : MadeVisible a container d (d.withMembers ms) where
  edited := .inl (withMembers_withMembers_eq_self rfl ms)
  changed_iff := by simp [h]
  declared hlacks := absurd hlacks h
  together hlacks := absurd hlacks h
  kept _ := accessibility?_withMembers d ms
  inOrder horder := by rwa [modifiers_withMembers]

/-- A declaration that is changed. -/
theorem madeVisible_of_insertAccessibility {a : Accessibility} (h : LacksAccessibility container d)
    (hedit : d.insertAccessibility a none = .ok e) (ms : List Declaration) :
    MadeVisible a container d (e.withMembers ms) := by
  obtain ⟨place, hblock⟩ := insertAccessibility_together hedit h.2.1
  have hmodifiers := modifiers_withMembers e ms
  refine ⟨?edited, ?changed, ?declared, ?together, ?kept, ?inOrder⟩
  case edited =>
    rw [withMembers_withMembers_eq_self (members_of_editSignature hedit)]
    exact .inr hedit
  case changed =>
    rw [hmodifiers]
    exact iff_of_true (hblock.modifiers_ne a.keywords_ne_nil) h
  case declared =>
    rw [accessibility?_withMembers]
    exact fun _ => accessibility?_of_insertAccessibility hedit h.2.1
  case together =>
    rw [hmodifiers]
    exact fun _ => ⟨place, hblock.read ignoresTrivia_word⟩
  case kept =>
    rw [h.2.1]
    exact fun hsome => absurd hsome Bool.false_ne_true
  case inOrder =>
    rw [hmodifiers]
    exact hblock.inOrder

/-- **The rule on declared accessibility does exactly its job.**  It succeeds on every tree.  At
each position the declaration gets the default accessibility if it lacks one there, and keeps its
modifiers otherwise.  The text is the given one with the keywords, each with a space behind it, put
in for each of those declarations. -/
theorem accessibility_completed (settings : StyleSettings) (d : Declaration) :
    ∃ f, visibilityRequired.fix settings d = .ok f ∧
      (∀ path, Option.Rel
        (MadeVisible settings.defaultAccessibility (container? none d path))
        (d.at? path) (f.tree.at? path)) ∧
      Interspersed
        (((listed none d).filter fun x => LacksAccessibility x.2 x.1).map fun _ =>
          String.join (settings.defaultAccessibility.keywords.map fun k => k.keyword ++ " "))
        d.render f.tree.render := by
  simp only [← fires_visibilityRequired_eq settings]
  refine exists_fix_in_place (by decide) (leavesMembers_visibilityRequired settings) ?kept ?changed
    ?text d
  case kept =>
    intro container d ms hquiet
    rw [fires_visibilityRequired_eq, decide_eq_false_iff_not] at hquiet
    exact madeVisible_withMembers hquiet ms
  case changed =>
    intro container parent d current ms hfires hchanges
    cases hchanges with
    | visibilityRequired _ _ hedit =>
      exact madeVisible_of_insertAccessibility (fires_visibilityRequired_iff.1 hfires) hedit ms
  case text =>
    intro parent d current hchanges
    have hlacks : LacksAccessibility parent d :=
      fires_visibilityRequired_iff.1 (fires_of_changes hchanges)
    cases hchanges with
    | visibilityRequired _ _ hedit =>
      obtain ⟨place, hblock⟩ := insertAccessibility_together hedit hlacks.2.1
      exact ⟨hblock.text, tail_of_editSignature hedit⟩

end StyleRule

end DeclStyle
