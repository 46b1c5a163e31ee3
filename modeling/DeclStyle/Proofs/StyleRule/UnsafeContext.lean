import DeclStyle.Proofs.StyleRule.Run
import DeclStyle.Proofs.Traversal.Position

/-!
# Unsafe contexts

What is declared in an unsafe type is in an unsafe context, like a declaration that carries `unsafe`
itself.  The rule against redundant `unsafe` looks at the container only after it has dealt with it:
a type that loses its own `unsafe` no longer speaks for its members, which keep theirs.  So at every
position the context is the same before and after.

* `StyleRule.IsUnsafeAt` — the declaration at a position is in an unsafe context;
* `StyleRule.unsafeAt?` — the same, computed on the way down from what the container hands on;
* `StyleRule.unsafe_context_preserved` — the rule changes the context of no position.
-/

namespace DeclStyle

namespace StyleRule

open Declaration

/-! ## The context of a position -/

/-- The declaration at a position is in an unsafe context: it carries `unsafe`, or a type around it
does. -/
def IsUnsafeAt (d : Declaration) (path : List Nat) : Prop :=
  ∃ e, d.at? path = some e ∧ (e.hasModifier .unsafeKw ∨ ∃ c ∈ d.around path, isUnsafeType c)

/-- Whether the declaration at a position is in an unsafe context, where the tree as a whole may be
in one. -/
def unsafeAt? : Bool → Declaration → List Nat → Option Bool
  | inherited, d, [] => some (inherited || d.hasModifier .unsafeKw)
  | inherited, d, i :: path =>
    d.members[i]?.bind (unsafeAt? (inherited || isUnsafeType d) · path)

theorem isSome_unsafeAt? (inherited : Bool) (d : Declaration) (path : List Nat) :
    (unsafeAt? inherited d path).isSome = (d.at? path).isSome := by
  induction path generalizing inherited d with
  | nil => rfl
  | cons i path ih =>
    rw [unsafeAt?, at?]
    cases d.members[i]? with
    | none => rfl
    | some m => exact ih _ m

theorem unsafeAt?_eq_some_true_iff (inherited : Bool) (d : Declaration) (path : List Nat) :
    unsafeAt? inherited d path = some true ↔
      ∃ e, d.at? path = some e ∧
        (inherited ∨ e.hasModifier .unsafeKw ∨ ∃ c ∈ d.around path, isUnsafeType c) := by
  induction path generalizing inherited d with
  | nil => simp [unsafeAt?, at?, around]
  | cons i path ih =>
    rw [unsafeAt?, at?, around]
    cases d.members[i]? with
    | none => simp
    | some m =>
      simp only [Option.bind_some, Option.elim_some, ih, List.mem_cons, exists_eq_or_imp,
        Bool.or_eq_true]
      constructor
      · rintro ⟨e, he, (hinherited | htype) | hown | houter⟩
        · exact ⟨e, he, .inl hinherited⟩
        · exact ⟨e, he, .inr (.inr (.inl htype))⟩
        · exact ⟨e, he, .inr (.inl hown)⟩
        · exact ⟨e, he, .inr (.inr (.inr houter))⟩
      · rintro ⟨e, he, hinherited | hown | htype | houter⟩
        · exact ⟨e, he, .inl (.inl hinherited)⟩
        · exact ⟨e, he, .inr (.inl hown)⟩
        · exact ⟨e, he, .inl (.inr htype)⟩
        · exact ⟨e, he, .inr (.inr houter)⟩

theorem isUnsafeAt_iff (d : Declaration) (path : List Nat) :
    IsUnsafeAt d path ↔ unsafeAt? false d path = some true := by
  rw [unsafeAt?_eq_some_true_iff]
  simp [IsUnsafeAt]

/-! ## The rule -/

/-- Whether a type is unsafe does not depend on its members. -/
theorem isUnsafeType_withMembers (d : Declaration) (ms : List Declaration) :
    isUnsafeType (d.withMembers ms) = isUnsafeType d := by
  rw [isUnsafeType, hasModifier, kind_withMembers, modifiers_withMembers, ← hasModifier,
    ← isUnsafeType]

/-- A declaration in a container and what became of it offer the same contexts at every position,
provided that an unsafe container makes them unsafe. -/
def KeepsContexts (parent : Option Declaration) (d e : Declaration) : Prop :=
  ∀ inherited, (parent.any isUnsafeType → inherited = true) →
    ∀ path, unsafeAt? inherited e path = unsafeAt? inherited d path

/-- The contexts of a declaration are kept by a replacement that hands on the same contexts to the
same members, each of which is kept or replaced in turn. -/
theorem unsafeAt?_withMembers {inherited : Bool} {d current : Declaration}
    {members : List Declaration} (hmembers : current.members = d.members)
    (hown : (inherited || current.hasModifier .unsafeKw) = (inherited || d.hasModifier .unsafeKw))
    (htype : (inherited || isUnsafeType current) = (inherited || isUnsafeType d))
    (h : List.Forall₂ (KeepsContexts (some current)) current.members members) (path : List Nat) :
    unsafeAt? inherited (current.withMembers members) path = unsafeAt? inherited d path := by
  cases path with
  | nil =>
    rw [unsafeAt?, unsafeAt?, ← hown, hasModifier, modifiers_withMembers, ← hasModifier]
  | cons i path =>
    have hmember := rel_getElem?_of_forall₂ h i
    rw [unsafeAt?, unsafeAt?, members_withMembers_of_forall₂ h, isUnsafeType_withMembers,
      ← htype, ← hmembers]
    generalize current.members[i]? = before at hmember ⊢
    generalize members[i]? = after at hmember ⊢
    cases hmember with
    | none => rfl
    | some hkept =>
      refine hkept _ ?_ path
      intro hcurrent
      simp only [Option.any_some] at hcurrent
      rw [hcurrent, Bool.or_true]

/-- **The rule against redundant `unsafe` preserves unsafe contexts.**  It keeps the positions of a
tree, and the declaration at each is in an unsafe context exactly if it was before. -/
theorem unsafe_context_preserved {settings : StyleSettings} {d : Declaration} {f : Fixed}
    (h : redundantUnsafe.fix settings d = .ok f) (path : List Nat) :
    ((f.tree.at? path).isSome ↔ (d.at? path).isSome) ∧
    (IsUnsafeAt f.tree path ↔ IsUnsafeAt d path) := by
  obtain ⟨tree, houtcome, rfl⟩ := map_eq_ok_iff.1 h
  have hkeeps : KeepsContexts none d tree := by
    refine fix_induction KeepsContexts ?_ ?_ houtcome
    · intro parent d members _ hmembers inherited _ path
      exact unsafeAt?_withMembers rfl rfl rfl hmembers path
    · intro parent d current members hchanged hmembers inherited hparent path
      cases hchanged with
      | redundantUnsafe hcontainer _ hedit =>
        have hsame : current.members = d.members := members_of_editSignature hedit
        -- the container is unsafe, so nothing depends on what the declaration says itself
        obtain rfl := hparent hcontainer
        exact unsafeAt?_withMembers hsame (by simp) (by simp) hmembers path
  have heq := hkeeps false (by simp) path
  constructor
  · rw [← isSome_unsafeAt? false, ← isSome_unsafeAt? false, heq]
  · rw [isUnsafeAt_iff, isUnsafeAt_iff, heq]

/-- An unsafe class with an unsafe class in it, which has an unsafe method. -/
def nestedUnsafe : Declaration :=
  .type .classType opening
    [.type .classType opening [.plain .method ⟨[token], [.bare .identifier "M"], some 0⟩] []] []
where
  token : Token := ⟨.modifier .unsafeKw, "unsafe", [], [.space]⟩
  opening : Signature := ⟨[token], [.bare .keyword "class"], none⟩

/-- The inner class loses its `unsafe`, which is redundant.  The method keeps its own and is in an
unsafe context as before, although its container no longer says so. -/
theorem unsafe_context_preserved_nestedUnsafe :
    ∃ f, redundantUnsafe.fix .standard nestedUnsafe = .ok f ∧
      (f.tree.at? [0]).map (·.hasModifier .unsafeKw) = some false ∧
      (f.tree.at? [0, 0]).map (·.hasModifier .unsafeKw) = some true ∧
      (IsUnsafeAt f.tree [0] ↔ IsUnsafeAt nestedUnsafe [0]) := by
  have hfix : ∃ f, redundantUnsafe.fix .standard nestedUnsafe = .ok f ∧
      (f.tree.at? [0]).map (·.hasModifier .unsafeKw) = some false ∧
      (f.tree.at? [0, 0]).map (·.hasModifier .unsafeKw) = some true := ⟨_, rfl, rfl, rfl⟩
  obtain ⟨f, hf, hinner, hmethod⟩ := hfix
  exact ⟨f, hf, hinner, hmethod, (unsafe_context_preserved hf [0]).2⟩

end StyleRule

end DeclStyle
