import DeclStyle.Proofs.Order.Incremental
import DeclStyle.Proofs.StyleRule.Idempotence

/-!
# Declarations built step by step

Members and modifiers that are inserted one by one come to stand where the style rules for their
order would put them.  The rule for members goes down the tree, so it may still find something to do
inside a member.

* `Declaration.exists_foldlM_insertKind` — the modifiers of a declaration that had none, after newly
  made ones have been inserted by rank;
* `StyleRule.fix_eq_self_iff` — the trees that a rule keeps are those that satisfy it;
* `StyleRule.KeepsOwnOrder` — the rule for members has nothing to do at a type itself, and keeps the
  type as a whole exactly if it keeps each member;
* `StyleRule.assembled_in_order` — what is inserted one by one is in order.
-/

namespace DeclStyle

/-! ## Modifiers -/

namespace Declaration

open Token

/-- **Newly made modifiers inserted by rank, one by one,** into a declaration without modifiers are
sorted by rank. -/
theorem exists_foldlM_insertKind {d : Declaration} (hd : d.signature?.isSome)
    (hempty : d.modifiers = []) (kinds : List ModifierKind) :
    ∃ e, kinds.foldlM (fun e k => e.insertKind k none) d = .ok e ∧ e.signature?.isSome ∧
      ∀ {β : Type} (f : Token → β), IgnoresTrivia f → e.modifiers.map f =
        (ModifierOrder.compareKinds.stableSort kinds).map fun k => f (fresh k) := by
  induction kinds using List.reverseRecOn with
  | nil =>
    refine ⟨d, rfl, hd, ?_⟩
    intro β f _
    rw [hempty]
    rfl
  | append_singleton kinds k ih =>
    obtain ⟨e, he, hsome, hmap⟩ := ih
    obtain ⟨s, hs⟩ := Option.isSome_iff_exists.1 hsome
    obtain ⟨s', hs', -⟩ := s.insert_eq_ok (fresh k) none
    have hedit : e.insertKind k none = .ok (e.withSignature s') :=
      editSignature_eq_ok_iff.2 ⟨s, s', hs, hs', rfl⟩
    have hsome' : (e.withSignature s').signature?.isSome := by
      rw [signature?_withSignature hsome]
      rfl
    refine ⟨e.withSignature s', ?_, hsome', ?_⟩
    · rw [List.foldlM_append, he]
      show e.insertKind k none >>= pure = _
      rw [bind_pure, hedit]
    · intro β f hf
      have hsorted : Comparer.inOrder ModifierOrder.compareKinds
          (ModifierOrder.compareKinds.stableSort kinds) := Comparer.inOrder_stableSort kinds
      have hplace : Signature.placeOf s.modifiers (fresh k) none =
          Placement.byRank ((ModifierOrder.compareKinds.stableSort kinds).map ModifierKind.rank)
            k.rank := by
        have hranks := hmap Token.rank ignoresTrivia_rank
        rw [modifiers_eq hs] at hranks
        rw [Signature.placeOf, hranks]
        rfl
      have hbefore := hmap f hf
      rw [modifiers_eq hs] at hbefore
      rw [modifiers_withSignature hsome, Signature.map_modifiers_insert hf hs', hplace, hbefore,
        ← List.map_insertIdx, Placement.insertIdx_byRank hsorted, Comparer.stableSort_concat]
      rfl

end Declaration

/-! ## Trees that a rule keeps -/

namespace StyleRule

open Declaration

/-- **The trees that a rule keeps** are those that satisfy it. -/
theorem fix_eq_self_iff {r : StyleRule} (hr : r ≠ redundantUnsafe) (settings : StyleSettings)
    (d : Declaration) : r.fix settings d = .ok ⟨d, []⟩ ↔ Satisfied r settings none d := by
  constructor
  · intro h
    obtain ⟨tree, houtcome, hfixed⟩ := map_eq_ok_iff.1 h
    obtain rfl : tree = d := congrArg Fixed.tree hfixed
    exact satisfied_of_outcome hr houtcome
  · exact fix_of_satisfied

/-- The rule for members does not look at containers. -/
theorem Satisfied.of_any_parent {settings : StyleSettings} {parent parent' : Option Declaration}
    {d : Declaration} (h : Satisfied orderedClassElements settings parent d) :
    Satisfied orderedClassElements settings parent' d := by
  obtain ⟨hquiet, hmembers⟩ := h
  exact .intro hquiet hmembers

/-- The rule for members has nothing to do at a declaration itself, in whatever container, and it
keeps the declaration with everything in it exactly if it keeps each member. -/
def KeepsOwnOrder (settings : StyleSettings) (d : Declaration) : Prop :=
  (∀ parent, orderedClassElements.fixNode settings d parent = .ok none) ∧
    (orderedClassElements.fix settings d = .ok ⟨d, []⟩ ↔
      ∀ m ∈ d.members, orderedClassElements.fix settings m = .ok ⟨m, []⟩)

/-- A declaration whose members are in order keeps its own order. -/
theorem keepsOwnOrder_of_inOrder {settings : StyleSettings} {d : Declaration}
    (h : Comparer.inOrder settings.memberOrder.compare d.members) : KeepsOwnOrder settings d := by
  have hne : orderedClassElements ≠ redundantUnsafe := by decide
  have hquiet : ∀ parent, orderedClassElements.fires settings parent d = false := by
    intro parent
    simp [fires, h]
  refine ⟨fun parent => fixNode_eq_ok_none_iff.2 (hquiet parent), ?_⟩
  rw [fix_eq_self_iff hne]
  constructor
  · intro hd m hm
    obtain ⟨-, hmembers⟩ := hd
    exact (fix_eq_self_iff hne settings m).2 (hmembers m hm).of_any_parent
  · intro hmembers
    refine .intro (hquiet none) ?_
    intro m hm
    exact ((fix_eq_self_iff hne settings m).1 (hmembers m hm)).of_any_parent

/-- Without regard to names, members are ordered by rank. -/
theorem compare_memberOrder_byKind {settings : StyleSettings} (h : settings.sortMode = .byKind) :
    settings.memberOrder.compare = compareOn Declaration.rank := by
  funext x y
  simp only [StyleSettings.memberOrder, MemberOrder.compare, h, compareOn]
  cases Ord.compare x.rank y.rank <;> rfl

/-- **What is inserted one by one is in order.**  Members inserted by rank, or by any total
preorder, are stably sorted, so the rule for members has nothing to do at a type that has been built
so, if it sorts by the same order.  It keeps the type as a whole exactly if it keeps each of the
members.  Newly made modifiers inserted by rank into a declaration that has none are stably sorted
too, and the rule for modifiers has nothing to do at that declaration. -/
theorem assembled_in_order :
    (∀ members : List Declaration, members.foldl Members.insert [] =
      Comparer.stableSort (compareOn Declaration.rank) members) ∧
    (∀ (cmp : Comparer Declaration) [Std.TransCmp cmp] (members : List Declaration),
      members.foldl (Members.insertBy cmp) [] = cmp.stableSort members) ∧
    (∀ (settings : StyleSettings) (kind : TypeKind) (s : Signature) (members : List Declaration)
      (tail : List Token),
      (settings.sortMode = .byKind →
        KeepsOwnOrder settings (.type kind s (members.foldl Members.insert []) tail)) ∧
      KeepsOwnOrder settings (.type kind s
        (members.foldl (Members.insertBy settings.memberOrder.compare) []) tail)) ∧
    (∀ d : Declaration, d.signature?.isSome → d.modifiers = [] → ∀ kinds : List ModifierKind,
      ∃ e, kinds.foldlM (fun e k => e.insertKind k none) d = .ok e ∧
        e.modifiers.map Token.word =
          (ModifierOrder.compareKinds.stableSort kinds).map (fun k => (Token.fresh k).word) ∧
        ∀ settings parent, orderedModifiers.fixNode settings e parent = .ok none) := by
  refine ⟨Members.foldl_insert_eq_stableSort, ?_, ?_, ?_⟩
  · intro cmp _ members
    exact Members.foldl_insertBy_eq_stableSort cmp members
  · intro settings kind s members tail
    constructor
    · intro hmode
      refine keepsOwnOrder_of_inOrder ?_
      rw [compare_memberOrder_byKind hmode, Members.foldl_insert_eq_stableSort]
      exact Comparer.inOrder_stableSort members
    · refine keepsOwnOrder_of_inOrder ?_
      rw [Members.foldl_insertBy_eq_stableSort]
      exact Comparer.inOrder_stableSort members
  · intro d hd hempty kinds
    obtain ⟨e, he, -, hmap⟩ := exists_foldlM_insertKind hd hempty kinds
    refine ⟨e, he, hmap Token.word Token.ignoresTrivia_word, ?_⟩
    intro settings parent
    have hsorted : Comparer.inOrder ModifierOrder.compareKinds
        (ModifierOrder.compareKinds.stableSort kinds) := Comparer.inOrder_stableSort kinds
    have horder : Comparer.inOrder ModifierOrder.compareTokens e.modifiers := by
      rw [ModifierOrder.compareTokens_eq, Comparer.inOrder_compareOn,
        hmap Token.rank Token.ignoresTrivia_rank]
      exact (Comparer.inOrder_compareOn ModifierKind.rank _).symm.trans hsorted
    exact fixNode_eq_ok_none_iff.2 (by simp [fires, horder])

/-- The class `C` with given members. -/
def classOf (members : List Declaration) : Declaration :=
  .type .classType ⟨[], [.bare .keyword "class", .bare .identifier "C"], some 1⟩ members
    [.bare .punctuation "\x7d"]

/-- The method `M`. -/
def plainMethod : Declaration := .plain .method ⟨[], [.bare .identifier "M"], some 0⟩

/-- The field `f`. -/
def plainField : Declaration := .plain .field ⟨[], [.bare .identifier "f"], some 0⟩

/-- A field goes in front of a method in any of these ways, and `public` in front of `static`. -/
theorem assembled_in_order_classOf :
    [plainMethod, plainField].foldl Members.insert [] =
        Comparer.stableSort (compareOn Declaration.rank) [plainMethod, plainField] ∧
    [plainMethod, plainField].foldl
        (Members.insertBy (MemberOrder.compare ⟨.byKindThenByName, .ordinal⟩)) [] =
      Comparer.stableSort (MemberOrder.compare ⟨.byKindThenByName, .ordinal⟩)
        [plainMethod, plainField] ∧
    StyleSettings.standard.sortMode = .byKind ∧
    KeepsOwnOrder .standard (classOf ([plainMethod, plainField].foldl Members.insert [])) ∧
    plainMethod.signature?.isSome ∧ plainMethod.modifiers = [] ∧
    ∃ e, [ModifierKind.staticKw, .publicKw].foldlM (fun e k => e.insertKind k none) plainMethod =
        .ok e ∧
      e.modifiers.map Token.word =
        (ModifierOrder.compareKinds.stableSort [.staticKw, .publicKw]).map
          (fun k => (Token.fresh k).word) ∧
      ∀ settings parent, orderedModifiers.fixNode settings e parent = .ok none :=
  ⟨assembled_in_order.1 _, assembled_in_order.2.1 _ _, rfl,
    (assembled_in_order.2.2.1 .standard .classType _ _ _).1 rfl, rfl, rfl,
    assembled_in_order.2.2.2 plainMethod rfl rfl _⟩

/-- A class need not stay as it is because its members have been inserted one by one: the class `C`
whose only member is a class with a method in front of a field comes out with the field in front of
the method, and one change is recorded. -/
theorem assembled_class_not_kept :
    ∃ f, orderedClassElements.fix .standard
        (classOf ([classOf [plainMethod, plainField]].foldl Members.insert [])) = .ok f ∧
      f.fixes.length = 1 ∧
      f.tree ≠ classOf ([classOf [plainMethod, plainField]].foldl Members.insert []) := by
  refine ⟨_, rfl, rfl, ?_⟩
  intro hsame
  have hkinds := congrArg (fun d => d.members.map (·.members.map Declaration.kind)) hsame
  exact absurd hkinds (by decide)

end StyleRule

end DeclStyle
