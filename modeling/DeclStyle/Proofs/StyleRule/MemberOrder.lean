import DeclStyle.Proofs.Order.Stability
import DeclStyle.Proofs.StyleRule.Idempotence
import DeclStyle.Proofs.Traversal.Listing
import Mathlib.Data.List.Perm.Basic

/-!
# Sorted members

The rule on the order of members sorts those of a declaration first and then goes into the sorted
ones.  As the order of members does not look into them, it comes to the same to deal with what is
nested first: the result is the tree in which the members of every type are sorted, from the inside
out.

* `Declaration.sortedThroughout` — that tree, by recursion on the given one;
* `Declaration.arranged`, `Declaration.sortedThroughout_eq` — the same from the outside in;
* `Declaration.sources` — the declarations of a tree in the order in which they come to stand;
* `StyleRule.members_sorted_throughout` — what the rule makes of a tree, and what it records.
-/

namespace DeclStyle

open Comparer

namespace Declaration

variable (o : MemberOrder)

/-! ## From the inside out -/

mutual

/-- The tree with the members of every type sorted, once what is nested in them is.  The members of
a namespace keep their places. -/
def sortedThroughout : Declaration → Declaration
  | plain k s => plain k s
  | type k s ms tl => type k s (stableSort o.compare (sortedAll ms)) tl
  | space hd ms tl => space hd (sortedAll ms) tl

/-- A list of declarations with the members of every type in them sorted. -/
def sortedAll : List Declaration → List Declaration
  | [] => []
  | d :: ds => sortedThroughout d :: sortedAll ds

end

theorem sortedAll_eq_map (ds : List Declaration) :
    sortedAll o ds = ds.map (sortedThroughout o) := by
  induction ds with
  | nil => rfl
  | cons d ds ih => rw [sortedAll, ih, List.map_cons]

mutual

/-- The declarations of a tree in the order in which they begin once the members of every type are
sorted. -/
def sources : Declaration → List Declaration
  | plain k s => [plain k s]
  | type k s ms tl => type k s ms tl :: (sortAlong o.compare ms (sourcesOfEach ms)).flatten
  | space hd ms tl => space hd ms tl :: (sourcesOfEach ms).flatten

/-- The same for each declaration of a list. -/
def sourcesOfEach : List Declaration → List (List Declaration)
  | [] => []
  | d :: ds => sources d :: sourcesOfEach ds

end

theorem sourcesOfEach_eq_map (ds : List Declaration) :
    sourcesOfEach o ds = ds.map (sources o) := by
  induction ds with
  | nil => rfl
  | cons d ds ih => rw [sourcesOfEach, ih, List.map_cons]

/-! ## From the outside in -/

/-- The members of a declaration in the order in which they come to stand. -/
def arranged (d : Declaration) : List Declaration :=
  if d.kind.isType then stableSort o.compare d.members else d.members

theorem arranged_perm (d : Declaration) : (d.arranged o).Perm d.members := by
  rw [arranged]
  split
  · exact stableSort_perm o.compare d.members
  · exact .refl _

/-- The order of members does not look into them. -/
theorem compare_sortedThroughout (a b : Declaration) :
    o.compare (a.sortedThroughout o) (b.sortedThroughout o) = o.compare a b := by
  have halike : ∀ d : Declaration, StyleRule.SortsAlike d (d.sortedThroughout o) := by
    intro d
    cases d <;> exact ⟨rfl, rfl⟩
  exact (halike a).compare_eq o (halike b)

/-- **The members may be sorted before what is nested in them.** -/
theorem sortedThroughout_eq (d : Declaration) :
    d.sortedThroughout o = d.withMembers ((d.arranged o).map (sortedThroughout o)) := by
  cases d with
  | plain k s => rfl
  | type k s ms tl =>
    rw [sortedThroughout, sortedAll_eq_map, stableSort_map (compare_sortedThroughout o)]
    rfl
  | space hd ms tl =>
    rw [sortedThroughout, sortedAll_eq_map]
    rfl

theorem members_sortedThroughout (d : Declaration) :
    (d.sortedThroughout o).members = (d.arranged o).map (sortedThroughout o) := by
  rw [sortedThroughout_eq]
  cases d <;> rfl

theorem sources_eq (d : Declaration) :
    d.sources o = d :: (d.arranged o).flatMap (sources o) := by
  cases d with
  | plain k s => rfl
  | type k s ms tl =>
    rw [sources, sourcesOfEach_eq_map, sortAlong_map]
    rfl
  | space hd ms tl =>
    rw [sources, sourcesOfEach_eq_map]
    rfl

/-- Sorting throughout permutes the declarations of a tree. -/
theorem sources_perm (d : Declaration) : (d.sources o).Perm d.preorder := by
  induction d using members_induction with
  | members d ih =>
    rw [sources_eq, preorder_eq]
    have hperm := d.arranged_perm o
    exact .cons d (hperm.flatMap fun m hm => ih m (hperm.mem_iff.1 hm))

/-- The declarations of the sorted tree come of those of the given one, in the same order. -/
theorem preorder_sortedThroughout (d : Declaration) :
    (d.sortedThroughout o).preorder = (d.sources o).map (sortedThroughout o) := by
  induction d using members_induction with
  | members d ih =>
    have hmembers : (d.arranged o).flatMap (fun m => (m.sortedThroughout o).preorder) =
        (d.arranged o).flatMap fun m => (m.sources o).map (sortedThroughout o) :=
      List.flatMap_congr fun m hm => ih m ((d.arranged_perm o).mem_iff.1 hm)
    rw [preorder_eq, members_sortedThroughout, List.flatMap_map, hmembers, sources_eq,
      List.map_cons, List.map_flatMap]

/-- Sorting throughout moves tokens and does nothing else. -/
theorem tokens_sortedThroughout_perm (d : Declaration) :
    (d.sortedThroughout o).tokens.Perm d.tokens := by
  induction d using members_induction with
  | members d ih =>
    have hperm := d.arranged_perm o
    have hmembers : (tokensOfAll (d.sortedThroughout o).members).Perm (tokensOfAll d.members) := by
      rw [members_sortedThroughout, tokensOfAll_eq_flatMap, tokensOfAll_eq_flatMap,
        List.flatMap_map]
      exact hperm.flatMap fun m hm => ih m (hperm.mem_iff.1 hm)
    have hopening : (d.sortedThroughout o).opening = d.opening := by cases d <;> rfl
    have htail : (d.sortedThroughout o).tail = d.tail := by cases d <;> rfl
    rw [tokens_eq, tokens_eq, body, body, hopening, htail]
    exact (hmembers.append_right d.tail).append_left d.opening

/-- A type with a member behind another one that it should come before. -/
def OutOfOrder (d : Declaration) : Prop :=
  d.kind.isType ∧ ¬ d.members.Pairwise fun a b => o.compare a b ≠ .gt

instance (d : Declaration) : Decidable (d.OutOfOrder o) := by
  unfold OutOfOrder
  infer_instance

theorem arranged_of_not_outOfOrder {d : Declaration} (h : ¬ d.OutOfOrder o) :
    d.arranged o = d.members := by
  rw [arranged]
  split
  · rename_i htype
    have horder : d.members.Pairwise fun a b => o.compare a b ≠ .gt :=
      by_contra fun hnot => h ⟨htype, hnot⟩
    exact stableSort_eq_self (inOrder_iff_pairwise.2 horder)
  · rfl

end Declaration

namespace StyleRule

open Declaration

variable {settings : StyleSettings} {parent : Option Declaration} {d : Declaration}

/-- The rule fires at types that are out of order. -/
theorem fires_orderedClassElements_iff :
    orderedClassElements.fires settings parent d ↔ d.OutOfOrder settings.memberOrder := by
  rw [fires, Bool.and_eq_true, Bool.not_eq_true', ← Bool.not_eq_true, inOrder_iff_pairwise,
    OutOfOrder]

/-- What the rule records about a tree: one change for each type that is out of order, in the order
in which the types come to stand. -/
def reorderings (settings : StyleSettings) (d : Declaration) : List Fix :=
  ((d.sources settings.memberOrder).filter (·.OutOfOrder settings.memberOrder)).map
    (orderedClassElements.change settings)

theorem reorderings_eq (settings : StyleSettings) (d : Declaration) :
    reorderings settings d =
      (if d.OutOfOrder settings.memberOrder then [orderedClassElements.change settings d]
        else []) ++
        (d.arranged settings.memberOrder).flatMap (reorderings settings) := by
  rw [reorderings, map_filter_listing (sources_eq settings.memberOrder)]
  simp only [decide_eq_true_eq]
  rfl

/-- **The rule on the order of members is the recursive stable sort.**  It succeeds on every tree.
The result is the tree with the members of every type stably sorted in the order of the settings;
its tokens are those of the given tree.  One change is recorded for each type whose members were
out of order, in the order in which the types stand in the result. -/
theorem members_sorted_throughout (settings : StyleSettings) (d : Declaration) :
    ∃ f, orderedClassElements.fix settings d = .ok f ∧
      f.tree = d.sortedThroughout settings.memberOrder ∧
      (∀ ms sorted, IsStableSort settings.memberOrder.compare ms sorted ↔
        sorted = stableSort settings.memberOrder.compare ms) ∧
      f.tree.tokens.Perm d.tokens ∧
      (d.sources settings.memberOrder).Perm d.preorder ∧
      f.tree.preorder =
        (d.sources settings.memberOrder).map (sortedThroughout settings.memberOrder) ∧
      f.fixes = ((d.sources settings.memberOrder).filter (·.OutOfOrder settings.memberOrder)).map
        fun n => ⟨orderedClassElements, "Reorder members of " ++ n.describe⟩ := by
  obtain ⟨f, hf, -⟩ := exists_fix_eq_ok (r := orderedClassElements) (by decide) settings d
  have hboth : f.tree = d.sortedThroughout settings.memberOrder ∧
      f.fixes = reorderings settings d := by
    refine eq_of_fix ?kept ?changed hf
    case kept =>
      intro parent d hfix
      have hquiet : orderedClassElements.fires settings parent d = false :=
        fixNode_eq_ok_none_iff.1 hfix
      have hin : ¬ d.OutOfOrder settings.memberOrder := by
        rw [← fires_orderedClassElements_iff, hquiet]
        exact Bool.false_ne_true
      rw [sortedThroughout_eq, reorderings_eq, arranged_of_not_outOfOrder _ hin, if_neg hin]
      exact ⟨rfl, rfl⟩
    case changed =>
      intro parent d current hchanges
      have hout : d.OutOfOrder settings.memberOrder :=
        fires_orderedClassElements_iff.1 (fires_of_changes hchanges)
      rw [sortedThroughout_eq, reorderings_eq, if_pos hout]
      cases hchanges with
      | orderedClassElements htype _ =>
        cases d with
        | plain k s => cases htype
        | type k s ms tl => exact ⟨rfl, rfl⟩
        | space hd ms tl => cases htype
  obtain ⟨htree, hfixes⟩ := hboth
  refine ⟨f, hf, htree, fun _ _ => isStableSort_iff, ?_, sources_perm _ d, ?_, hfixes⟩
  · rw [htree]
    exact tokens_sortedThroughout_perm _ d
  · rw [htree]
    exact preorder_sortedThroughout _ d

end StyleRule

end DeclStyle
