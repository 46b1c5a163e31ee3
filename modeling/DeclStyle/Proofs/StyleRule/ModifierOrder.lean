import DeclStyle.Proofs.Order.Stability
import DeclStyle.Proofs.StyleRule.Satisfied
import DeclStyle.Proofs.Traversal.Listing

/-!
# Sorted modifier lists

Modifiers are sorted with the trivia in front of the list set aside, which then go in front of
whichever modifier comes first.

* `StyleRule.sortModifiers_cons` — the two steps;
* `StyleRule.map_sortModifiers_perm` — the words of the modifiers are permuted;
* `StyleRule.inOrder_sortModifiers` — the result is in order of rank;
* `StyleRule.SortsInPlace` — what becomes of the modifiers, and of the trivia in front of each;
* `StyleRule.modifiers_sorted_throughout` — what the rule makes of a tree, and what it records.
-/

namespace DeclStyle

/-! ## Ranked modifiers -/

namespace Token

/-- Whether a token is a modifier that the canonical order lists. -/
def isRanked (t : Token) : Bool := t.modifierKind?.any ModifierRank.order.contains

theorem isRanked_iff (t : Token) : t.isRanked ↔ t.rank ≠ ModifierRank.last := by
  rw [isRanked, rank]
  cases t.modifierKind? with
  | none => exact iff_of_false Bool.false_ne_true (not_not_intro rfl)
  | some k => cases k <;> decide

end Token

namespace StyleRule

open Token Comparer

/-- The first modifier is stripped, and what comes first after sorting goes behind its trivia. -/
theorem sortModifiers_cons (first : Token) (rest : List Token) :
    sortModifiers (first :: rest) =
      (ModifierOrder.compareTokens.stableSort (first.strip :: rest)).modifyHead
        (behind first.leading) := rfl

/-- Sorting permutes the words of modifiers. -/
theorem map_sortModifiers_perm {β : Type} {f : Token → β} (hf : IgnoresTrivia f)
    (modifiers : List Token) : ((sortModifiers modifiers).map f).Perm (modifiers.map f) := by
  cases modifiers with
  | nil => exact List.Perm.refl _
  | cons first rest =>
    have hsorted := Comparer.stableSort_perm ModifierOrder.compareTokens (first.strip :: rest)
    rw [sortModifiers_cons, map_modifyHead (hf.behind _), List.map_cons, ← hf.strip first]
    exact hsorted.map f

/-- A change of the first modifier that leaves its rank leaves the order. -/
theorem inOrder_modifyHead {f : Token → Token} (hf : ∀ t, (f t).rank = t.rank) (ts : List Token) :
    inOrder ModifierOrder.compareTokens (ts.modifyHead f) =
      inOrder ModifierOrder.compareTokens ts := by
  match ts with
  | [] => rfl
  | [t] => rfl
  | t :: u :: ts =>
    have hcompare : ModifierOrder.compareTokens (f t) u = ModifierOrder.compareTokens t u := by
      rw [ModifierOrder.compareTokens, ModifierOrder.compareTokens, hf]
    rw [List.modifyHead_cons, inOrder, inOrder, hcompare]

/-- **Sorted modifiers are in order.** -/
theorem inOrder_sortModifiers (modifiers : List Token) :
    inOrder ModifierOrder.compareTokens (sortModifiers modifiers) := by
  cases modifiers with
  | nil => rfl
  | cons first rest =>
    rw [sortModifiers_cons, inOrder_modifyHead (ignoresTrivia_rank.behind _)]
    exact inOrder_stableSort _

/-- Modifiers that are in order stay as they are, each with its trivia. -/
theorem sortModifiers_eq_self {modifiers : List Token}
    (h : inOrder ModifierOrder.compareTokens modifiers) : sortModifiers modifiers = modifiers := by
  cases modifiers with
  | nil => rfl
  | cons first rest =>
    rw [← inOrder_modifyHead ignoresTrivia_rank.strip] at h
    have hkept := stableSort_eq_self h
    rw [List.modifyHead_cons] at hkept
    rw [sortModifiers_cons, hkept, List.modifyHead_cons, behind, strip, List.append_nil]

/-! ## Modifiers and the trivia in front of them -/

theorem compareTokens_ne_gt_iff {t u : Token} :
    ModifierOrder.compareTokens t u ≠ .gt ↔ t.rank ≤ u.rank := compareOn_ne_gt_iff

theorem pairwise_rank_iff {ts : List Token} :
    (ts.Pairwise fun t u => t.rank ≤ u.rank) ↔ inOrder ModifierOrder.compareTokens ts :=
  inOrder_compareOn_iff.symm

/-- A modifier that goes from one place of a list to another.  The trivia in front of the list,
which the first modifier gives up, go in front of whichever comes first. -/
def moved (run : TriviaRun) (t : Token) (source place : Nat) : Token :=
  { t with leading := (if place = 0 then run else []) ++ if source = 0 then [] else t.leading }

theorem moved_of_pos (run : TriviaRun) (t : Token) (source : Nat) {place : Nat} (h : place ≠ 0) :
    moved run t source place = moved run t source 1 := by
  rw [moved, if_neg h, moved, if_neg Nat.one_ne_zero]

/-- What sorting makes of a list of modifiers. -/
structure SortsInPlace (before after : List Token) : Prop where
  /-- A list in order stays as it is. -/
  kept : (before.Pairwise fun t u => t.rank ≤ u.rank) → after = before
  /-- The modifiers, apart from the trivia in front of them, are stably sorted by rank. -/
  words : IsStableSort ModifierOrder.compareTokens (before.map strip) (after.map strip)
  /-- Those that have no rank come last, in their order. -/
  unranked : after.map strip =
    (after.map strip).filter (·.isRanked) ++ (before.map strip).filter (!·.isRanked)
  /-- The trivia in front of the list stay there, and the other modifiers take theirs along. -/
  runs : ∃ sorted : List (Token × Nat),
    IsStableSort (fun x y => ModifierOrder.compareTokens x.1 y.1) before.zipIdx sorted ∧
    after = sorted.zipIdx.map fun x => moved (leadingOfAll before) x.1.1 x.1.2 x.2

theorem map_strip_sortModifiers (modifiers : List Token) :
    (sortModifiers modifiers).map strip =
      stableSort ModifierOrder.compareTokens (modifiers.map strip) := by
  have hsort : ∀ ts : List Token, stableSort ModifierOrder.compareTokens (ts.map strip) =
      (stableSort ModifierOrder.compareTokens ts).map strip := stableSort_map fun _ _ => rfl
  cases modifiers with
  | nil => rfl
  | cons first rest =>
    have hstripped : (first :: rest).map strip = (first.strip :: rest).map strip := rfl
    have hbehind : ∀ t : Token, (t.behind first.leading).strip = t.strip := fun _ => rfl
    rw [sortModifiers_cons, hstripped, hsort, map_modifyHead hbehind]

/-- In a list in order the elements without a rank are at the end. -/
theorem eq_append_filter_isRanked {ts : List Token}
    (h : ts.Pairwise fun t u => t.rank ≤ u.rank) :
    ts = ts.filter (·.isRanked) ++ ts.filter (!·.isRanked) := by
  induction ts with
  | nil => rfl
  | cons t ts ih =>
    obtain ⟨hbehind, htail⟩ := List.pairwise_cons.1 h
    by_cases ht : t.isRanked
    · rw [List.filter_cons_of_pos ht, List.filter_cons_of_neg (by simp [ht]), List.cons_append,
        ← ih htail]
    · -- nothing behind `t` has a rank either
      have hlast : ∀ u ∈ t :: ts, ¬ u.isRanked := by
        rw [List.forall_mem_cons]
        refine ⟨ht, fun u hu => ?_⟩
        rw [isRanked_iff, not_not] at ht ⊢
        exact le_antisymm u.rank_le_last (ht ▸ hbehind u hu)
      rw [List.filter_eq_nil_iff.2 hlast, List.nil_append, eq_comm, List.filter_eq_self]
      exact fun u hu => by simp [hlast u hu]

/-- From the second place on the place does not matter. -/
theorem map_zipIdx_of_pos {α β : Type} {f : α × Nat → β} {g : α → β}
    (h : ∀ a i, i ≠ 0 → f (a, i) = g a) (l : List α) {n : Nat} (hn : n ≠ 0) :
    (l.zipIdx n).map f = l.map g := by
  induction l generalizing n with
  | nil => rfl
  | cons a l ih =>
    rw [List.zipIdx_cons, List.map_cons, h a n hn, ih (Nat.succ_ne_zero n), List.map_cons]

/-- **Sorting modifiers** is a stable sort that leaves the trivia in front of the list there. -/
theorem sortsInPlace_sortModifiers (modifiers : List Token) :
    SortsInPlace modifiers (sortModifiers modifiers) := by
  refine ⟨?kept, ?words, ?unranked, ?runs⟩
  case kept => exact fun h => sortModifiers_eq_self (pairwise_rank_iff.1 h)
  case words =>
    rw [map_strip_sortModifiers]
    exact isStableSort_stableSort _
  case unranked =>
    rw [map_strip_sortModifiers]
    generalize modifiers.map strip = words
    have horder := eq_append_filter_isRanked (pairwise_rank_iff.2 (inOrder_stableSort words))
    have hunranked : (stableSort ModifierOrder.compareTokens words).filter (!·.isRanked) =
        words.filter (!·.isRanked) := by
      refine filter_stableSort (fun t u ht hu => ?_) words
      rw [Bool.not_eq_true', ← Bool.not_eq_true, isRanked_iff, not_not] at ht hu
      rw [compareTokens_ne_gt_iff, ht, hu]
    rwa [hunranked] at horder
  case runs =>
    have hlawful : Std.TransCmp fun x y : Token × Nat => ModifierOrder.compareTokens x.1 y.1 :=
      transCmp_comap ModifierOrder.compareTokens Prod.fst
    refine ⟨_, isStableSort_stableSort _, ?_⟩
    cases modifiers with
    | nil => rfl
    | cons first rest =>
      -- the stripped tokens are read off the given ones and their places
      let stripped : Token × Nat → Token := fun x => moved first.leading x.1 x.2 1
      have hstripped : first.strip :: rest = (first :: rest).zipIdx.map stripped := by
        have hrest : (rest.zipIdx 1).map stripped = rest.map id := by
          refine map_zipIdx_of_pos (fun t i hi => ?_) rest Nat.one_ne_zero
          simp only [stripped, moved, if_neg Nat.one_ne_zero, if_neg hi, List.nil_append, id_eq]
        rw [List.zipIdx_cons, List.map_cons, hrest, List.map_id]
        rfl
      have hsort : stableSort ModifierOrder.compareTokens ((first :: rest).zipIdx.map stripped) =
          (stableSort (fun x y => ModifierOrder.compareTokens x.1 y.1) (first :: rest).zipIdx).map
            stripped := stableSort_map (fun _ _ => rfl) _
      rw [sortModifiers_cons, hstripped, hsort]
      generalize stableSort (fun x y => ModifierOrder.compareTokens x.1 y.1)
        (first :: rest).zipIdx = sorted
      cases sorted with
      | nil => rfl
      | cons x sorted =>
        have hothers : (sorted.zipIdx 1).map
            (fun x => moved first.leading x.1.1 x.1.2 x.2) = sorted.map stripped :=
          map_zipIdx_of_pos (fun x _ hi => moved_of_pos _ x.1 x.2 hi) sorted Nat.one_ne_zero
        exact congrArg (moved first.leading x.1 x.2 0 :: ·) hothers.symm

/-- The line above the list stays above it, and the comment goes along with `public`. -/
example :
    sortModifiers
      [⟨.modifier .asyncKw, "async", [⟨.documentationComment, "/// a"⟩, .lineFeed], [.space]⟩,
        ⟨.modifier .publicKw, "public", [⟨.multiLineComment, "/* p */"⟩], [.space]⟩] =
      [⟨.modifier .publicKw, "public",
          [⟨.documentationComment, "/// a"⟩, .lineFeed, ⟨.multiLineComment, "/* p */"⟩], [.space]⟩,
        ⟨.modifier .asyncKw, "async", [], [.space]⟩] := by
  decide

end StyleRule

/-! ## Trees -/

namespace Declaration

mutual

/-- The tree with another list of modifiers at each declaration that carries some. -/
def mapModifiers (g : List Token → List Token) : Declaration → Declaration
  | plain k s => plain k { s with modifiers := g s.modifiers }
  | type k s ms tl => type k { s with modifiers := g s.modifiers } (mapModifiersAll g ms) tl
  | space hd ms tl => space hd (mapModifiersAll g ms) tl

/-- Declarations with other lists of modifiers. -/
def mapModifiersAll (g : List Token → List Token) : List Declaration → List Declaration
  | [] => []
  | d :: ds => mapModifiers g d :: mapModifiersAll g ds

end

theorem mapModifiersAll_eq_map (g : List Token → List Token) (ds : List Declaration) :
    mapModifiersAll g ds = ds.map (mapModifiers g) := by
  induction ds with
  | nil => rfl
  | cons d ds ih => rw [mapModifiersAll, ih, List.map_cons]

/-- Modifiers that stay as they are leave the rest to the members. -/
theorem mapModifiers_eq_of_kept {g : List Token → List Token} {d : Declaration}
    (h : g d.modifiers = d.modifiers) :
    d.mapModifiers g = d.withMembers (d.members.map (mapModifiers g)) := by
  cases d with
  | plain k s =>
    have hs : g s.modifiers = s.modifiers := h
    rw [mapModifiers, hs]
    rfl
  | type k s ms tl =>
    have hs : g s.modifiers = s.modifiers := h
    rw [mapModifiers, hs, mapModifiersAll_eq_map]
    rfl
  | space hd ms tl =>
    rw [mapModifiers, mapModifiersAll_eq_map]
    rfl

theorem mapModifiers_eq {g : List Token → List Token} {d : Declaration} {s : Signature}
    (h : d.signature? = some s) :
    d.mapModifiers g = (d.withSignature { s with modifiers := g s.modifiers }).withMembers
      (d.members.map (mapModifiers g)) := by
  cases d with
  | plain k s' =>
    obtain rfl := Option.some.inj h
    rw [mapModifiers]
    rfl
  | type k s' ms tl =>
    obtain rfl := Option.some.inj h
    rw [mapModifiers, mapModifiersAll_eq_map]
    rfl
  | space hd ms tl => cases h

end Declaration

namespace StyleRule

open Comparer Declaration

/-- What the rule records about a tree: one change for each list of modifiers out of order. -/
def resortings (settings : StyleSettings) (d : Declaration) : List Fix :=
  (d.preorder.filter fun n => ¬ n.modifiers.Pairwise fun t u => t.rank ≤ u.rank).map
    (orderedModifiers.change settings)

theorem resortings_eq (settings : StyleSettings) (d : Declaration) :
    resortings settings d =
      (if d.modifiers.Pairwise fun t u => t.rank ≤ u.rank then []
        else [orderedModifiers.change settings d]) ++
      d.members.flatMap (resortings settings) := by
  rw [resortings, map_filter_listing preorder_eq]
  by_cases horder : d.modifiers.Pairwise fun t u => t.rank ≤ u.rank
  · rw [if_neg (by simp [horder]), if_pos horder]
    rfl
  · rw [if_pos (by simp [horder]), if_neg horder]
    rfl

/-- **The rule on the order of modifiers is a stable sort that takes care of trivia.**  It succeeds
on every tree.  The result is the tree with every list of modifiers sorted in place, and one change
is recorded for each list that was out of order. -/
theorem modifiers_sorted_throughout (settings : StyleSettings) (d : Declaration) :
    ∃ f, orderedModifiers.fix settings d = .ok f ∧
      f.tree = d.mapModifiers sortModifiers ∧
      (∀ modifiers, SortsInPlace modifiers (sortModifiers modifiers)) ∧
      f.fixes =
        (d.preorder.filter fun n => ¬ n.modifiers.Pairwise fun t u => t.rank ≤ u.rank).map
          fun n => ⟨orderedModifiers, "Reorder modifiers of " ++ n.describe⟩ := by
  obtain ⟨f, hf, -⟩ := exists_fix_eq_ok (r := orderedModifiers) (by decide) settings d
  have hboth : f.tree = d.mapModifiers sortModifiers ∧ f.fixes = resortings settings d := by
    refine eq_of_fix ?kept ?changed hf
    case kept =>
      intro parent d hfix
      have horder : inOrder ModifierOrder.compareTokens d.modifiers := by
        have hquiet : orderedModifiers.fires settings parent d = false :=
          fixNode_eq_ok_none_iff.1 hfix
        simpa [fires] using hquiet
      rw [mapModifiers_eq_of_kept (sortModifiers_eq_self horder), resortings_eq,
        if_pos (pairwise_rank_iff.2 horder)]
      exact ⟨rfl, rfl⟩
    case changed =>
      intro parent d current hchanges
      cases hchanges with
      | @orderedModifiers _ _ s hs hout =>
        have hnot : ¬ d.modifiers.Pairwise fun t u => t.rank ≤ u.rank := by
          rw [pairwise_rank_iff, modifiers_eq hs, hout]
          exact Bool.false_ne_true
        rw [mapModifiers_eq hs, resortings_eq, if_neg hnot, members_withSignature]
        exact ⟨rfl, rfl⟩
  exact ⟨f, hf, hboth.1, sortsInPlace_sortModifiers, hboth.2⟩

end StyleRule

end DeclStyle
