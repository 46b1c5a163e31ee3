import DeclStyle.Edit
import DeclStyle.Proofs.Order.Incremental

/-!
# One place by rank and by a comparer

In a list in order the place of a new element can be counted: there are as many elements in front of
it as do not come after the new one.  That holds of the place by any total preorder, and of the
place by rank, which is therefore the same as the place by the comparer of ranks.

* `Placement.IsUpperEnd` — the place counted, what it has in front of it and behind it, and what an
  insertion there keeps;
* `Placement.isUpperEnd_byComparer`, `Placement.isUpperEnd_byRank` — the two places are there;
* `Signature.insertKind_compareKinds` — for modifiers in order it does not matter whether a new one
  is inserted by rank or by the canonical comparer;
* `Placement.places_agree` — all of this together.
-/

namespace DeclStyle

/-! ## Places counted -/

namespace Placement

variable {α : Type} {cmp : Comparer α} {a : α}

/-- A test that all elements of the first part of a list pass, and none of the second, counts the
first part. -/
theorem countP_append_eq_length {p : α → Bool} {front back : List α} (hfront : ∀ b ∈ front, p b)
    (hback : ∀ b ∈ back, ¬ p b) : (front ++ back).countP p = front.length := by
  rw [List.countP_append, List.countP_eq_length.2 hfront, List.countP_eq_zero.2 hback, Nat.add_zero]

/-- A place that has in front of it the elements that do not come after the new one, and behind it
those that do.  So the new element stands behind all its equals there, and the list is in order. -/
structure IsUpperEnd (cmp : Comparer α) (l : List α) (a : α) (place : Nat) : Prop where
  count : place = l.countP (cmp · a ≠ .gt)
  before : ∀ b ∈ l.take place, cmp b a ≠ .gt
  behind : ∀ b ∈ l.drop place, cmp b a = .gt
  inOrder : (l.insertIdx place a).Pairwise fun b c => cmp b c ≠ .gt

/-- **The place by a comparer** in a list in order is the one behind all elements that do not come
after the new one. -/
theorem isUpperEnd_byComparer [Std.TransCmp cmp] {l : List α}
    (h : l.Pairwise fun b c => cmp b c ≠ .gt) (a : α) :
    IsUpperEnd cmp l a (byComparer cmp l a) := by
  have horder : Comparer.inOrder cmp l := Comparer.inOrder_iff_pairwise.2 h
  have hinsert := insertIdx_byComparer horder a
  obtain ⟨front, back, rfl, hfront, hback, -⟩ := Comparer.exists_append_of_inOrder horder a
  have hplace := byComparer_append (List.pairwise_append.1 h).1 hfront hback
  constructor
  case count =>
    rw [hplace, countP_append_eq_length]
    · intro b hb
      exact decide_eq_true (hfront b hb)
    · intro b hb
      simp [hback b hb]
  case before =>
    rw [hplace, List.take_left]
    exact hfront
  case behind =>
    rw [hplace, List.drop_left]
    exact hback
  case inOrder =>
    rw [hinsert]
    exact Comparer.pairwise_of_inOrder (Comparer.inOrder_appendSorted horder a)

/-- The place by rank in a list in order is that place for the comparer of ranks. -/
theorem isUpperEnd_byRank {rank : α → Rank} {l : List α}
    (h : l.Pairwise fun b c => rank b ≤ rank c) (a : α) :
    IsUpperEnd (compareOn rank) l a (byRank (l.map rank) (rank a)) := by
  have horder := Comparer.inOrder_compareOn_iff.2 h
  rw [byRank_eq_byComparer horder]
  exact isUpperEnd_byComparer (Comparer.inOrder_iff_pairwise.1 horder) a

/-- There it has as many elements in front of it as are not above the new one. -/
theorem IsUpperEnd.eq_countP_rank {rank : α → Rank} {l : List α} {place : Nat}
    (h : IsUpperEnd (compareOn rank) l a place) : place = l.countP (rank · ≤ rank a) := by
  rw [h.count]
  apply List.countP_congr
  intro b _
  simp only [decide_eq_true_eq, Comparer.compareOn_ne_gt_iff]

end Placement

/-! ## Modifiers in order -/

/-- The canonical order of keywords, carried over to tokens, is the canonical order of tokens. -/
theorem ModifierOrder.onTokens_compareKinds : onTokens compareKinds = compareTokens := by
  funext x y
  unfold onTokens
  split
  · rename_i k l hk hl
    simp only [compareKinds, compareTokens, Token.rank, hk, hl]
  · rfl

/-- The canonical comparer of tokens finds the place by rank. -/
theorem Signature.placeOf_compareTokens {modifiers : List Token}
    (h : modifiers.Pairwise fun t u => t.rank ≤ u.rank) (t : Token) :
    placeOf modifiers t (some ModifierOrder.compareTokens) = placeOf modifiers t none :=
  (Placement.byRank_eq_byComparer (Comparer.inOrder_compareOn_iff.2 h) t).symm

/-- Into modifiers in order the canonical comparer inserts as the rank does. -/
theorem Signature.insertKind_compareKinds {s : Signature}
    (h : s.modifiers.Pairwise fun t u => t.rank ≤ u.rank) (kind : ModifierKind) :
    s.insertKind kind (some ModifierOrder.compareKinds) = s.insertKind kind none := by
  rw [insertKind, insertKind, Option.map_some, Option.map_none, ModifierOrder.onTokens_compareKinds,
    insert, insert, placeOf_compareTokens h]

/-- The same on a declaration. -/
theorem Declaration.insertKind_compareKinds {d : Declaration}
    (h : d.modifiers.Pairwise fun t u => t.rank ≤ u.rank) (kind : ModifierKind) :
    d.insertKind kind (some ModifierOrder.compareKinds) = d.insertKind kind none := by
  cases d with
  | plain declared s =>
    exact congrArg (Except.map _) (Signature.insertKind_compareKinds (s := s) h kind)
  | type declared s members tail =>
    exact congrArg (Except.map _) (Signature.insertKind_compareKinds (s := s) h kind)
  | space tokens members tail => rfl

/-! ## The two ways to find a place -/

/-- **The place by rank and the place by a comparer agree** on lists in order.  Both have as many
elements in front of them as are not above the new one, and the place by any total preorder is
behind all equals of the new element and keeps the list in order.  So a modifier goes where its rank
puts it if it is inserted into modifiers in order by the canonical comparer. -/
theorem Placement.places_agree :
    (∀ (α : Type) (rank : α → Rank) (l : List α) (a : α),
      (l.Pairwise fun b c => rank b ≤ rank c) →
      byRank (l.map rank) (rank a) = l.countP (rank · ≤ rank a) ∧
      byComparer (compareOn rank) l a = l.countP (rank · ≤ rank a)) ∧
    (∀ (α : Type) (cmp : Comparer α) [Std.TransCmp cmp] (l : List α) (a : α),
      (l.Pairwise fun b c => cmp b c ≠ .gt) → IsUpperEnd cmp l a (byComparer cmp l a)) ∧
    (∀ (s : Signature) (kind : ModifierKind), (s.modifiers.Pairwise fun t u => t.rank ≤ u.rank) →
      s.insertKind kind (some ModifierOrder.compareKinds) = s.insertKind kind none) ∧
    ∀ (d : Declaration) (kind : ModifierKind), (d.modifiers.Pairwise fun t u => t.rank ≤ u.rank) →
      d.insertKind kind (some ModifierOrder.compareKinds) = d.insertKind kind none := by
  refine ⟨?ranks, ?comparer, ?signature, ?declaration⟩
  case ranks =>
    intro α rank l a h
    have horder := Comparer.inOrder_compareOn_iff.2 h
    have hplace := (isUpperEnd_byRank h a).eq_countP_rank
    exact ⟨hplace, (byRank_eq_byComparer horder a).symm.trans hplace⟩
  case comparer =>
    intro α cmp _ l a h
    exact isUpperEnd_byComparer h a
  case signature =>
    intro s kind h
    exact Signature.insertKind_compareKinds h kind
  case declaration =>
    intro d kind h
    exact Declaration.insertKind_compareKinds h kind

/-- The opening of `public override void`. -/
def Signature.publicOverride : Signature where
  modifiers := [.fresh .publicKw, .fresh .overrideKw]
  tokens := [.bare .keyword "void"]
  name := none

/-- A new `5` goes behind the three elements of `3, 5, 5, 8` that are not above it, and `virtual`
goes into `public override` at the same place in both ways. -/
theorem Placement.places_agree_virtual :
    byRank ([3, 5, 5, 8].map id) 5 = 3 ∧
    IsUpperEnd (compareOn id) ([3, 5, 5, 8] : List Rank) 5 3 ∧
    Signature.publicOverride.insertKind .virtualKw (some ModifierOrder.compareKinds) =
      Signature.publicOverride.insertKind .virtualKw none ∧
    (Declaration.plain .method .publicOverride).insertKind .virtualKw
        (some ModifierOrder.compareKinds) =
      (Declaration.plain .method .publicOverride).insertKind .virtualKw none :=
  ⟨(places_agree.1 Rank id [3, 5, 5, 8] 5 (by decide)).1,
    places_agree.2.1 Rank (compareOn id) [3, 5, 5, 8] 5 (by decide),
    places_agree.2.2.1 .publicOverride .virtualKw (by decide),
    places_agree.2.2.2 (.plain .method .publicOverride) .virtualKw (by decide)⟩

end DeclStyle
