import DeclStyle.Order.Members
import DeclStyle.Order.Modifiers
import Mathlib.Data.List.Forall2

/-!
# Lists in order

What a stable sort brings about, and which comparers of the library are fit to sort by.

* `Comparer.inOrder_stableSort` — a sorted list is in order.  The comparer need not be transitive:
  it is enough that exchanging its arguments turns its verdict round;
* `Comparer.pairwise_of_inOrder` — for a transitive comparer nothing in a list in order comes
  after anything behind it;
* the orders of modifiers, of names and of members are total preorders under all settings.
-/

namespace DeclStyle

namespace Comparer

variable {α : Type} {cmp : Comparer α}

/-! ## Stable sorting -/

/-- A list is in order if its tail is and the first element does not come after the second. -/
theorem inOrder_cons {a : α} {l : List α} (hhead : ∀ b ∈ l.head?, cmp a b ≠ .gt)
    (htail : inOrder cmp l) : inOrder cmp (a :: l) := by
  cases l with
  | nil => rfl
  | cons b l =>
    rw [inOrder, Bool.and_eq_true, bne_iff_ne]
    exact ⟨hhead b rfl, htail⟩

theorem inOrder_of_cons {a : α} {l : List α} (h : inOrder cmp (a :: l)) : inOrder cmp l := by
  cases l with
  | nil => rfl
  | cons b l =>
    rw [inOrder, Bool.and_eq_true] at h
    exact h.2

/-- What stands first once an element has been sorted in: the element, or what stood first. -/
theorem head?_insertSorted (cmp : Comparer α) (a : α) (l : List α) :
    (insertSorted cmp a l).head? = some a ∨ (insertSorted cmp a l).head? = l.head? := by
  cases l with
  | nil => exact .inl rfl
  | cons b l =>
    rw [insertSorted]
    split
    · exact .inr rfl
    · exact .inl rfl

theorem inOrder_insertSorted [Std.OrientedCmp cmp] (a : α) {l : List α} (h : inOrder cmp l) :
    inOrder cmp (insertSorted cmp a l) := by
  induction l with
  | nil => rfl
  | cons b l ih =>
    rw [insertSorted]
    split
    · rename_i hab
      refine inOrder_cons ?_ (ih (inOrder_of_cons h))
      intro c hc
      rcases head?_insertSorted cmp a l with hhead | hhead
      · obtain rfl : a = c := by simpa [hhead] using hc
        exact Std.OrientedCmp.not_gt_of_gt hab
      · -- nothing has come between `b` and what stood behind it
        cases l with
        | nil => simp [hhead] at hc
        | cons d l =>
          obtain rfl : d = c := by simpa [hhead] using hc
          rw [inOrder, Bool.and_eq_true, bne_iff_ne] at h
          exact h.1
    · rename_i hab
      refine inOrder_cons ?_ h
      rintro c ⟨⟩
      exact hab

/-- **A sorted list is in order.** -/
theorem inOrder_stableSort [Std.OrientedCmp cmp] (l : List α) : inOrder cmp (stableSort cmp l) := by
  induction l with
  | nil => rfl
  | cons a l ih => exact inOrder_insertSorted a ih

/-- A list in order is so throughout: nothing in it comes after anything behind it. -/
theorem pairwise_of_inOrder [Std.TransCmp cmp] {l : List α} (h : inOrder cmp l) :
    l.Pairwise fun a b => cmp a b ≠ .gt := by
  induction l with
  | nil => exact .nil
  | cons a l ih =>
    have htail := ih (inOrder_of_cons h)
    refine List.pairwise_cons.2 ⟨fun c hc => ?_, htail⟩
    cases l with
    | nil => cases hc
    | cons b l =>
      rw [inOrder, Bool.and_eq_true, bne_iff_ne] at h
      rcases List.mem_cons.1 hc with rfl | hc
      · exact h.1
      · have hbc := (List.pairwise_cons.1 htail).1 c hc
        have hac := Std.TransCmp.isLE_trans (Ordering.ne_gt_iff_isLE.1 h.1)
          (Ordering.ne_gt_iff_isLE.1 hbc)
        exact Ordering.ne_gt_iff_isLE.2 hac

/-- A list is in order if another one is whose elements compare like its own. -/
theorem inOrder_of_forall₂ {R : α → α → Prop}
    (hR : ∀ a a' b b', R a a' → R b b' → cmp a' b' = cmp a b) {l l' : List α}
    (h : List.Forall₂ R l l') : inOrder cmp l' = inOrder cmp l := by
  induction h with
  | nil => rfl
  | @cons a a' l l' hfirst hrest ih =>
    cases hrest with
    | nil => rfl
    | @cons b b' l l' hsecond _ => rw [inOrder, inOrder, ih, hR a a' b b' hfirst hsecond]

/-- A list is in order of what a function gives if the values are in order. -/
theorem inOrder_compareOn {β : Type} [Ord β] (f : α → β) (l : List α) :
    inOrder (compareOn f) l = inOrder compare (l.map f) := by
  induction l with
  | nil => rfl
  | cons a l ih =>
    cases l with
    | nil => rfl
    | cons b l =>
      rw [List.map_cons] at ih
      rw [inOrder, ih, List.map_cons, List.map_cons, inOrder, compareOn]

/-- To compare by what a function gives is a total preorder if its values are compared by one. -/
theorem transCmp_comap {β : Type} (cmp : Comparer α) [Std.TransCmp cmp] (f : β → α) :
    Std.TransCmp fun x y => cmp (f x) (f y) where
  eq_swap := Std.OrientedCmp.eq_swap
  isLE_trans := Std.TransCmp.isLE_trans

end Comparer

/-! ## The comparers of the library -/

namespace ModifierOrder

theorem compareKinds_eq : compareKinds = compareOn ModifierKind.rank := rfl

theorem compareTokens_eq : compareTokens = compareOn Token.rank := rfl

instance : Std.TransCmp compareKinds := by
  rw [compareKinds_eq]
  infer_instance

instance : Std.TransCmp compareTokens := by
  rw [compareTokens_eq]
  infer_instance

end ModifierOrder

namespace Collation

/-- Letters that differ in case are compared by case and then by code point. -/
theorem compareCase_eq (isUpper : Char → Bool) :
    compareCase isUpper = compareLex (compareOn isUpper) compare := rfl

/-- Names are compared by their lowercase forms and then by case. -/
theorem compareWith_invariant_eq (lower : Char → List Char) (isUpper : Char → Bool) :
    compareWith lower isUpper invariant =
      compareLex
        (fun x y => List.compareLex compare (x.toList.flatMap lower) (y.toList.flatMap lower))
        (fun x y => List.compareLex (compareCase isUpper) x.toList y.toList) := rfl

/-- Every collation is a total preorder, whatever the lowercase mapping. -/
instance (lower : Char → List Char) (isUpper : Char → Bool) (c : Collation) :
    Std.TransCmp (compareWith lower isUpper c) := by
  have hordinal : Std.TransCmp compareOrdinal :=
    Comparer.transCmp_comap (List.compareLex compare) String.toList
  cases c with
  | ordinal => exact hordinal
  | invariant =>
    have hcase : Std.TransCmp (compareCase isUpper) := by
      rw [compareCase_eq]
      infer_instance
    have hfolded := Comparer.transCmp_comap (List.compareLex (compare : Comparer Char))
      fun x : String => x.toList.flatMap lower
    have htie := Comparer.transCmp_comap (List.compareLex (compareCase isUpper)) String.toList
    rw [compareWith_invariant_eq]
    infer_instance

instance (c : Collation) : Std.TransCmp c.compare :=
  inferInstanceAs (Std.TransCmp (compareWith Letter.lowercase Letter.isUppercase c))

end Collation

namespace MemberOrder

/-- Members are compared by rank, and then by name where that is asked for. -/
theorem compare_eq (o : MemberOrder) :
    o.compare = compareLex (compareOn Declaration.rank) fun x y =>
      match o.sortMode with
      | .byKind => .eq
      | .byKindThenByName => o.collation.compare x.name y.name := by
  funext x y
  obtain ⟨sortMode, collation⟩ := o
  simp only [MemberOrder.compare, compareLex, compareOn]
  cases Ord.compare x.rank y.rank <;> cases sortMode <;> rfl

/-- The order of members is a total preorder under all settings. -/
instance (o : MemberOrder) : Std.TransCmp o.compare := by
  rw [compare_eq]
  obtain ⟨sortMode, collation⟩ := o
  cases sortMode with
  | byKind =>
    have hnever : Std.TransCmp fun _ _ : Declaration => Ordering.eq :=
      { eq_swap := rfl, isLE_trans := fun _ _ => rfl }
    infer_instance
  | byKindThenByName =>
    have hname := Comparer.transCmp_comap collation.compare Declaration.name
    infer_instance

end MemberOrder

end DeclStyle
