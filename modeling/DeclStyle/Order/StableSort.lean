/-!
# Stable sorting

Sorting by a comparer that leaves elements in their order wherever the comparer does not tell them
apart or calls them in order, and the test whether a list is in order already.  The sort inserts
the elements from the last to the first, each in front of everything that does not come before it.
-/

namespace DeclStyle

/-- A way to compare two values. -/
abbrev Comparer (α : Type) := α → α → Ordering

namespace Comparer

variable {α : Type}

/-- The comparer with its arguments exchanged. -/
def swap (cmp : Comparer α) : Comparer α := fun x y => cmp y x

/-- Compares possibly absent values: an absent one comes first. -/
def optional (cmp : Comparer α) : Comparer (Option α)
  | none, none => .eq
  | none, some _ => .lt
  | some _, none => .gt
  | some x, some y => cmp x y

/-- Puts an element in front of the first one that it does not come after. -/
def insertSorted (cmp : Comparer α) (a : α) : List α → List α
  | [] => [a]
  | b :: l => if cmp a b = .gt then b :: insertSorted cmp a l else a :: b :: l

/-- The list in the order of the comparer, elements that it does not tell apart in their order. -/
def stableSort (cmp : Comparer α) : List α → List α
  | [] => []
  | a :: l => insertSorted cmp a (stableSort cmp l)

/-- Whether no element comes after the next one. -/
def inOrder (cmp : Comparer α) : List α → Bool
  | a :: b :: l => cmp a b != .gt && inOrder cmp (b :: l)
  | _ => true

theorem insertSorted_perm (cmp : Comparer α) (a : α) (l : List α) :
    (insertSorted cmp a l).Perm (a :: l) := by
  induction l with
  | nil => exact List.Perm.refl _
  | cons b l ih =>
    unfold insertSorted
    split
    · exact (ih.cons b).trans (List.Perm.swap a b l)
    · exact List.Perm.refl _

/-- Sorting moves elements and does nothing else. -/
theorem stableSort_perm (cmp : Comparer α) (l : List α) : (stableSort cmp l).Perm l := by
  induction l with
  | nil => exact List.Perm.refl _
  | cons a l ih => exact (insertSorted_perm cmp a _).trans (ih.cons a)

/-- A list that is in order stays as it is. -/
theorem stableSort_eq_self {cmp : Comparer α} {l : List α} (h : inOrder cmp l) :
    stableSort cmp l = l := by
  induction l with
  | nil => rfl
  | cons a l ih =>
    cases l with
    | nil => rfl
    | cons b l =>
      simp only [inOrder, Bool.and_eq_true, bne_iff_ne, ne_eq] at h
      rw [stableSort, ih h.2, insertSorted, if_neg h.1]

end Comparer

end DeclStyle
