import DeclStyle.Proofs.Order.Sorted

/-!
# Stability

A stable sort moves an element in front of another one only where the comparer puts it there.
Elements that it does not tell apart stay in the order in which they stood, whatever that order is
taken to be.

* `Comparer.filter_stableSort` — elements none of which comes after another are left in their order;
* `Comparer.IsStableSort` — what it means to be a list stably sorted; there is one such list
  (`Comparer.isStableSort_iff`);
* `Comparer.stableSort_map` — a change that the comparer does not see may be made before or after
  sorting;
* `Comparer.sortAlong` — a second list is taken along, each entry with its element.
-/

namespace DeclStyle.Comparer

variable {α β : Type} {cmp : Comparer α}

/-- A list is in order exactly if nothing in it comes after anything behind it. -/
theorem inOrder_iff_pairwise [Std.TransCmp cmp] {l : List α} :
    inOrder cmp l ↔ l.Pairwise fun a b => cmp a b ≠ .gt := by
  refine ⟨pairwise_of_inOrder, fun h => ?_⟩
  induction l with
  | nil => rfl
  | cons a l ih =>
    obtain ⟨hhead, htail⟩ := List.pairwise_cons.1 h
    exact inOrder_cons (fun b hb => hhead b (List.mem_of_mem_head? hb)) (ih htail)

theorem compareOn_ne_gt_iff {rank : α → Rank} {a b : α} :
    compareOn rank a b ≠ .gt ↔ rank a ≤ rank b := Nat.compare_ne_gt

/-- A list is in order of rank exactly if no rank in it is above one behind it. -/
theorem inOrder_compareOn_iff {rank : α → Rank} {l : List α} :
    inOrder (compareOn rank) l ↔ l.Pairwise fun a b => rank a ≤ rank b := by
  simp only [inOrder_iff_pairwise, compareOn_ne_gt_iff]

/-! ## Elements that are not told apart -/

theorem filter_insertSorted {p : α → Bool} (h : ∀ a b, p a → p b → cmp a b ≠ .gt) (a : α)
    (l : List α) : (insertSorted cmp a l).filter p = (a :: l).filter p := by
  induction l with
  | nil => rfl
  | cons b l ih =>
    rw [insertSorted]
    split
    · rename_i hab
      -- only one of the two is left, so it does not matter which comes first
      rw [List.filter_cons, ih]
      by_cases ha : p a
      · have hb : ¬ p b := fun hb => h a b ha hb hab
        simp [ha, hb]
      · simp [ha, List.filter_cons]
    · rfl

/-- **Elements none of which comes after another** are left in their order. -/
theorem filter_stableSort {p : α → Bool} (h : ∀ a b, p a → p b → cmp a b ≠ .gt) (l : List α) :
    (stableSort cmp l).filter p = l.filter p := by
  induction l with
  | nil => rfl
  | cons a l ih =>
    rw [stableSort, filter_insertSorted h, List.filter_cons, ih, ← List.filter_cons]

/-! ## The stably sorted list -/

/-- A list is another one stably sorted: it has the same elements, none behind one that it should
come before, and those that the comparer does not tell from a given one in their old order. -/
structure IsStableSort (cmp : Comparer α) (l sorted : List α) : Prop where
  perm : sorted.Perm l
  ordered : sorted.Pairwise fun a b => cmp a b ≠ .gt
  stable (a : α) : sorted.filter (cmp a · == .eq) = l.filter (cmp a · == .eq)

theorem isStableSort_stableSort [Std.TransCmp cmp] (l : List α) :
    IsStableSort cmp l (stableSort cmp l) where
  perm := stableSort_perm cmp l
  ordered := inOrder_iff_pairwise.1 (inOrder_stableSort l)
  stable a := by
    refine filter_stableSort (fun b c hb hc => ?_) l
    -- both are equal to `a`, hence to each other
    have hbc := Std.TransCmp.eq_trans (Std.OrientedCmp.eq_symm (beq_iff_eq.1 hb)) (beq_iff_eq.1 hc)
    simp [hbc]

/-- Sorted lists of the same elements are equal if elements that are not told apart have the same
order in both. -/
theorem eq_of_filter_eq [Std.TransCmp cmp] {s t : List α} (hperm : s.Perm t)
    (hs : s.Pairwise fun a b => cmp a b ≠ .gt) (ht : t.Pairwise fun a b => cmp a b ≠ .gt)
    (h : ∀ a, s.filter (cmp a · == .eq) = t.filter (cmp a · == .eq)) : s = t := by
  induction s generalizing t with
  | nil => exact (List.nil_perm.1 hperm).symm
  | cons a s ih =>
    cases t with
    | nil => exact absurd hperm.length_eq (Nat.succ_ne_zero _)
    | cons b t =>
      obtain ⟨hafter, hstail⟩ := List.pairwise_cons.1 hs
      obtain ⟨hafter', httail⟩ := List.pairwise_cons.1 ht
      have hself : ∀ c, cmp c c = .eq := fun _ => Std.ReflCmp.compare_self
      -- neither head comes after the other, each being in the other list
      have hab : cmp a b ≠ .gt := by
        rcases List.mem_cons.1 (hperm.mem_iff.2 List.mem_cons_self) with rfl | hb
        · simp [hself]
        · exact hafter b hb
      have hba : cmp b a ≠ .gt := by
        rcases List.mem_cons.1 (hperm.mem_iff.1 List.mem_cons_self) with rfl | ha
        · simp [hself]
        · exact hafter' a ha
      have heq : cmp a b = .eq := by
        cases hcmp : cmp a b with
        | lt => exact absurd (Std.OrientedCmp.gt_of_lt hcmp) hba
        | eq => rfl
        | gt => exact absurd hcmp hab
      have hhead := h a
      rw [List.filter_cons_of_pos (by simp [hself]), List.filter_cons_of_pos (by simp [heq])]
        at hhead
      obtain rfl := (List.cons.inj hhead).1
      refine congrArg (a :: ·) (ih ((List.perm_cons a).1 hperm) hstail httail fun c => ?_)
      have hc := h c
      rw [List.filter_cons, List.filter_cons] at hc
      split at hc
      · exact (List.cons.inj hc).2
      · exact hc

/-- **There is one stably sorted list**, and the sort makes it. -/
theorem isStableSort_iff [Std.TransCmp cmp] {l sorted : List α} :
    IsStableSort cmp l sorted ↔ sorted = stableSort cmp l := by
  constructor
  · intro h
    have hsorts : IsStableSort cmp l (stableSort cmp l) := isStableSort_stableSort l
    exact eq_of_filter_eq (h.perm.trans hsorts.perm.symm) h.ordered hsorts.ordered
      fun a => (h.stable a).trans (hsorts.stable a).symm
  · rintro rfl
    exact isStableSort_stableSort l

/-! ## Changes that the comparer does not see -/

/-- **Sorting and a change of the elements** may be done in either order, if the changed elements
compare as the elements themselves do. -/
theorem stableSort_map {cmp' : Comparer β} {f : α → β}
    (h : ∀ a b, cmp' (f a) (f b) = cmp a b) (l : List α) :
    stableSort cmp' (l.map f) = (stableSort cmp l).map f := by
  have hinsert : ∀ (a : α) (l : List α),
      insertSorted cmp' (f a) (l.map f) = (insertSorted cmp a l).map f := by
    intro a l
    induction l with
    | nil => rfl
    | cons b l ih =>
      rw [List.map_cons, insertSorted, insertSorted, h, ih]
      split <;> rfl
  induction l with
  | nil => rfl
  | cons a l ih => rw [List.map_cons, stableSort, ih, hinsert, stableSort]

/-- A list of entries in the order into which sorting brings the elements to which they belong. -/
def sortAlong (cmp : Comparer α) (l : List α) (entries : List β) : List β :=
  (stableSort (fun x y : α × β => cmp x.1 y.1) (l.zip entries)).map Prod.snd

/-- Entries that are read off the elements may as well be read off the sorted ones. -/
theorem sortAlong_map (f : α → β) (l : List α) :
    sortAlong cmp l (l.map f) = (stableSort cmp l).map f := by
  have hpairs : l.zip (l.map f) = l.map fun a => (a, f a) := by
    induction l with
    | nil => rfl
    | cons a l ih => rw [List.map_cons, List.zip_cons_cons, ih, List.map_cons]
  have hsorted : stableSort (fun x y : α × β => cmp x.1 y.1) (l.map fun a => (a, f a)) =
      (stableSort cmp l).map fun a => (a, f a) := stableSort_map (fun _ _ => rfl) l
  rw [sortAlong, hpairs, hsorted, List.map_map]
  rfl

end DeclStyle.Comparer
