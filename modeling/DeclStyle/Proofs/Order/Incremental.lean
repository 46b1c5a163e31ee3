import DeclStyle.Members
import DeclStyle.Proofs.Order.Placement
import DeclStyle.Proofs.Order.Stability
import Mathlib.Data.List.Induction

/-!
# Sorting by insertion

The two ways to find the place of a new element are written in opposite styles, and neither sorts.
On a list in order they agree all the same: both put the new element behind everything that does not
come after it.  That is what a stable sort does with an element that it meets last, so elements that
are inserted one by one end up stably sorted.

* `Comparer.stableSort_concat` — sorting a list with one more element at its end;
* `Placement.byComparer_append`, `Placement.IsPlace.of_pairwise` — the place of a new element in a
  list in order, by a comparer and by rank;
* `Placement.byRank_eq_byComparer` — there the two places are one;
* `Placement.pairwise_insertIdx_byRank` — an insertion by rank keeps a list in order;
* `Comparer.foldl_eq_stableSort` — insertions one by one sort, if each keeps to that place;
* `Members.foldl_insert_eq_stableSort`, `Members.foldl_insertBy_eq_stableSort` — so members that are
  inserted one by one are sorted.
-/

namespace DeclStyle

namespace Comparer

variable {α : Type} {cmp : Comparer α}

/-! ## Elements at the end -/

/-- Puts an element in front of the first one that comes after it. -/
def appendSorted (cmp : Comparer α) (a : α) : List α → List α
  | [] => [a]
  | b :: l => if cmp b a = .gt then a :: b :: l else b :: appendSorted cmp a l

/-- An element that is sorted in from the front and one that is sorted in from the end do not get
into each other's way, whether or not the list is in order. -/
theorem insertSorted_appendSorted [Std.TransCmp cmp] (a b : α) (l : List α) :
    insertSorted cmp a (appendSorted cmp b l) = appendSorted cmp b (insertSorted cmp a l) := by
  induction l with
  | nil =>
    by_cases hab : cmp a b = .gt
    · simp [insertSorted, appendSorted, hab]
    · simp [insertSorted, appendSorted, hab]
  | cons c l ih =>
    by_cases hcb : cmp c b = .gt
    · by_cases hac : cmp a c = .gt
      · -- `b` comes before `c`, and `c` before `a`
        have hab : cmp a b = .gt := Std.TransCmp.gt_trans hac hcb
        simp [insertSorted, appendSorted, hcb, hac, hab]
      · by_cases hab : cmp a b = .gt
        · simp [insertSorted, appendSorted, hcb, hac, hab]
        · simp [insertSorted, appendSorted, hcb, hac, hab]
    · by_cases hac : cmp a c = .gt
      · simp [insertSorted, appendSorted, hcb, hac, ih]
      · -- `a` does not come after `c`, nor `c` after `b`
        have hab : cmp a b ≠ .gt := by
          have htrans := Std.TransCmp.isLE_trans (Ordering.ne_gt_iff_isLE.1 hac)
            (Ordering.ne_gt_iff_isLE.1 hcb)
          exact Ordering.ne_gt_iff_isLE.2 htrans
        simp [insertSorted, appendSorted, hcb, hac, hab]

/-- **A stable sort puts the last element** behind everything that does not come after it. -/
theorem stableSort_concat [Std.TransCmp cmp] (l : List α) (a : α) :
    stableSort cmp (l ++ [a]) = appendSorted cmp a (stableSort cmp l) := by
  induction l with
  | nil => rfl
  | cons b l ih => rw [List.cons_append, stableSort, ih, insertSorted_appendSorted, ← stableSort]

/-- In a list in order, what comes after an element is behind what does not. -/
theorem exists_append_of_inOrder [Std.TransCmp cmp] {l : List α} (h : inOrder cmp l) (a : α) :
    ∃ front back, l = front ++ back ∧ (∀ b ∈ front, cmp b a ≠ .gt) ∧
      (∀ b ∈ back, cmp b a = .gt) ∧ appendSorted cmp a l = front ++ a :: back := by
  induction l with
  | nil => exact ⟨[], [], rfl, by simp, by simp, rfl⟩
  | cons b l ih =>
    by_cases hba : cmp b a = .gt
    · refine ⟨[], b :: l, rfl, by simp, ?_, by simp [appendSorted, hba]⟩
      intro c hc
      rcases List.mem_cons.1 hc with rfl | hc
      · exact hba
      · have hbc := (List.pairwise_cons.1 (pairwise_of_inOrder h)).1 c hc
        have hcb : (cmp c b).isGE := Std.OrientedCmp.isGE_iff_isLE.2 (Ordering.ne_gt_iff_isLE.1 hbc)
        exact Std.TransCmp.gt_of_isGE_of_gt hcb hba
    · obtain ⟨front, back, rfl, hfront, hback, happend⟩ := ih (inOrder_of_cons h)
      refine ⟨b :: front, back, rfl, ?_, hback, by simp [appendSorted, hba, happend]⟩
      intro c hc
      rcases List.mem_cons.1 hc with rfl | hc
      · exact hba
      · exact hfront c hc

/-- A list in order stays in order. -/
theorem inOrder_appendSorted [Std.TransCmp cmp] {l : List α} (h : inOrder cmp l) (a : α) :
    inOrder cmp (appendSorted cmp a l) := by
  rw [← stableSort_eq_self h, ← stableSort_concat]
  exact inOrder_stableSort _

/-- **Insertions one by one sort a list**, if each puts the new element behind everything that does
not come after it. -/
theorem foldl_eq_stableSort [Std.TransCmp cmp] {insert : List α → α → List α}
    (h : ∀ l a, inOrder cmp l → insert l a = appendSorted cmp a l) (l : List α) :
    l.foldl insert [] = stableSort cmp l := by
  induction l using List.reverseRecOn with
  | nil => rfl
  | append_singleton l a ih =>
    have hsorted : inOrder cmp (stableSort cmp l) := inOrder_stableSort l
    rw [List.foldl_append, ih, List.foldl_cons, List.foldl_nil, h _ a hsorted, stableSort_concat]

end Comparer

/-! ## Places in a list in order -/

namespace Placement

variable {α : Type} {cmp : Comparer α} {a : α}

/-- Elements in front of a settled place do not change it. -/
theorem search_append_of_settled {start : Nat} {front back : List α}
    (h : (search cmp a (start + front.length) back).settled) :
    search cmp a start (front ++ back) = search cmp a (start + front.length) back := by
  induction front generalizing start with
  | nil => rfl
  | cons b front ih =>
    have hstart : start + (b :: front).length = start + 1 + front.length := by
      simp only [List.length_cons]
      omega
    rw [hstart] at h ⊢
    rw [List.cons_append, search, ih h]
    cases cmp b a <;> simp [Search.step, h]

/-- Elements in front that come before the new one do not change its place. -/
theorem search_append_of_lt {start : Nat} {front back : List α}
    (h : ∀ b ∈ front, cmp b a = .lt) :
    search cmp a start (front ++ back) = search cmp a (start + front.length) back := by
  induction front generalizing start with
  | nil => rfl
  | cons b front ih =>
    have hstart : start + (b :: front).length = start + 1 + front.length := by
      simp only [List.length_cons]
      omega
    rw [List.forall_mem_cons] at h
    rw [hstart, List.cons_append, search, ih h.2, h.1, Search.step]

/-- Only an equal element settles the place. -/
theorem settled_search_eq_false (start : Nat) {l : List α} (h : ∀ b ∈ l, cmp b a ≠ .eq) :
    (search cmp a start l).settled = false := by
  induction l generalizing start with
  | nil => rfl
  | cons b l ih =>
    rw [List.forall_mem_cons] at h
    have hrest := ih (start + 1) h.2
    rw [search]
    cases hb : cmp b a with
    | lt => simpa [Search.step] using hrest
    | eq => exact absurd hb h.1
    | gt => simp [Search.step, hrest]

/-- The place behind the last equal element. -/
theorem byComparer_eq_of_last_eq {front back : List α} {b : α} (hb : cmp b a = .eq)
    (hback : ∀ c ∈ back, cmp c a ≠ .eq) :
    byComparer cmp (front ++ b :: back) a = front.length + 1 := by
  have hstep : search cmp a (0 + front.length) (b :: back) = ⟨0 + front.length + 1, true⟩ := by
    have hopen := settled_search_eq_false (0 + front.length + 1) hback
    rw [search, hb, Search.step, hopen]
    simp
  rw [byComparer, search_append_of_settled (by rw [hstep]), hstep, Nat.zero_add]

/-- The place in front of the first greater element, where none is equal. -/
theorem byComparer_eq_of_first_gt {front back : List α} (hfront : ∀ b ∈ front, cmp b a = .lt)
    (hhead : ∀ b ∈ back.head?, cmp b a = .gt) (hback : ∀ b ∈ back, cmp b a ≠ .eq) :
    byComparer cmp (front ++ back) a = front.length := by
  rw [byComparer, search_append_of_lt hfront, Nat.zero_add]
  cases back with
  | nil => rfl
  | cons b back =>
    rw [List.forall_mem_cons] at hback
    have hopen := settled_search_eq_false (front.length + 1) hback.2
    rw [search, hhead b rfl, Search.step, hopen]
    simp

/-- **The place by a comparer in a list in order** is behind everything that does not come after the
new element. -/
theorem byComparer_append [Std.TransCmp cmp] {front back : List α}
    (horder : front.Pairwise fun b c => cmp b c ≠ .gt) (hfront : ∀ b ∈ front, cmp b a ≠ .gt)
    (hback : ∀ b ∈ back, cmp b a = .gt) : byComparer cmp (front ++ back) a = front.length := by
  have hne : ∀ b ∈ back, cmp b a ≠ .eq := by
    intro b hb heq
    rw [hback b hb] at heq
    cases heq
  by_cases hlast : ∃ g ∈ front.getLast?, cmp g a = .eq
  · obtain ⟨g, hg, heq⟩ := hlast
    obtain ⟨init, rfl⟩ := List.getLast?_eq_some_iff.1 hg
    rw [List.append_assoc, List.singleton_append, byComparer_eq_of_last_eq heq hne]
    simp
  · -- the last element in front comes before the new one, and so do those before it
    refine byComparer_eq_of_first_gt ?_ ?_ hne
    · intro b hb
      obtain ⟨init, g, rfl⟩ := (List.eq_nil_or_concat front).resolve_left (List.ne_nil_of_mem hb)
      rw [List.concat_eq_append] at hb hfront horder hlast
      have hga : cmp g a = .lt := by
        have hgt := hfront g (by simp)
        have heq : cmp g a ≠ .eq := fun heq => hlast ⟨g, by simp, heq⟩
        cases hcmp : cmp g a with
        | lt => rfl
        | eq => exact absurd hcmp heq
        | gt => exact absurd hcmp hgt
      rcases List.mem_append.1 hb with hb | hb
      · have hbg := (List.pairwise_append.1 horder).2.2 b hb g (by simp)
        exact Std.TransCmp.lt_of_isLE_of_lt (Ordering.ne_gt_iff_isLE.1 hbg) hga
      · rw [List.mem_singleton.1 hb, hga]
    · intro b hb
      exact hback b (List.mem_of_mem_head? hb)

/-- **The place by rank in a list in order** is there too. -/
theorem IsPlace.of_pairwise {target : Rank} {front back : List Rank}
    (horder : front.Pairwise (· ≤ ·)) (hfront : ∀ r ∈ front, r ≤ target)
    (hback : ∀ r ∈ back, target < r) : IsPlace target front back := by
  constructor
  · intro g hg
    obtain ⟨init, rfl⟩ := List.getLast?_eq_some_iff.1 hg
    refine ⟨hfront g (by simp), ?_⟩
    intro r hr _
    rcases List.mem_append.1 hr with hr | hr
    · exact (List.pairwise_append.1 horder).2.2 r hr g (by simp)
    · exact le_of_eq (List.mem_singleton.1 hr)
  · intro r hr hle
    exact absurd hle (not_le_of_gt (hback r hr))

/-- What is inserted by a comparer into a list in order goes behind everything that does not come
after it. -/
theorem insertIdx_byComparer [Std.TransCmp cmp] {l : List α} (h : Comparer.inOrder cmp l) (a : α) :
    l.insertIdx (byComparer cmp l a) a = Comparer.appendSorted cmp a l := by
  have horder := Comparer.pairwise_of_inOrder h
  obtain ⟨front, back, rfl, hfront, hback, happend⟩ := Comparer.exists_append_of_inOrder h a
  rw [happend, byComparer_append (List.pairwise_append.1 horder).1 hfront hback,
    insertIdx_append_length]

/-- **In a list in order of rank** the place by rank is the one that the comparer of ranks finds. -/
theorem byRank_eq_byComparer {rank : α → Rank} {l : List α}
    (h : Comparer.inOrder (compareOn rank) l) (a : α) :
    byRank (l.map rank) (rank a) = byComparer (compareOn rank) l a := by
  have horder := Comparer.inOrder_compareOn_iff.1 h
  have hpairwise := Comparer.pairwise_of_inOrder h
  obtain ⟨front, back, rfl, hfront, hback, -⟩ := Comparer.exists_append_of_inOrder h a
  have hplace : IsPlace (rank a) (front.map rank) (back.map rank) := by
    refine .of_pairwise ?_ ?_ ?_
    · exact (List.pairwise_append.1 horder).1.map _ fun _ _ => id
    · intro r hr
      obtain ⟨b, hb, rfl⟩ := List.mem_map.1 hr
      exact Comparer.compareOn_ne_gt_iff.1 (hfront b hb)
    · intro r hr
      obtain ⟨b, hb, rfl⟩ := List.mem_map.1 hr
      exact compare_gt_iff_gt.1 (hback b hb)
  rw [List.map_append, hplace.byRank_eq, List.length_map,
    byComparer_append (List.pairwise_append.1 hpairwise).1 hfront hback]

/-- What is inserted by rank into a list in order goes behind everything that does not come after
it. -/
theorem insertIdx_byRank {rank : α → Rank} {l : List α}
    (h : Comparer.inOrder (compareOn rank) l) (a : α) :
    l.insertIdx (byRank (l.map rank) (rank a)) a = Comparer.appendSorted (compareOn rank) a l := by
  rw [byRank_eq_byComparer h, insertIdx_byComparer h]

/-- **An insertion by rank keeps order.** -/
theorem pairwise_insertIdx_byRank {ranks : List Rank} (h : ranks.Pairwise (· ≤ ·))
    (target : Rank) : (ranks.insertIdx (byRank ranks target) target).Pairwise (· ≤ ·) := by
  have horder : Comparer.inOrder (compareOn id) ranks := Comparer.inOrder_compareOn_iff.2 h
  have hinsert := insertIdx_byRank horder target
  rw [List.map_id, id_eq] at hinsert
  rw [hinsert]
  exact Comparer.inOrder_compareOn_iff.1 (Comparer.inOrder_appendSorted horder target)

end Placement

/-! ## Members -/

namespace Members

/-- **Members inserted by rank, one by one,** are sorted by rank. -/
theorem foldl_insert_eq_stableSort (members : List Declaration) :
    members.foldl insert [] = Comparer.stableSort (compareOn Declaration.rank) members :=
  Comparer.foldl_eq_stableSort (fun _ a h => Placement.insertIdx_byRank h a) members

/-- **Members inserted by a total preorder, one by one,** are sorted by it. -/
theorem foldl_insertBy_eq_stableSort (cmp : Comparer Declaration) [Std.TransCmp cmp]
    (members : List Declaration) :
    members.foldl (insertBy cmp) [] = Comparer.stableSort cmp members :=
  Comparer.foldl_eq_stableSort (fun _ a h => Placement.insertIdx_byComparer h a) members

end Members

end DeclStyle
