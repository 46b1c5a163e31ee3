import DeclStyle.Proofs.Order.Incremental

/-!
# Places in lists out of order

The two ways to find the place of a new element ask nothing of the list.  This is what they find in
any list, said without a search.

By rank the new element goes behind the last element of the greatest rank up to its own.  The
closest rank counts, and not the latest position: an element of a lower rank further behind is of no
account.  By a comparer it goes behind the last element that equals it, whatever is greater on
either side.  Only where no element does, the first greater one counts.  The comparer need not obey
any law.

* `Placement.RankedPlace`, `Placement.byRank_eq_iff` — the place by rank;
* `Placement.ranksTried`, `Placement.closest?_eq_findSome?` — the search for it tries ranks of eight
  bits, and never counts beyond them;
* `Placement.ComparedPlace`, `Placement.byComparer_eq_iff` — the place by a comparer.
-/

namespace DeclStyle.Placement

variable {α : Type}

/-! ## By rank -/

/-- The place of a rank in a list. -/
inductive RankedPlace (rank : α → Rank) (target : Rank) (l : List α) : Nat → Prop where
  /-- Behind the anchor: no element up to the target is above it, and none behind it has its
  rank. -/
  | behindAnchor {front back : List α} {g : α} :
      l = front ++ g :: back → rank g ≤ target → (∀ b ∈ l, rank b ≤ target → rank b ≤ rank g) →
      (∀ b ∈ back, rank b ≠ rank g) → RankedPlace rank target l (front.length + 1)
  /-- In front of everything, where all elements are above the target. -/
  | first : (∀ b ∈ l, target < rank b) → RankedPlace rank target l 0

variable {rank : α → Rank} {target : Rank} {l : List α} {place : Nat}

theorem rankedPlace_byRank (rank : α → Rank) (target : Rank) (l : List α) :
    RankedPlace rank target l (byRank (l.map rank) target) := by
  rcases closest?_eq (l.map rank) target.val with
    ⟨hnone, habove⟩ | ⟨before, r, after, hsplit, hsome, hle, hgreatest, hlast⟩
  · have hplace : byRank (l.map rank) target = 0 := by simp [byRank, hnone]
    rw [hplace]
    exact .first fun b hb => habove (rank b) (List.mem_map_of_mem hb)
  · obtain ⟨front, rest, rfl, rfl, hrest⟩ := List.map_eq_append_iff.1 hsplit
    obtain ⟨g, back, rfl, rfl, rfl⟩ := List.map_eq_cons_iff.1 hrest
    have hplace : byRank ((front ++ g :: back).map rank) target = front.length + 1 := by
      rw [byRank, hsome, List.length_map]
    rw [hplace]
    refine .behindAnchor rfl hle (fun b hb => hgreatest (rank b) (List.mem_map_of_mem hb)) ?_
    exact fun b hb heq => hlast (heq ▸ List.mem_map_of_mem hb)

theorem RankedPlace.byRank_eq (h : RankedPlace rank target l place) :
    byRank (l.map rank) target = place := by
  cases h with
  | first habove =>
    have hplace : IsPlace target [] (l.map rank) := by
      constructor
      · intro g hg
        cases hg
      · intro r hr hle
        obtain ⟨b, hb, rfl⟩ := List.mem_map.1 hr
        exact absurd hle (not_le_of_gt (habove b hb))
    exact hplace.byRank_eq
  | @behindAnchor front back g hsplit hle hgreatest hlast =>
    subst hsplit
    have hplace : IsPlace target (front.map rank ++ [rank g]) (back.map rank) := by
      constructor
      · intro r hr
        obtain rfl : rank g = r := by simpa using hr
        refine ⟨hle, fun r hr hr' => ?_⟩
        have hmem : r ∈ (front ++ [g]).map rank := by simpa using hr
        obtain ⟨b, hb, rfl⟩ := List.mem_map.1 hmem
        rw [List.append_cons] at hgreatest
        exact hgreatest b (List.mem_append_left back hb) hr'
      · intro r hr hr'
        obtain ⟨b, hb, rfl⟩ := List.mem_map.1 hr
        refine ⟨rank g, by simp, lt_of_le_of_ne ?_ (hlast b hb)⟩
        exact hgreatest b (List.mem_append_right front (List.mem_cons_of_mem g hb)) hr'
    have heq := hplace.byRank_eq
    rw [List.append_assoc, List.singleton_append] at heq
    simpa using heq

/-- **The place by rank in any list.** -/
theorem byRank_eq_iff : byRank (l.map rank) target = place ↔ RankedPlace rank target l place :=
  ⟨fun h => h ▸ rankedPlace_byRank rank target l, RankedPlace.byRank_eq⟩

/-- A closer rank in front goes before a lower one behind. -/
example : byRank [0, 4, 1, 0] 2 = 3 := by decide

/-! ### The ranks tried -/

/-- The last eight bits of a number. -/
def lowByte (n : Nat) : Rank := ⟨n % 256, Nat.mod_lt n (Nat.zero_lt_succ 255)⟩

theorem val_lowByte {n : Nat} (h : n < 256) : (lowByte n).val = n := Nat.mod_eq_of_lt h

/-- The ranks from a target down to zero, counted in eight bits. -/
def ranksTried (target : Rank) : List Rank := (List.range (target.val + 1)).reverse.map lowByte

/-- The count in eight bits never wraps around. -/
theorem map_val_ranksTried (target : Rank) :
    (ranksTried target).map Fin.val = (List.range (target.val + 1)).reverse := by
  rw [ranksTried, List.map_map]
  refine (List.map_congr_left fun n hn => ?_).trans (List.map_id _)
  have hle : n < target.val + 1 := by simpa using hn
  exact val_lowByte (by omega)

/-- The search for the anchor takes the first rank tried that occurs. -/
theorem closest?_eq_findSome? (ranks : List Rank) (target : Rank) :
    closest? ranks target.val =
      (ranksTried target).findSome? fun r => lastIdx? (· == r) ranks := by
  have htest : ∀ n < 256, (fun r : Rank => r.val == n) = (· == lowByte n) := by
    intro n hn
    funext r
    rw [Bool.eq_iff_iff, beq_iff_eq, beq_iff_eq, Fin.ext_iff, val_lowByte hn]
  obtain ⟨n, hn⟩ := target
  simp only [ranksTried]
  induction n with
  | zero => simp [closest?, htest 0 hn]
  | succ n ih =>
    rw [List.range_succ, List.reverse_append, List.reverse_singleton, List.singleton_append,
      List.map_cons, List.findSome?_cons, closest?, htest (n + 1) hn, ih (by omega)]
    cases lastIdx? (· == lowByte (n + 1)) ranks <;> rfl

/-! ## By a comparer -/

variable {cmp : Comparer α} {a : α}

/-- The place that a comparer gives a new element in a list. -/
inductive ComparedPlace (cmp : Comparer α) (l : List α) (a : α) : Nat → Prop where
  /-- Behind the last element that equals the new one. -/
  | behindEqual {front back : List α} {b : α} :
      l = front ++ b :: back → cmp b a = .eq → (∀ c ∈ back, cmp c a ≠ .eq) →
      ComparedPlace cmp l a (front.length + 1)
  /-- In front of the first greater element, where none equals the new one. -/
  | beforeGreater {front back : List α} {b : α} :
      (∀ c ∈ l, cmp c a ≠ .eq) → l = front ++ b :: back → cmp b a = .gt →
      (∀ c ∈ front, cmp c a ≠ .gt) → ComparedPlace cmp l a front.length
  /-- At the end, where no element equals the new one and none is greater. -/
  | atEnd : (∀ c ∈ l, cmp c a ≠ .eq) → (∀ c ∈ l, cmp c a ≠ .gt) → ComparedPlace cmp l a l.length

/-- What neither equals an element nor is greater is less. -/
theorem eq_lt_of_ne {b : α} (heq : cmp b a ≠ .eq) (hgt : cmp b a ≠ .gt) : cmp b a = .lt := by
  cases h : cmp b a with
  | lt => rfl
  | eq => exact absurd h heq
  | gt => exact absurd h hgt

theorem ComparedPlace.byComparer_eq (h : ComparedPlace cmp l a place) :
    byComparer cmp l a = place := by
  cases h with
  | behindEqual hsplit heq hlast =>
    rw [hsplit]
    exact byComparer_eq_of_last_eq heq hlast
  | @beforeGreater front back b hnone hsplit hgt hfirst =>
    subst hsplit
    rw [List.forall_mem_append] at hnone
    refine byComparer_eq_of_first_gt ?_ ?_ hnone.2
    · intro c hc
      exact eq_lt_of_ne (hnone.1 c hc) (hfirst c hc)
    · rintro c ⟨⟩
      exact hgt
  | atEnd hnone hless =>
    have hend : byComparer cmp (l ++ []) a = l.length :=
      byComparer_eq_of_first_gt (fun c hc => eq_lt_of_ne (hnone c hc) (hless c hc))
        (fun b hb => nomatch hb) (fun b hb => nomatch hb)
    rwa [List.append_nil] at hend

/-- Every list has such a place, whatever the comparer. -/
theorem exists_comparedPlace (cmp : Comparer α) (l : List α) (a : α) :
    ∃ place, ComparedPlace cmp l a place := by
  cases hequal : lastIdx? (fun b => cmp b a == .eq) l with
  | some i =>
    obtain ⟨front, b, back, hsplit, -, heq, hlast⟩ := exists_append_of_lastIdx? hequal
    exact ⟨_, .behindEqual hsplit (by simpa using heq) fun c hc => by simpa using hlast c hc⟩
  | none =>
    have hnone : ∀ c ∈ l, cmp c a ≠ .eq := fun c hc => by
      simpa using eq_false_of_lastIdx?_eq_none hequal c hc
    cases hgreater : l.find? (fun b => cmp b a == .gt) with
    | none =>
      rw [List.find?_eq_none] at hgreater
      exact ⟨_, .atEnd hnone fun c hc => by simpa using hgreater c hc⟩
    | some b =>
      obtain ⟨hgt, front, back, hsplit, hfirst⟩ := List.find?_eq_some_iff_append.1 hgreater
      refine ⟨_, .beforeGreater hnone hsplit (by simpa using hgt) fun c hc => ?_⟩
      simpa using hfirst c hc

/-- **The place by a comparer in any list.** -/
theorem byComparer_eq_iff : byComparer cmp l a = place ↔ ComparedPlace cmp l a place := by
  refine ⟨?_, ComparedPlace.byComparer_eq⟩
  rintro rfl
  obtain ⟨place, h⟩ := exists_comparedPlace cmp l a
  exact h.byComparer_eq.symm ▸ h

/-- An equal element settles the place, with a greater one on either side of it. -/
example : byComparer (compareOn id) ([5, 3, 9, 1] : List Nat) 3 = 2 := by decide

end DeclStyle.Placement
