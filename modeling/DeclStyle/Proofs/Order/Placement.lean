import DeclStyle.Order.Placement
import Mathlib.Data.List.InsertIdx
import Mathlib.Order.Fin.Basic

/-!
# Places by rank

A new element goes behind its anchor, which is the last element of the greatest rank up to its own.
That splits a sequence into the elements in front of the place, which end with the anchor, and those
behind it, which are either above the new element or below the anchor.  A sequence has exactly one
such split, whether it is in order or not.

Two new elements of different ranks do not get into each other's way.  The one of the lower rank
never takes the other one for an anchor.  The one of the higher rank either has an anchor above the
lower rank, and keeps it, or has the same anchor as the other, and then goes right behind it.

* `Placement.IsPlace` — the split at the place of a new element;
* `Placement.exists_isPlace`, `Placement.IsPlace.byRank_eq` — the place by rank is the one that
  splits a sequence so;
* `Placement.byRank_behind_low` — where two new elements come to stand next to each other;
* `Placement.byRankAfter_eq` — the places of two new elements, each with and without the other one
  inserted first;
* `Placement.insertIdx_byRank_comm` — so the order of the two insertions does not matter.
-/

namespace DeclStyle

/-- What is inserted behind the first part of a list comes between its parts. -/
theorem insertIdx_append_length {α : Type} (before after : List α) (a : α) :
    (before ++ after).insertIdx before.length a = before ++ a :: after := by
  induction before with
  | nil => rfl
  | cons b before ih => simp [ih]

namespace Placement

/-! ## Searching -/

section Search

variable {α : Type} {p : α → Bool} {l : List α}

theorem eq_false_of_lastIdx?_eq_none (h : lastIdx? p l = none) : ∀ a ∈ l, p a = false := by
  induction l with
  | nil => exact fun a ha => nomatch ha
  | cons b l ih =>
    rw [lastIdx?] at h
    split at h
    · cases h
    · rename_i hrest
      split at h
      · cases h
      · rename_i hb
        exact List.forall_mem_cons.2 ⟨by simpa using hb, ih hrest⟩

/-- The last position at which a test holds splits a list. -/
theorem exists_append_of_lastIdx? {i : Nat} (h : lastIdx? p l = some i) :
    ∃ before a after, l = before ++ a :: after ∧ before.length = i ∧ p a ∧
      ∀ b ∈ after, p b = false := by
  induction l generalizing i with
  | nil => cases h
  | cons b l ih =>
    rw [lastIdx?] at h
    split at h
    · rename_i j hrest
      obtain rfl := Option.some.inj h
      obtain ⟨before, a, after, rfl, rfl, ha, hafter⟩ := ih hrest
      exact ⟨b :: before, a, after, rfl, rfl, ha, hafter⟩
    · rename_i hrest
      split at h
      · rename_i hb
        obtain rfl := Option.some.inj h
        exact ⟨[], b, l, rfl, rfl, hb, eq_false_of_lastIdx?_eq_none hrest⟩
      · cases h

end Search

/-! ## The place of a rank -/

/-- The place of a rank is between these two parts of a sequence. -/
structure IsPlace (target : Rank) (front back : List Rank) : Prop where
  /-- The first part is empty or ends with the anchor, than which none in it is greater, except for
  those above the target. -/
  anchor : ∀ g ∈ front.getLast?, g ≤ target ∧ ∀ r ∈ front, r ≤ target → r ≤ g
  /-- What is in the second part is above the target or below the anchor. -/
  behind : ∀ r ∈ back, r ≤ target → ∃ g ∈ front.getLast?, r < g

/-- The last element of a rank splits a sequence. -/
theorem exists_append_of_lastIdx?_rank {ranks : List Rank} {n i : Nat}
    (h : lastIdx? (fun r : Rank => r.val == n) ranks = some i) :
    ∃ before g after, ranks = before ++ g :: after ∧ i = before.length ∧ g.val = n ∧
      g ∉ after := by
  obtain ⟨before, g, after, hsplit, hlength, hg, hafter⟩ := exists_append_of_lastIdx? h
  refine ⟨before, g, after, hsplit, hlength.symm, by simpa using hg, fun hmem => ?_⟩
  rw [hafter g hmem] at hg
  cases hg

/-- The search for the anchor finds none where all ranks are above the target, and otherwise the
last element of the greatest rank that is not. -/
theorem closest?_eq (ranks : List Rank) (target : Nat) :
    (closest? ranks target = none ∧ ∀ r ∈ ranks, target < r.val) ∨
    ∃ before g after, ranks = before ++ g :: after ∧
      closest? ranks target = some before.length ∧ g.val ≤ target ∧
      (∀ r ∈ ranks, r.val ≤ target → r ≤ g) ∧ g ∉ after := by
  induction target with
  | zero =>
    rw [closest?]
    cases h : lastIdx? (fun r : Rank => r.val == 0) ranks with
    | none =>
      refine .inl ⟨rfl, fun r hr => Nat.pos_of_ne_zero ?_⟩
      simpa using eq_false_of_lastIdx?_eq_none h r hr
    | some i =>
      obtain ⟨before, g, after, hsplit, rfl, hg, hafter⟩ := exists_append_of_lastIdx?_rank h
      refine .inr ⟨before, g, after, hsplit, rfl, Nat.le_of_eq hg, fun r _ hr => ?_, hafter⟩
      exact Fin.le_def.2 (hg ▸ hr)
  | succ target ih =>
    rw [closest?]
    cases h : lastIdx? (fun r : Rank => r.val == target + 1) ranks with
    | some i =>
      obtain ⟨before, g, after, hsplit, rfl, hg, hafter⟩ := exists_append_of_lastIdx?_rank h
      refine .inr ⟨before, g, after, hsplit, rfl, Nat.le_of_eq hg, fun r _ hr => ?_, hafter⟩
      exact Fin.le_def.2 (hg ▸ hr)
    | none =>
      have hne : ∀ r ∈ ranks, r.val ≠ target + 1 := fun r hr => by
        simpa using eq_false_of_lastIdx?_eq_none h r hr
      rcases ih with ⟨hnone, habove⟩ | ⟨before, g, after, hsplit, hsome, hg, hgreatest, hafter⟩
      · refine .inl ⟨hnone, fun r hr => ?_⟩
        have := hne r hr
        have := habove r hr
        omega
      · refine .inr ⟨before, g, after, hsplit, hsome, Nat.le_succ_of_le hg, ?_, hafter⟩
        intro r hr hle
        have := hne r hr
        exact hgreatest r hr (by omega)

/-- The place by rank is a place of the rank. -/
theorem exists_isPlace (ranks : List Rank) (target : Rank) :
    ∃ front back, ranks = front ++ back ∧ byRank ranks target = front.length ∧
      IsPlace target front back := by
  rcases closest?_eq ranks target.val with
    ⟨hnone, habove⟩ | ⟨before, g, after, hsplit, hsome, hg, hgreatest, hafter⟩
  · refine ⟨[], ranks, rfl, by simp [byRank, hnone], ⟨by simp, fun r hr hle => ?_⟩⟩
    exact absurd (habove r hr) (Nat.not_lt.2 hle)
  · refine ⟨before ++ [g], after, by simp [hsplit], by simp [byRank, hsome], ?_, ?_⟩
    · intro g' hg'
      obtain rfl : g = g' := by simpa using hg'
      refine ⟨hg, fun r hr => hgreatest r ?_⟩
      rw [hsplit, List.append_cons]
      exact List.mem_append_left after hr
    · intro r hr hle
      have hmem : r ∈ ranks := by simp [hsplit, hr]
      refine ⟨g, by simp, lt_of_le_of_ne (hgreatest r hmem hle) ?_⟩
      exact fun heq => hafter (heq ▸ hr)

/-- Of two places of a rank, none is behind the other. -/
theorem IsPlace.eq_nil_of_append {target : Rank} {front middle back : List Rank}
    (h : IsPlace target front (middle ++ back)) (h' : IsPlace target (front ++ middle) back) :
    middle = [] := by
  rcases List.eq_nil_or_concat middle with rfl | ⟨init, g', rfl⟩
  · rfl
  · -- the anchor of the place behind would be below the anchor of the place in front
    obtain ⟨hg', hgreatest⟩ := h'.anchor g' (by simp)
    obtain ⟨g, hg, hlt⟩ := h.behind g' (by simp) hg'
    have hle := hgreatest g (List.mem_append_left _ (List.mem_of_getLast? hg)) (h.anchor g hg).1
    exact absurd hlt (not_lt_of_ge hle)

/-- **A sequence has one place for a rank**, and the place by rank is that. -/
theorem IsPlace.byRank_eq {target : Rank} {front back : List Rank}
    (h : IsPlace target front back) : byRank (front ++ back) target = front.length := by
  obtain ⟨front', back', hsplit, hplace, h'⟩ := exists_isPlace (front ++ back) target
  rw [hplace]
  rcases List.append_eq_append_iff.1 hsplit with ⟨middle, rfl, rfl⟩ | ⟨middle, rfl, rfl⟩
  · rw [h.eq_nil_of_append h', List.append_nil]
  · rw [h'.eq_nil_of_append h, List.append_nil]

/-! ## Two new elements -/

section Two

variable {low high : Rank} {x y z : List Rank}

/-- An element that comes in front of others is not the last one. -/
theorem getLast?_append_cons (x : List Rank) (r : Rank) (hy : y ≠ []) :
    (x ++ r :: y).getLast? = (x ++ y).getLast? := by
  obtain ⟨init, g, rfl⟩ := (List.eq_nil_or_concat y).resolve_left hy
  rw [List.concat_eq_append, ← List.cons_append, ← List.append_assoc, ← List.append_assoc,
    List.getLast?_concat, List.getLast?_concat]

/-- Where the place of the lower rank is not behind that of the higher one, the element of the lower
rank goes in front of the other place, and may become its anchor. -/
theorem IsPlace.insert_low_in_front (hlow : IsPlace low x (y ++ z))
    (hhigh : IsPlace high (x ++ y) z) (hlt : low < high) : IsPlace high (x ++ low :: y) z := by
  rcases List.eq_nil_or_concat y with rfl | ⟨init, g, rfl⟩
  · -- both ranks have the same anchor, and the new element comes right behind it
    rw [List.append_nil] at hhigh
    constructor
    · intro g hg
      obtain rfl : low = g := by simpa using hg
      refine ⟨hlt.le, fun r hr hle => ?_⟩
      rcases List.mem_append.1 hr with hr | hr
      · obtain ⟨init, g, rfl⟩ := (List.eq_nil_or_concat x).resolve_left (List.ne_nil_of_mem hr)
        have hg : g ∈ (init.concat g).getLast? := by simp
        exact le_trans ((hhigh.anchor g hg).2 r hr hle) (hlow.anchor g hg).1
      · exact le_of_eq (List.mem_singleton.1 hr)
    · intro r hr hle
      obtain ⟨g, hg, hr⟩ := hhigh.behind r hr hle
      exact ⟨low, by simp, lt_of_lt_of_le hr (hlow.anchor g hg).1⟩
  · -- the anchor of the higher rank is above the lower one, and stays
    have hlast : (x ++ low :: init.concat g).getLast? = (x ++ init.concat g).getLast? :=
      getLast?_append_cons x low (by simp)
    obtain ⟨hg, hgreatest⟩ := hhigh.anchor g (by simp)
    have habove : low < g := by
      refine lt_of_not_ge fun hle => ?_
      obtain ⟨g', hg', hbelow⟩ := hlow.behind g (by simp) hle
      have hle' := (hlow.anchor g' hg').1.trans hlt.le
      exact absurd hbelow (not_lt_of_ge
        (hgreatest g' (List.mem_append_left _ (List.mem_of_getLast? hg')) hle'))
    constructor
    · intro g' hg'
      rw [hlast] at hg'
      obtain rfl : g = g' := by simpa using hg'
      refine ⟨hg, fun r hr hle => ?_⟩
      rw [List.mem_append, List.mem_cons] at hr
      rcases hr with hr | rfl | hr
      · exact hgreatest r (List.mem_append_left _ hr) hle
      · exact habove.le
      · exact hgreatest r (List.mem_append_right _ hr) hle
    · intro r hr hle
      rw [hlast]
      exact hhigh.behind r hr hle

/-- There the element of the higher rank stays behind the place of the lower one. -/
theorem IsPlace.insert_high_behind (hlow : IsPlace low x (y ++ z)) (hlt : low < high) :
    IsPlace low x (y ++ high :: z) := by
  refine ⟨hlow.anchor, fun r hr hle => ?_⟩
  simp only [List.mem_append, List.mem_cons] at hr
  rcases hr with hr | rfl | hr
  · exact hlow.behind r (List.mem_append_left z hr) hle
  · exact absurd hlt (not_lt_of_ge hle)
  · exact hlow.behind r (List.mem_append_right y hr) hle

/-- Where the place of the lower rank is behind that of the higher one, the anchor of the higher
rank is above the lower one, and stays. -/
theorem IsPlace.insert_low_behind (hlow : IsPlace low (x ++ y) z)
    (hhigh : IsPlace high x (y ++ z)) (hlt : low < high) (hy : y ≠ []) :
    IsPlace high x (y ++ low :: z) := by
  obtain ⟨init, g, rfl⟩ := (List.eq_nil_or_concat y).resolve_left hy
  obtain ⟨hg, hgreatest⟩ := hlow.anchor g (by simp)
  obtain ⟨g', hg', hbelow⟩ := hhigh.behind g (by simp) (hg.trans hlt.le)
  have habove : low < g' := by
    refine lt_of_not_ge fun hle => absurd hbelow (not_lt_of_ge ?_)
    exact hgreatest g' (List.mem_append_left _ (List.mem_of_getLast? hg')) hle
  refine ⟨hhigh.anchor, fun r hr hle => ?_⟩
  rw [List.mem_append, List.mem_cons] at hr
  rcases hr with hr | rfl | hr
  · exact hhigh.behind r (List.mem_append_left z hr) hle
  · exact ⟨g', hg', habove⟩
  · exact hhigh.behind r (List.mem_append_right _ hr) hle

/-- There the element of the higher rank is passed over by the place of the lower one. -/
theorem IsPlace.insert_high_in_front (hlow : IsPlace low (x ++ y) z) (hlt : low < high)
    (hy : y ≠ []) : IsPlace low (x ++ high :: y) z := by
  have hlast := getLast?_append_cons x high hy
  constructor
  · intro g hg
    rw [hlast] at hg
    obtain ⟨hg, hgreatest⟩ := hlow.anchor g hg
    refine ⟨hg, fun r hr hle => ?_⟩
    rw [List.mem_append, List.mem_cons] at hr
    rcases hr with hr | rfl | hr
    · exact hgreatest r (List.mem_append_left _ hr) hle
    · exact absurd hlt (not_lt_of_ge hle)
    · exact hgreatest r (List.mem_append_right _ hr) hle
  · intro r hr hle
    rw [hlast]
    exact hlow.behind r hr hle

/-- **Ranks with none between them have one place**, and the second of two such elements goes right
behind the first. -/
theorem byRank_behind_low {ranks : List Rank} (hlt : low < high)
    (hnone : ∀ r ∈ ranks, r ≤ high → r ≤ low) :
    byRank (ranks.insertIdx (byRank ranks low) low) high = byRank ranks low + 1 := by
  obtain ⟨front, back, rfl, hplace, hlow⟩ := exists_isPlace ranks low
  have hhigh : IsPlace high (front ++ []) back := by
    rw [List.append_nil]
    refine ⟨fun g hg => ?_, fun r hr hle => ?_⟩
    · obtain ⟨hg, hgreatest⟩ := hlow.anchor g hg
      refine ⟨hg.trans hlt.le, fun r hr hle => hgreatest r hr ?_⟩
      exact hnone r (List.mem_append_left back hr) hle
    · exact hlow.behind r hr (hnone r (List.mem_append_right front hr) hle)
  have hnext := (hlow.insert_low_in_front hhigh hlt).byRank_eq
  rw [List.append_assoc] at hnext
  rw [hplace, insertIdx_append_length]
  exact hnext.trans (List.length_append ..)

/-- Two new elements, where the place of the lower rank is not behind that of the higher one. -/
theorem IsPlace.byRank_low_first (hlow : IsPlace low x (y ++ z)) (hhigh : IsPlace high (x ++ y) z)
    (hlt : low < high) :
    byRank (x ++ low :: (y ++ z)) high = (x ++ y).length + 1 ∧
      byRank (x ++ y ++ high :: z) low = x.length := by
  have hfront := (hlow.insert_low_in_front hhigh hlt).byRank_eq
  have hbehind := (hlow.insert_high_behind hlt).byRank_eq
  rw [List.append_assoc, List.cons_append] at hfront
  rw [List.append_assoc, hfront, hbehind]
  refine ⟨?_, rfl⟩
  simp only [List.length_append, List.length_cons, Nat.add_assoc]

/-- Two new elements, where the place of the lower rank is behind that of the higher one. -/
theorem IsPlace.byRank_high_first (hlow : IsPlace low (x ++ y) z)
    (hhigh : IsPlace high x (y ++ z)) (hlt : low < high) (hy : y ≠ []) :
    byRank (x ++ high :: (y ++ z)) low = (x ++ y).length + 1 ∧
      byRank (x ++ y ++ low :: z) high = x.length := by
  have hfront := (hlow.insert_high_in_front hlt hy).byRank_eq
  have hbehind := (hlow.insert_low_behind hhigh hlt hy).byRank_eq
  rw [List.append_assoc, List.cons_append] at hfront
  rw [List.append_assoc, hfront, hbehind]
  refine ⟨?_, rfl⟩
  simp only [List.length_append, List.length_cons, Nat.add_assoc]

end Two

/-- The place of a second new element once a first one has been inserted. -/
def byRankAfter (ranks : List Rank) (first second : Rank) : Nat :=
  byRank (ranks.insertIdx (byRank ranks first) first) second

/-- The places of two new elements, the first of which is of the lower rank. -/
theorem byRankAfter_of_lt (ranks : List Rank) {low high : Rank} (hlt : low < high) :
    (byRank ranks low ≤ byRank ranks high ∧
      byRankAfter ranks low high = byRank ranks high + 1 ∧
      byRankAfter ranks high low = byRank ranks low) ∨
    (byRank ranks high ≤ byRank ranks low ∧
      byRankAfter ranks high low = byRank ranks low + 1 ∧
      byRankAfter ranks low high = byRank ranks high) := by
  obtain ⟨front, back, hsplit, hplace, hlow⟩ := exists_isPlace ranks low
  obtain ⟨front', back', hsplit', hplace', hhigh⟩ := exists_isPlace ranks high
  rw [byRankAfter, byRankAfter, hplace, hplace']
  rcases Nat.lt_or_ge front'.length front.length with hlength | hlength
  · obtain ⟨middle, rfl⟩ : front' <+: front :=
      List.prefix_of_prefix_length_le ⟨back', hsplit'.symm⟩ ⟨back, hsplit.symm⟩ hlength.le
    obtain rfl : middle ++ back = back' := by
      rwa [hsplit', List.append_assoc, List.append_cancel_left_eq, eq_comm] at hsplit
    have hmiddle : middle ≠ [] := by
      rintro rfl
      simp at hlength
    obtain ⟨hfront, hbehind⟩ := hlow.byRank_high_first hhigh hlt hmiddle
    refine .inr ⟨hlength.le, ?_, ?_⟩
    · rw [hsplit', insertIdx_append_length, hfront]
    · rw [hsplit, insertIdx_append_length, hbehind]
  · obtain ⟨middle, rfl⟩ : front <+: front' :=
      List.prefix_of_prefix_length_le ⟨back, hsplit.symm⟩ ⟨back', hsplit'.symm⟩ hlength
    obtain rfl : middle ++ back' = back := by
      rwa [hsplit, List.append_assoc, List.append_cancel_left_eq, eq_comm] at hsplit'
    obtain ⟨hfront, hbehind⟩ := hlow.byRank_low_first hhigh hlt
    refine .inl ⟨hlength, ?_, ?_⟩
    · rw [hsplit, insertIdx_append_length, hfront]
    · rw [hsplit', insertIdx_append_length, hbehind]

/-- **The places of two new elements** of different ranks.  The one in front stays where it would go
by itself, and the other one moves up by one place. -/
theorem byRankAfter_eq (ranks : List Rank) {a b : Rank} (hne : a ≠ b) :
    (byRank ranks a ≤ byRank ranks b ∧ byRankAfter ranks a b = byRank ranks b + 1 ∧
      byRankAfter ranks b a = byRank ranks a) ∨
    (byRank ranks b ≤ byRank ranks a ∧ byRankAfter ranks b a = byRank ranks a + 1 ∧
      byRankAfter ranks a b = byRank ranks b) := by
  rcases lt_or_gt_of_ne hne with hlt | hlt
  · exact byRankAfter_of_lt ranks hlt
  · exact (byRankAfter_of_lt ranks hlt).symm

/-- **Insertions by rank commute.** -/
theorem insertIdx_byRank_comm {α : Type} {ranks : List Rank} {a b : Rank} (hne : a ≠ b)
    {l : List α} (hlength : ranks.length ≤ l.length) (x y : α) :
    (l.insertIdx (byRank ranks a) x).insertIdx (byRankAfter ranks a b) y =
      (l.insertIdx (byRank ranks b) y).insertIdx (byRankAfter ranks b a) x := by
  have ha := Nat.le_trans (byRank_le_length ranks a) hlength
  have hb := Nat.le_trans (byRank_le_length ranks b) hlength
  rcases byRankAfter_eq ranks hne with ⟨hle, hafter, hkept⟩ | ⟨hle, hafter, hkept⟩
  · rw [hafter, hkept, List.insertIdx_comm x y hle hb]
  · rw [hafter, hkept, List.insertIdx_comm y x hle ha]

end Placement

end DeclStyle
