import DeclStyle.Order.StableSort
import DeclStyle.Rank

/-!
# Where a new element goes

Two ways to find the position at which a new element is inserted into a sequence.

* By rank: ranks are tried from the new element's rank downwards, and the first rank that occurs
  puts the new element behind the last element of that rank.  So it joins the end of its own group,
  or else the end of the closest group below it, and goes first if there is none.
* By a comparer: the sequence is read from its end; an element equal to the new one settles the
  place behind itself, and every greater one on the way pulls the place in front of itself.

Neither asks that the sequence be in order.
-/

namespace DeclStyle.Placement

/-- The last position at which a test holds. -/
def lastIdx? {α : Type} (p : α → Bool) : List α → Option Nat
  | [] => none
  | a :: l =>
    match lastIdx? p l with
    | some i => some (i + 1)
    | none => if p a then some 0 else none

/-- The last position of the greatest rank that occurs and is not above the target. -/
def closest? (ranks : List Rank) : Nat → Option Nat
  | 0 => lastIdx? (fun r => r.val == 0) ranks
  | target + 1 =>
    match lastIdx? (fun r => r.val == target + 1) ranks with
    | some i => some i
    | none => closest? ranks target

/-- The place of a new element of rank `target` among elements of the given ranks. -/
def byRank (ranks : List Rank) (target : Rank) : Nat :=
  match closest? ranks target.val with
  | some i => i + 1
  | none => 0

/-- The state of a search from the end: the place found so far, and whether it is settled. -/
structure Search where
  place : Nat
  settled : Bool
  deriving DecidableEq, Repr

/-- Takes one element at the given position into account. -/
def Search.step (s : Search) (position : Nat) : Ordering → Search
  | .eq => if s.settled then s else ⟨position + 1, true⟩
  | .gt => if s.settled then s else ⟨position, false⟩
  | .lt => s

/-- The search through the elements from position `start` on, the last one first. -/
def search {α : Type} (cmp : Comparer α) (a : α) : Nat → List α → Search
  | start, [] => ⟨start, false⟩
  | start, b :: l => (search cmp a (start + 1) l).step start (cmp b a)

/-- The place of a new element according to a comparer. -/
def byComparer {α : Type} (cmp : Comparer α) (l : List α) (a : α) : Nat := (search cmp a 0 l).place

theorem lastIdx?_lt {α : Type} {p : α → Bool} {l : List α} {i : Nat}
    (h : lastIdx? p l = some i) : i < l.length := by
  induction l generalizing i with
  | nil => cases h
  | cons a l ih =>
    rw [lastIdx?] at h
    split at h
    · rename_i j hj
      obtain rfl := Option.some.inj h
      exact Nat.succ_lt_succ (ih hj)
    · split at h
      · obtain rfl := Option.some.inj h
        exact Nat.succ_pos _
      · cases h

theorem closest?_lt {ranks : List Rank} {target i : Nat} (h : closest? ranks target = some i) :
    i < ranks.length := by
  induction target with
  | zero => exact lastIdx?_lt h
  | succ n ih =>
    rw [closest?] at h
    split at h
    · rename_i j hj
      obtain rfl := Option.some.inj h
      exact lastIdx?_lt hj
    · exact ih h

/-- A place by rank is a valid position to insert at. -/
theorem byRank_le_length (ranks : List Rank) (target : Rank) :
    byRank ranks target ≤ ranks.length := by
  unfold byRank
  split
  · rename_i i h
    exact closest?_lt h
  · exact Nat.zero_le _

theorem byRank_map_le_length {α : Type} (rank : α → Rank) (l : List α) (target : Rank) :
    byRank (l.map rank) target ≤ l.length := by
  simpa using byRank_le_length (l.map rank) target

theorem search_place_le {α : Type} (cmp : Comparer α) (a : α) (start : Nat) (l : List α) :
    (search cmp a start l).place ≤ start + l.length := by
  induction l generalizing start with
  | nil => exact Nat.le_refl _
  | cons b l ih =>
    have h := ih (start + 1)
    simp only [search, List.length_cons]
    cases cmp b a <;> simp only [Search.step] <;> (try split) <;> simp <;> omega

/-- A place by a comparer is a valid position to insert at. -/
theorem byComparer_le_length {α : Type} (cmp : Comparer α) (l : List α) (a : α) :
    byComparer cmp l a ≤ l.length := by
  simpa [byComparer] using search_place_le cmp a 0 l

end DeclStyle.Placement
