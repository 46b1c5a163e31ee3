import DeclStyle.Proofs.Traversal.Induction
import DeclStyle.Proofs.Traversal.Position
import Mathlib.Logic.Equiv.Basic

/-!
# Corresponding trees

The declarations of two trees correspond one to one when a permutation of positions takes those of
one tree to those of the other, the members of a declaration to the members of what it corresponds
to.  A correspondence may say more: what holds of the two declarations at corresponding positions,
and where members keep their order.

* `Position.below` — permutations of the positions below each member, put together;
* `Declaration.Matches`, `Declaration.Corresponds` — the correspondence of two trees;
* `Declaration.Corresponds.trans` — trees correspond one after another;
* `Declaration.Corresponds.of_members` — trees correspond once their members do, in some order.
-/

namespace DeclStyle

/-! ## Permutations of positions -/

namespace Position

/-- The permutation of positions that takes each place in a list to another one, and goes on there
in a way of its own. -/
def below (σ : Equiv.Perm Nat) (φ : Nat → Equiv.Perm (List Nat)) : Equiv.Perm (List Nat) where
  toFun
    | [] => []
    | i :: path => σ i :: φ i path
  invFun
    | [] => []
    | i :: path => σ.symm i :: (φ (σ.symm i)).symm path
  left_inv path := by cases path <;> simp
  right_inv path := by cases path <;> simp

/-- The permutation that leaves the first place alone and moves the others like a given one. -/
def shift (σ : Equiv.Perm Nat) : Equiv.Perm Nat where
  toFun
    | 0 => 0
    | i + 1 => σ i + 1
  invFun
    | 0 => 0
    | i + 1 => σ.symm i + 1
  left_inv i := by cases i <;> simp
  right_inv i := by cases i <;> simp

/-- The places of the elements of a list in a rearranged one. -/
theorem exists_getElem?_eq_of_perm {α : Type} {l l' : List α} (h : l.Perm l') :
    ∃ σ : Equiv.Perm Nat, ∀ i, l'[σ i]? = l[i]? := by
  induction h with
  | nil => exact ⟨.refl Nat, fun _ => rfl⟩
  | cons a _ ih =>
    obtain ⟨σ, hσ⟩ := ih
    refine ⟨shift σ, fun i => ?_⟩
    cases i with
    | zero => rfl
    | succ i => exact hσ i
  | swap a b l =>
    refine ⟨Equiv.swap 0 1, fun i => ?_⟩
    match i with
    | 0 => simp
    | 1 => simp
    | i + 2 => rw [Equiv.swap_apply_of_ne_of_ne (by omega) (by omega)]; rfl
  | trans _ _ ih ih' =>
    obtain ⟨σ, hσ⟩ := ih
    obtain ⟨τ, hτ⟩ := ih'
    exact ⟨σ.trans τ, fun i => (hτ (σ i)).trans (hσ i)⟩

end Position

/-! ## Trees -/

namespace Declaration

/-- A permutation of positions takes the declarations of one tree to those of another.  At
corresponding positions a relation holds, members correspond to members, and those of declarations
of certain kinds keep their places. -/
structure Matches (R : Declaration → Declaration → Prop) (keepsOrder : DeclarationKind → Prop)
    (d e : Declaration) (φ : Equiv.Perm (List Nat)) : Prop where
  /-- There is a declaration at both positions, and the relation holds, or at neither. -/
  related (path : List Nat) : Option.Rel R (d.at? path) (e.at? (φ path))
  top : φ [] = []
  member (path : List Nat) (i : Nat) : ∃ j, φ (path ++ [i]) = φ path ++ [j]
  order (path : List Nat) (n : Declaration) (hn : d.at? path = some n) (hkeeps : keepsOrder n.kind)
    (i : Nat) : φ (path ++ [i]) = φ path ++ [i]

/-- The declarations of two trees correspond one to one. -/
def Corresponds (R : Declaration → Declaration → Prop) (keepsOrder : DeclarationKind → Prop)
    (d e : Declaration) : Prop :=
  ∃ φ, Matches R keepsOrder d e φ

namespace Corresponds

theorem rel_trans {α β γ : Type} {R : α → γ → Prop} {R₁ : α → β → Prop} {R₂ : β → γ → Prop}
    (hR : ∀ a b c, R₁ a b → R₂ b c → R a c) {a : Option α} {b : Option β} {c : Option γ}
    (h : Option.Rel R₁ a b) (h' : Option.Rel R₂ b c) : Option.Rel R a c := by
  cases h with
  | none =>
    cases h'
    exact .none
  | some hab =>
    cases h' with
    | some hbc => exact .some (hR _ _ _ hab hbc)

theorem exists_of_rel_some {α β : Type} {R : α → β → Prop} {a : α} {b : Option β}
    (h : Option.Rel R (some a) b) : ∃ b', b = some b' ∧ R a b' := by
  cases h with
  | some hab => exact ⟨_, rfl, hab⟩

variable {R R₁ R₂ : Declaration → Declaration → Prop} {K K₁ K₂ : DeclarationKind → Prop}
  {d e f : Declaration}

theorem refl (hR : ∀ d, R d d) (d : Declaration) : Corresponds R K d d := by
  refine ⟨.refl _, fun path => ?_, rfl, fun path i => ⟨i, rfl⟩, fun _ _ _ _ _ => rfl⟩
  show Option.Rel R (d.at? path) (d.at? path)
  cases d.at? path with
  | none => exact .none
  | some n => exact .some (hR n)

/-- **Trees correspond one after another.** -/
theorem trans (h : Corresponds R₁ K₁ d e) (hR : ∀ a b c, R₁ a b → R₂ b c → R a c)
    (hkind : ∀ a b, R₁ a b → b.kind = a.kind) (hK : ∀ k, K k → K₁ k ∧ K₂ k)
    (h' : Corresponds R₂ K₂ e f) : Corresponds R K d f := by
  obtain ⟨φ, hφ⟩ := h
  obtain ⟨ψ, hψ⟩ := h'
  refine ⟨φ.trans ψ, ?_, ?_, ?_, ?_⟩
  · intro path
    rw [Equiv.trans_apply]
    exact rel_trans hR (hφ.related path) (hψ.related (φ path))
  · rw [Equiv.trans_apply, hφ.top, hψ.top]
  · intro path i
    obtain ⟨j, hj⟩ := hφ.member path i
    obtain ⟨k, hk⟩ := hψ.member (φ path) j
    exact ⟨k, by rw [Equiv.trans_apply, hj, hk, Equiv.trans_apply]⟩
  · intro path n hn hkeeps i
    obtain ⟨hfirst, hsecond⟩ := hK n.kind hkeeps
    have hrelated := hφ.related path
    rw [hn] at hrelated
    obtain ⟨m, hm, hnm⟩ := exists_of_rel_some hrelated
    rw [← hkind n m hnm] at hsecond
    rw [Equiv.trans_apply, hφ.order path n hn hfirst i, hψ.order (φ path) m hm hsecond i,
      Equiv.trans_apply]

/-- The positions below one member correspond as the trees at that place do, where there are
any. -/
theorem exists_perm_of_rel {m m' : Option Declaration} (h : Option.Rel (Corresponds R K) m m') :
    ∃ φ : Equiv.Perm (List Nat),
      (∀ path, Option.Rel R (m.bind (at? · path)) (m'.bind (at? · (φ path)))) ∧ φ [] = [] ∧
      (∀ path i, ∃ j, φ (path ++ [i]) = φ path ++ [j]) ∧
      ∀ path n, m.bind (at? · path) = some n → K n.kind → ∀ i, φ (path ++ [i]) = φ path ++ [i] := by
  cases h with
  | none => exact ⟨.refl _, fun _ => .none, rfl, fun _ i => ⟨i, rfl⟩, fun _ _ _ _ _ => rfl⟩
  | some h =>
    obtain ⟨φ, hφ⟩ := h
    exact ⟨φ, hφ.related, hφ.top, hφ.member, hφ.order⟩

/-- **Trees correspond once their members do**, in some order.  The order is the same where members
keep their order. -/
theorem of_members {members : List Declaration} (hown : R d e) (hperm : d.members.Perm members)
    (horder : K d.kind → members = d.members)
    (h : List.Forall₂ (Corresponds R K) members e.members) : Corresponds R K d e := by
  obtain ⟨σ, hσ, hfixed⟩ : ∃ σ : Equiv.Perm Nat, (∀ i, members[σ i]? = d.members[i]?) ∧
      (K d.kind → ∀ i, σ i = i) := by
    by_cases hkeeps : K d.kind
    · exact ⟨.refl Nat, fun i => by rw [horder hkeeps]; rfl, fun _ _ => rfl⟩
    · obtain ⟨σ, hσ⟩ := Position.exists_getElem?_eq_of_perm hperm
      exact ⟨σ, hσ, fun h => absurd h hkeeps⟩
  have hbelow : ∀ i, Option.Rel (Corresponds R K) d.members[i]? e.members[σ i]? := by
    intro i
    rw [← hσ i]
    exact rel_getElem?_of_forall₂ h (σ i)
  choose φ hrelated htop hmember hφorder using fun i => exists_perm_of_rel (hbelow i)
  refine ⟨Position.below σ φ, ?_, rfl, ?_, ?_⟩
  · intro path
    cases path with
    | nil => exact .some hown
    | cons i path => exact hrelated i path
  · intro path k
    cases path with
    | nil =>
      refine ⟨σ k, ?_⟩
      show σ k :: φ k [] = [σ k]
      rw [htop k]
    | cons i path =>
      obtain ⟨j, hj⟩ := hmember i path k
      exact ⟨j, congrArg (σ i :: ·) hj⟩
  · intro path n hn hkeeps k
    cases path with
    | nil =>
      obtain rfl := Option.some.inj hn
      show σ k :: φ k [] = [k]
      rw [htop k, hfixed hkeeps k]
    | cons i path => exact congrArg (σ i :: ·) (hφorder i path n hn hkeeps k)

end Corresponds

end Declaration

end DeclStyle
