import DeclStyle.Declaration.Basic
import DeclStyle.EditError

/-!
# Transforming declaration trees

A transformer is shown a declaration and its container, which has been transformed already.  It may
replace the declaration, refuse with an error, and change a state of its own.  A tree is transformed
from the top down: after a declaration come the members of what replaced it.  The first error ends
the pass.

Since a pass goes on with the members of the replacement, a transformer that keeps adding members
never comes to an end.  A pass is therefore given a number of levels it may go down, and one that
needs more is *unfinished*, which is told apart from success and from failure.
-/

namespace DeclStyle

/-- How a pass ends: with a value, with the error of the declaration that was refused, or not within
the levels it was given.  The state is kept also by a pass that failed. -/
inductive PassResult (σ α : Type) where
  | done (value : α) (state : σ)
  | failed (error : EditError) (state : σ)
  | unfinished
  deriving Inhabited

namespace PassResult

variable {σ α β : Type}

/-- Goes on with the value and the state of a pass that came to an end. -/
def bind : PassResult σ α → (α → σ → PassResult σ β) → PassResult σ β
  | done a s, f => f a s
  | failed e s, _ => failed e s
  | unfinished, _ => unfinished

/-- Applies a pass to each element of a list, from left to right. -/
def mapAll (f : α → σ → PassResult σ β) : List α → σ → PassResult σ (List β)
  | [], s => done [] s
  | a :: as, s => (f a s).bind fun b s' => (mapAll f as s').bind fun bs s'' => done (b :: bs) s''

theorem bind_ne_unfinished {x : PassResult σ α} {f : α → σ → PassResult σ β}
    (hx : x ≠ unfinished) (hf : ∀ a s, f a s ≠ unfinished) : x.bind f ≠ unfinished := by
  cases x with
  | done a s => exact hf a s
  | failed e s => exact fun h => nomatch h
  | unfinished => exact absurd rfl hx

theorem mapAll_ne_unfinished {f : α → σ → PassResult σ β} {as : List α}
    (h : ∀ a ∈ as, ∀ s, f a s ≠ unfinished) (s : σ) : mapAll f as s ≠ unfinished := by
  induction as generalizing s with
  | nil => exact fun h => nomatch h
  | cons a as ih =>
    have hrest := ih fun b hb => h b (List.mem_cons_of_mem a hb)
    exact bind_ne_unfinished (h a List.mem_cons_self s) fun b s' =>
      bind_ne_unfinished (hrest s') fun _ _ h => nomatch h

end PassResult

/-- What is done to one declaration in its container: the replacement, or none to keep it. -/
abbrev Transformer (σ : Type) :=
  Declaration → Option Declaration → σ → Except EditError (Option Declaration) × σ

namespace Transformer

variable {σ : Type}

/-- Transforms a declaration and then the members of its replacement, at most the given number of
levels down. -/
def transform (t : Transformer σ) : Nat → Option Declaration → Declaration → σ →
    PassResult σ Declaration
  | 0, _, _, _ => .unfinished
  | levels + 1, parent, d, s =>
    match t d parent s with
    | (.error e, s') => .failed e s'
    | (.ok replacement, s') =>
      let current := replacement.getD d
      (PassResult.mapAll (transform t levels (some current)) current.members s').bind
        fun members s'' => .done (current.withMembers members) s''

/-- A transformer that at most reorders the members of what it replaces. -/
def KeepsMembers (t : Transformer σ) : Prop :=
  ∀ d parent s e s', t d parent s = (.ok (some e), s') → e.members.Perm d.members

/-- A transformer that at most reorders members goes no deeper than the tree it is given. -/
theorem transform_ne_unfinished {t : Transformer σ} (ht : t.KeepsMembers) {levels : Nat}
    {d : Declaration} (hd : d.depth ≤ levels) (parent : Option Declaration) (s : σ) :
    t.transform levels parent d s ≠ .unfinished := by
  induction levels generalizing d parent s with
  | zero =>
    rw [Declaration.depth_eq] at hd
    exact absurd hd (Nat.not_succ_le_zero _)
  | succ levels ih =>
    rw [Declaration.depth_eq] at hd
    have hmembers : ∀ e ∈ d.members, e.depth ≤ levels := fun e he =>
      Nat.le_trans (Declaration.depth_le_depthOfAll he) (Nat.le_of_succ_le_succ hd)
    unfold transform
    split
    · exact fun h => nomatch h
    · rename_i replacement s' hshown
      refine PassResult.bind_ne_unfinished (PassResult.mapAll_ne_unfinished (fun e he s₁ => ?_) s')
        fun _ _ h => nomatch h
      apply ih
      cases replacement with
      | none => exact hmembers e he
      | some d' => exact hmembers e ((ht d parent s d' s' hshown).mem_iff.1 he)

end Transformer

end DeclStyle
