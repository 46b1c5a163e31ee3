import DeclStyle.Declaration.Basic

/-!
# Trees

What passes from members to the declarations that hold them is true of every tree.  A position lists
the places of the members that lead to a declaration from the top of its tree.

* `Declaration.members_induction` — induction over the members of declarations;
* `Declaration.at?`, `Declaration.container?`, `Declaration.around` — the declaration at a position
  of a tree, the one right around it, and all around it;
* `Declaration.forall_at?_iff` — what holds throughout a tree holds of its top and throughout its
  members.
-/

namespace DeclStyle.Declaration

/-- What passes from the members of a declaration to the declaration is true of every one. -/
theorem members_induction {P : Declaration → Prop}
    (members : ∀ d : Declaration, (∀ m ∈ d.members, P m) → P d) (d : Declaration) : P d := by
  refine @Declaration.rec P (fun ds => ∀ m ∈ ds, P m) ?plain ?type ?space ?nil ?cons d
  case plain => exact fun k s => members (plain k s) fun _ hm => absurd hm List.not_mem_nil
  case type => exact fun k s ms tl ih => members (type k s ms tl) ih
  case space => exact fun hd ms tl ih => members (space hd ms tl) ih
  case nil => exact fun _ hm => absurd hm List.not_mem_nil
  case cons =>
    intro d ds hd hds m hm
    rcases List.mem_cons.1 hm with rfl | hm
    · exact hd
    · exact hds m hm

/-- The declaration at a position of a tree.  A position lists the places of the members that lead
to it. -/
def at? : Declaration → List Nat → Option Declaration
  | d, [] => some d
  | d, i :: path => d.members[i]?.bind (at? · path)

/-- The declaration right around a position; that of the top is given. -/
def container? : Option Declaration → Declaration → List Nat → Option Declaration
  | parent, _, [] => parent
  | _, d, i :: path => d.members[i]?.bind (container? (some d) · path)

/-- The declarations around a position, the outermost first. -/
def around : Declaration → List Nat → List Declaration
  | _, [] => []
  | d, i :: path => d :: d.members[i]?.elim [] (around · path)

/-- What holds throughout a tree holds of its top and throughout its members. -/
theorem forall_at?_iff {P : Declaration → Prop} {d : Declaration} :
    (∀ path n, d.at? path = some n → P n) ↔
      P d ∧ ∀ m ∈ d.members, ∀ path n, m.at? path = some n → P n := by
  constructor
  · intro h
    refine ⟨h [] d rfl, fun m hm path n hn => ?_⟩
    obtain ⟨i, hi⟩ := List.mem_iff_getElem?.1 hm
    exact h (i :: path) n (by rw [at?, hi, Option.bind_some, hn])
  · rintro ⟨hd, hmembers⟩ path n hn
    cases path with
    | nil =>
      obtain rfl := Option.some.inj hn
      exact hd
    | cons i path =>
      obtain ⟨m, hm, hn⟩ := Option.bind_eq_some_iff.1 hn
      exact hmembers m (List.mem_of_getElem? hm) path n hn

end DeclStyle.Declaration
