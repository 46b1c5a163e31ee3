import DeclStyle.Proofs.StyleRule.Record
import DeclStyle.Proofs.StyleRule.UnsafeContext

/-!
# What is left of redundant `unsafe`

The rule against redundant `unsafe` takes the first `unsafe` of a member of an unsafe type, and only
that.  A member that carries the keyword more than once keeps the others, so that the rule finds
more to do in its own result.  It finds nothing exactly if no such member carried it twice.

* `StyleRule.satisfied_iff` — a tree satisfies a rule that fires at none of its positions;
* `StyleRule.relieved_of_fix` — how often `unsafe` is left at each position;
* `StyleRule.redundantUnsafe_takes_one` — so when a tree comes out without redundant `unsafe`, and
  when a second application does nothing.
-/

namespace DeclStyle

namespace Declaration

/-- How often a declaration itself carries `unsafe`. -/
def unsafeKeywords (d : Declaration) : Nat := unsafeCountOf d.modifiers

theorem hasModifier_unsafeKw_iff (d : Declaration) :
    d.hasModifier .unsafeKw ↔ d.unsafeKeywords ≠ 0 := by
  rw [hasModifier_eq, unsafeKeywords, unsafeCountOf, ne_eq, List.count_eq_zero, not_not,
    List.any_eq_true]
  simp

end Declaration

namespace StyleRule

open Declaration

variable {r : StyleRule} {settings : StyleSettings} {parent : Option Declaration}
  {d e : Declaration}

/-- **A tree satisfies a rule** that fires at none of its positions. -/
theorem satisfied_iff : Satisfied r settings parent d ↔
    ∀ path e, d.at? path = some e → r.fires settings (container? parent d path) e = false := by
  constructor
  · intro h path e he
    induction path generalizing parent d with
    | nil =>
      obtain rfl := Option.some.inj he
      obtain ⟨hquiet, -⟩ := h
      exact hquiet
    | cons i path ih =>
      obtain ⟨m, hm, he⟩ := Option.bind_eq_some_iff.1 he
      obtain ⟨-, hmembers⟩ := h
      rw [container?, hm, Option.bind_some]
      exact ih (hmembers m (List.mem_of_getElem? hm)) he
  · intro h
    induction d using members_induction generalizing parent with
    | members d ih =>
      refine .intro (h [] d rfl) fun m hm => ih m hm fun path e he => ?_
      obtain ⟨i, hi⟩ := List.mem_iff_getElem?.1 hm
      have hfires := h (i :: path) e (by rw [at?, hi, Option.bind_some, he])
      rwa [container?, hi, Option.bind_some] at hfires

/-! ## Counting at a position -/

/-- How many `unsafe` the rule takes from a declaration that carries some. -/
def relief (parent : Option Declaration) : Nat := if parent.any isUnsafeType then 1 else 0

/-- What a container of members takes from a position below does not depend on its members. -/
theorem relief_container?_withMembers (current : Declaration) (ms : List Declaration)
    (m : Declaration) (path : List Nat) :
    relief (container? (some (current.withMembers ms)) m path) =
      relief (container? (some current) m path) := by
  cases path with
  | nil => rw [container?, container?, relief, Option.any_some, isUnsafeType_withMembers]; rfl
  | cons i path => rfl

/-- A declaration in a container and what became of it: at each position the container takes one
`unsafe`, if there is one. -/
def Relieved (parent : Option Declaration) (d e : Declaration) : Prop :=
  ∀ path, Option.Rel
    (fun before after =>
      after.unsafeKeywords = before.unsafeKeywords - relief (container? parent e path))
    (d.at? path) (e.at? path)

/-- A declaration is relieved once it is itself and its members are. -/
theorem Relieved.of_members {current : Declaration} {members : List Declaration}
    (hown : current.unsafeKeywords = d.unsafeKeywords - relief parent)
    (hsame : current.members = d.members)
    (h : List.Forall₂ (Relieved (some current)) current.members members) :
    Relieved parent d (current.withMembers members) := by
  intro path
  cases path with
  | nil =>
    refine .some ?_
    rw [unsafeKeywords, modifiers_withMembers]
    exact hown
  | cons i path =>
    have hmember := rel_getElem?_of_forall₂ h i
    rw [at?, at?, container?, members_withMembers_of_forall₂ h, ← hsame]
    generalize current.members[i]? = before at hmember ⊢
    generalize members[i]? = after at hmember ⊢
    cases hmember with
    | none => exact .none
    | @some m m' hm =>
      simp only [Option.bind_some, relief_container?_withMembers]
      exact hm path

/-- **How often `unsafe` is left at a position**: once less than before if the container is an
unsafe type in the end, and as often as before elsewhere. -/
theorem relieved_of_fix {f : Fixed} (h : redundantUnsafe.fix settings d = .ok f) :
    Relieved none d f.tree := by
  obtain ⟨tree, houtcome, rfl⟩ := map_eq_ok_iff.1 h
  refine fix_induction Relieved ?_ ?_ houtcome
  · intro parent d members hfix hmembers
    refine .of_members ?_ rfl hmembers
    have hquiet : (parent.any isUnsafeType && d.hasModifier .unsafeKw) = false :=
      fixNode_eq_ok_none_iff.1 hfix
    rw [relief]
    split
    · rename_i hparent
      have hnone : ¬ d.hasModifier .unsafeKw := by simpa [hparent] using hquiet
      rw [hasModifier_unsafeKw_iff, not_not] at hnone
      omega
    · rfl
  · intro parent d current members hchanged hmembers
    have hone := hchanged.unsafeCountOf_eq
    cases hchanged with
    | redundantUnsafe hparent _ hedit =>
      refine .of_members ?_ (members_of_editSignature hedit) hmembers
      rw [relief, if_pos hparent]
      exact Nat.eq_sub_of_add_eq hone.symm

/-! ## Redundant keywords -/

/-- No member of an unsafe type carries `unsafe`, anywhere in a tree. -/
def NoneRedundant (d : Declaration) : Prop :=
  ∀ path e, d.at? path = some e → (container? none d path).any isUnsafeType →
    e.hasModifier .unsafeKw = false

theorem satisfied_redundantUnsafe_iff :
    Satisfied redundantUnsafe settings none d ↔ NoneRedundant d := by
  rw [satisfied_iff, NoneRedundant]
  simp only [fires, Bool.and_eq_false_imp]

/-- The rule does nothing to a tree exactly if nothing in it is redundant. -/
theorem fix_redundantUnsafe_eq_self_iff :
    redundantUnsafe.fix settings d = .ok ⟨d, []⟩ ↔ NoneRedundant d := by
  rw [← @satisfied_redundantUnsafe_iff settings]
  constructor
  · intro h
    obtain ⟨tree, houtcome, hfixed⟩ := map_eq_ok_iff.1 h
    obtain rfl : tree = d := congrArg Fixed.tree hfixed
    exact (unsafeCount_of_outcome houtcome).2 rfl rfl
  · exact fix_of_satisfied

/-- **The rule against redundant `unsafe` takes one keyword from each member of an unsafe type.**
In the result, a member of an unsafe type carries `unsafe` once less than before, and every other
declaration as often.  So nothing is redundant any more exactly if no member of what is an unsafe
type in the end carried the keyword more than once, in particular if nothing did, and then a second
application does nothing; otherwise it does not give back the tree with an empty record. -/
theorem redundantUnsafe_takes_one {settings : StyleSettings} {d : Declaration} {f : Fixed}
    (h : redundantUnsafe.fix settings d = .ok f) :
    (∀ path, Option.Rel
      (fun before after =>
        after.unsafeKeywords = before.unsafeKeywords - relief (container? none f.tree path))
      (d.at? path) (f.tree.at? path)) ∧
    (NoneRedundant f.tree ↔ ∀ path e, d.at? path = some e →
      (container? none f.tree path).any isUnsafeType → e.unsafeKeywords ≤ 1) ∧
    ((∀ path e, d.at? path = some e → e.unsafeKeywords ≤ 1) → NoneRedundant f.tree) ∧
    (redundantUnsafe.fix settings f.tree = .ok ⟨f.tree, []⟩ ↔ NoneRedundant f.tree) := by
  have hrelieved := relieved_of_fix h
  have hnone : NoneRedundant f.tree ↔ ∀ path e, d.at? path = some e →
      (container? none f.tree path).any isUnsafeType → e.unsafeKeywords ≤ 1 := by
    constructor
    · intro hnone path before hbefore hunsafe
      have hat := hrelieved path
      rw [hbefore] at hat
      obtain ⟨after, hafter, hcount⟩ := Corresponds.exists_of_rel_some hat
      have hzero : ¬ after.hasModifier .unsafeKw := by simp [hnone path after hafter hunsafe]
      rw [hasModifier_unsafeKw_iff, not_not, hcount, relief, if_pos hunsafe] at hzero
      omega
    · intro hone path after hafter hunsafe
      have hat := hrelieved path
      cases hbefore : d.at? path with
      | none =>
        rw [hbefore, hafter] at hat
        cases hat
      | some before =>
        rw [hbefore, hafter] at hat
        cases hat with
        | some hcount =>
          have hle := hone path before hbefore hunsafe
          rw [relief, if_pos hunsafe, Nat.sub_eq_zero_of_le hle] at hcount
          rw [← Bool.not_eq_true, hasModifier_unsafeKw_iff, not_not, hcount]
  exact ⟨hrelieved, hnone, fun hone => hnone.2 fun path e he _ => hone path e he,
    fix_redundantUnsafe_eq_self_iff⟩

/-- The inner class of two unsafe classes loses its `unsafe`, and its method keeps it: nothing is
redundant then, and a second application does nothing. -/
theorem redundantUnsafe_takes_one_nestedUnsafe :
    ∃ f, redundantUnsafe.fix .standard nestedUnsafe = .ok f ∧ NoneRedundant f.tree ∧
      redundantUnsafe.fix .standard f.tree = .ok ⟨f.tree, []⟩ := by
  have honce : ∀ path e, nestedUnsafe.at? path = some e → e.unsafeKeywords ≤ 1 := by
    refine forall_at?_iff.2 ⟨by decide, List.forall_mem_singleton.2 ?_⟩
    refine forall_at?_iff.2 ⟨by decide, List.forall_mem_singleton.2 ?_⟩
    exact forall_at?_iff.2 ⟨by decide, fun _ hm => nomatch hm⟩
  have hfix : ∃ f, redundantUnsafe.fix .standard nestedUnsafe = .ok f := ⟨_, rfl⟩
  obtain ⟨f, hf⟩ := hfix
  obtain ⟨-, -, hnone, hsecond⟩ := redundantUnsafe_takes_one hf
  exact ⟨f, hf, hnone honce, hsecond.2 (hnone honce)⟩

/-- An unsafe class with the method `unsafe unsafe M`. -/
def repeatedUnsafe : Declaration :=
  .type .classType ⟨[token], [.bare .keyword "class"], none⟩
    [.plain .method ⟨[token, token], [.bare .identifier "M"], some 0⟩] []
where
  token : Token := ⟨.modifier .unsafeKw, "unsafe", [], [.space]⟩

/-- The rule need not take every redundant `unsafe`, and a second application may find more. -/
theorem redundantUnsafe_leaves_repeatedUnsafe :
    (¬ ∀ (settings : StyleSettings) (d : Declaration) (f : Fixed),
      redundantUnsafe.fix settings d = .ok f → NoneRedundant f.tree) ∧
    (¬ ∀ (settings : StyleSettings) (d : Declaration) (f g : Fixed),
      redundantUnsafe.fix settings d = .ok f → redundantUnsafe.fix settings f.tree = .ok g →
      g.fixes = []) := by
  refine ⟨fun h => ?_, fun h => ?_⟩
  · have hnone := h .standard repeatedUnsafe _ rfl [0] _ rfl rfl
    cases hnone
  · have hnothing := h .standard repeatedUnsafe _ _ rfl rfl
    cases hnothing

end StyleRule

end DeclStyle
