import DeclStyle.Proofs.Edit.Failure
import DeclStyle.Proofs.StyleRule.Idempotence
import DeclStyle.Proofs.Traversal.Position

/-!
# Checks that fail

All rules but one succeed on every tree.  The rule against redundant `unsafe` is refused at a member
whose only modifier is an `unsafe` with a comment, if the comment has nowhere to go.  Whether it
acts there depends on the container as the rule has left it: a container that has lost its own
`unsafe` protects its members.

* `StyleRule.rewritten`, `StyleRule.containerAt` — a declaration as a rule leaves it before it goes
  on to the members, and the container of a position in that sense;
* `StyleRule.transform_fails_iff` — the pass of a rule that keeps members fails exactly if it is
  refused at some position of the tree;
* `Check.run_eq_error_iff` — when a check fails, and with which error.
-/

namespace DeclStyle

namespace StyleRule

open Declaration

variable {fix : NodeFix} {parent : Option Declaration} {d : Declaration}

/-! ## Containers -/

/-- A declaration as a rule leaves it before it goes on to the members. -/
def rewritten (fix : NodeFix) (parent : Option Declaration) (d : Declaration) : Declaration :=
  match fix d parent with
  | .ok (some change) => change.1
  | _ => d

/-- The direct container of a position of a tree as a rule leaves it before it goes on to its
members.  The containers are dealt with from the outermost inwards, and the tree itself may be in
one. -/
def containerAt (fix : NodeFix) (parent : Option Declaration) (d : Declaration)
    (path : List Nat) : Option Declaration :=
  (d.around path).foldl (fun container c => some (rewritten fix container c)) parent

/-- A rule is refused at some position of a tree. -/
def FailsIn (fix : NodeFix) (parent : Option Declaration) (d : Declaration) : Prop :=
  ∃ path m, d.at? path = some m ∧ ∃ e, fix m (containerAt fix parent d path) = .error e

/-- A rule is refused in a tree if it is refused at the top or in a member, whose container has been
dealt with. -/
theorem failsIn_iff :
    FailsIn fix parent d ↔ (∃ e, fix d parent = .error e) ∨
      ∃ m ∈ d.members, FailsIn fix (some (rewritten fix parent d)) m := by
  have hinside : ∀ {i : Nat} {m : Declaration} (path : List Nat), d.members[i]? = some m →
      d.at? (i :: path) = m.at? path ∧ containerAt fix parent d (i :: path) =
        containerAt fix (some (rewritten fix parent d)) m path := by
    intro i m path hi
    constructor
    · rw [at?, hi, Option.bind_some]
    · rw [containerAt, around, hi, Option.elim_some, List.foldl_cons, containerAt]
  constructor
  · rintro ⟨path, n, hn, hfails⟩
    cases path with
    | nil =>
      obtain rfl := Option.some.inj hn
      exact .inl hfails
    | cons i path =>
      obtain ⟨m, hm, -⟩ := Option.bind_eq_some_iff.1 hn
      obtain ⟨hat, hcontainer⟩ := hinside path hm
      rw [hat] at hn
      rw [hcontainer] at hfails
      exact .inr ⟨m, List.mem_of_getElem? hm, path, n, hn, hfails⟩
  · rintro (hfails | ⟨m, hm, path, n, hn, hfails⟩)
    · exact ⟨[], d, rfl, hfails⟩
    · obtain ⟨i, hi⟩ := List.mem_iff_getElem?.1 hm
      obtain ⟨hat, hcontainer⟩ := hinside path hi
      refine ⟨i :: path, n, ?_, ?_⟩
      · rw [hat, hn]
      · rw [hcontainer]
        exact hfails

/-! ## Passes -/

/-- A step that is not refused goes on with the declaration as the rule leaves it. -/
theorem exists_transformer_eq_ok {r : StyleRule} {outcome : Option (Declaration × String)}
    (h : fix d parent = .ok outcome) (fixes : List Fix) :
    ∃ replacement fixes', transformer r fix d parent fixes = (.ok replacement, fixes') ∧
      replacement.getD d = rewritten fix parent d := by
  rw [transformer, rewritten, h]
  cases outcome with
  | none => exact ⟨none, fixes, rfl, rfl⟩
  | some change => exact ⟨some change.1, fixes ++ [⟨r, change.2⟩], rfl, rfl⟩

/-- A rule that keeps members when it rewrites a declaration does so as a transformer. -/
theorem transformer_keepsMembers_of_rewritten {r : StyleRule}
    (hkeeps : ∀ parent d, (rewritten fix parent d).members = d.members) :
    (transformer r fix).KeepsMembers := by
  intro d parent fixes e fixes' h
  cases hfix : fix d parent with
  | error err =>
    rw [transformer, hfix] at h
    cases h
  | ok outcome =>
    obtain ⟨replacement, fixes₁, hshown, hcurrent⟩ :=
      exists_transformer_eq_ok (r := r) hfix fixes
    obtain rfl : replacement = some e := by
      have hpair := hshown.symm.trans h
      exact Except.ok.inj (congrArg Prod.fst hpair)
    rw [← hkeeps parent d, ← hcurrent]
    exact List.Perm.refl _

/-- **The pass of a rule that keeps members** fails exactly if the rule is refused at some position
of the tree. -/
theorem transform_fails_iff {r : StyleRule}
    (hkeeps : ∀ parent d, (rewritten fix parent d).members = d.members) {levels : Nat}
    (hd : d.depth ≤ levels) (fixes : List Fix) :
    ((transformer r fix).transform levels parent d fixes).Fails ↔ FailsIn fix parent d := by
  induction levels generalizing parent d fixes with
  | zero =>
    rw [depth_eq] at hd
    exact absurd hd (Nat.not_succ_le_zero _)
  | succ levels ih =>
    have hdepth : ∀ m ∈ d.members, m.depth ≤ levels := by
      intro m hm
      have hle := depth_le_depthOfAll hm
      rw [depth_eq] at hd
      omega
    rw [failsIn_iff]
    cases hfix : fix d parent with
    | error e =>
      refine iff_of_true ⟨e, fixes, ?_⟩ (.inl ⟨e, rfl⟩)
      rw [Transformer.transform, transformer, hfix]
    | ok outcome =>
      obtain ⟨replacement, fixes₁, hshown, hcurrent⟩ :=
        exists_transformer_eq_ok (r := r) hfix fixes
      have hmembers : (replacement.getD d).members = d.members := by
        rw [hcurrent, hkeeps]
      have hends : ∀ m ∈ d.members, ∀ fixes₂,
          (transformer r fix).transform levels (some (replacement.getD d)) m fixes₂ ≠
            .unfinished := fun m hm fixes₂ =>
        Transformer.transform_ne_unfinished (transformer_keepsMembers_of_rewritten hkeeps)
          (hdepth m hm) _ fixes₂
      have hfails := PassResult.mapAll_fails_iff hends
        (fun m hm fixes₂ => ih (hdepth m hm) fixes₂) fixes₁
      rw [Transformer.transform, hshown]
      simp only
      rw [PassResult.bind_done_fails_iff, hmembers, hfails, hcurrent]
      simp

/-! ## The rule against redundant `unsafe` -/

/-- The rule against redundant `unsafe` is refused at a member of an unsafe type whose only modifier
is an `unsafe` with a comment that has nowhere to go. -/
theorem fixRedundantUnsafe_eq_error_iff {e : EditError} :
    fixRedundantUnsafe d parent = .error e ↔
      parent.any isUnsafeType ∧ d.LoneCommented .unsafeKw ∧
        e = .noAnchorToken (.modifier .unsafeKw) := by
  rw [fixRedundantUnsafe]
  split
  · rename_i hfires
    rw [Bool.and_eq_true] at hfires
    rw [bind_eq_error_iff, removeKind_eq_error_iff hfires.2]
    constructor
    · rintro (hrefused | ⟨fixed, -, hdone⟩)
      · exact ⟨hfires.1, hrefused⟩
      · cases hdone
    · exact fun h => .inl h.2
  · rename_i hquiet
    refine iff_of_false (fun he => ?_) ?_
    · cases he
    · rintro ⟨hparent, ⟨t, hmodifiers, ht, -⟩, -⟩
      rw [hparent, hasModifier, hmodifiers] at hquiet
      simp [ht] at hquiet

/-- The rule against redundant `unsafe` keeps the members of what it rewrites. -/
theorem members_rewritten_fixRedundantUnsafe (parent : Option Declaration) (d : Declaration) :
    (rewritten fixRedundantUnsafe parent d).members = d.members := by
  rw [rewritten]
  split
  · rename_i change hfix
    have hchanged : Changes .standard StyleRule.redundantUnsafe parent d change.1 :=
      changes_of_fixNode hfix
    cases hchanged with
    | redundantUnsafe _ _ hedit => exact members_of_editSignature hedit
  · rfl

/-- **The rule against redundant `unsafe` fails on a tree** with a member as described, whose
container is still an unsafe type after the rule has dealt with it.  There is only one error. -/
theorem outcome_redundantUnsafe_eq_error_iff {settings : StyleSettings} {e : EditError} :
    (redundantUnsafe.attempt settings d).outcome = .error e ↔
      (∃ path m, d.at? path = some m ∧
        (containerAt fixRedundantUnsafe none d path).any isUnsafeType ∧
        m.LoneCommented .unsafeKw) ∧
      e = .noAnchorToken (.modifier .unsafeKw) := by
  have herror : ∀ e fixes,
      (transformer redundantUnsafe fixRedundantUnsafe).transform d.depth none d [] =
        .failed e fixes → e = .noAnchorToken (.modifier .unsafeKw) := by
    intro e fixes hfailed
    obtain ⟨m, container, fixes₁, hstep⟩ :=
      Transformer.exists_step_of_transform_eq_failed hfailed
    rw [transformer] at hstep
    split at hstep
    · rename_i e' hrefused
      cases hstep
      exact (fixRedundantUnsafe_eq_error_iff.1 hrefused).2.2
    · cases hstep
    · cases hstep
  have hfails :
      ((transformer redundantUnsafe fixRedundantUnsafe).transform d.depth none d []).Fails ↔
      ∃ path m, d.at? path = some m ∧
        (containerAt fixRedundantUnsafe none d path).any isUnsafeType ∧
        m.LoneCommented .unsafeKw := by
    rw [transform_fails_iff members_rewritten_fixRedundantUnsafe (Nat.le_refl _)]
    simp only [FailsIn, fixRedundantUnsafe_eq_error_iff, exists_and_left, exists_eq, and_true]
  rw [← hfails, outcome_eq_error_iff]
  constructor
  · rintro ⟨fixes, hfailed⟩
    exact ⟨⟨e, fixes, hfailed⟩, herror e fixes hfailed⟩
  · rintro ⟨⟨e', fixes, hfailed⟩, rfl⟩
    obtain rfl := herror e' fixes hfailed
    exact ⟨fixes, hfailed⟩

end StyleRule

/-! ## Checks -/

namespace Check

open StyleRule

/-- **When a check fails.**  It does so exactly if it is asked for the rule against redundant
`unsafe` and there is a member in the tree whose only modifier is an `unsafe` with a comment, which
has no token after its modifiers, and whose direct container is a type that still carries `unsafe`
after its own rewriting.  The error is that the `unsafe` has no neighbour to take the comment. -/
theorem run_eq_error_iff (names : List String) (settings : StyleSettings) (d : Declaration)
    (e : EditError) :
    (run names settings d).outcome = .error e ↔
      redundantUnsafe.name ∈ names ∧
      (∃ path m, d.at? path = some m ∧
        (containerAt fixRedundantUnsafe none d path).any isUnsafeType ∧
        m.LoneCommented .unsafeKw) ∧
      e = .noAnchorToken (.modifier .unsafeKw) := by
  have hall : StyleRule.all.Pairwise fun r s => s.priority < r.priority := by decide
  have hsorted := hall.filter (·.name ∈ names)
  rw [outcome_run]
  by_cases hname : redundantUnsafe.name ∈ names
  · -- the rule comes first, and those after it succeed whatever it has made of the tree
    have hrules : StyleRule.all.filter (·.name ∈ names) =
        redundantUnsafe :: StyleRule.all.tail.filter (·.name ∈ names) :=
      List.filter_cons_of_pos (by simpa using hname)
    have hothers : redundantUnsafe ∉ StyleRule.all.tail.filter (·.name ∈ names) := by
      intro hmem
      exact absurd (List.mem_of_mem_filter hmem) (by decide)
    rw [hrules, List.pairwise_cons] at hsorted
    have hfirst : applyAll settings (StyleRule.all.filter (·.name ∈ names)) d = .error e ↔
        redundantUnsafe.fix settings d = .error e := by
      rw [hrules, applyAll, bind_eq_error_iff]
      constructor
      · rintro (hrefused | ⟨f, -, hrest⟩)
        · exact hrefused
        · obtain ⟨g, hg, -⟩ := exists_applyAll_eq_ok hsorted.2 hothers f.tree
          rw [hg] at hrest
          cases hrest
      · exact .inl
    rw [hfirst, fix, Attempt.fixed, map_eq_error_iff, outcome_redundantUnsafe_eq_error_iff]
    exact (and_iff_right hname).symm
  · have hothers : redundantUnsafe ∉ StyleRule.all.filter (·.name ∈ names) := by
      intro hmem
      exact hname (of_decide_eq_true (List.mem_filter.1 hmem).2)
    obtain ⟨f, hf, -⟩ := exists_applyAll_eq_ok hsorted hothers d
    rw [hf]
    refine iff_of_false (fun he => ?_) (fun h => hname h.1)
    cases he

/-- An unsafe class with given members. -/
def unsafeClassOf (members : List Declaration) : Declaration :=
  .type .classType ⟨[⟨.modifier .unsafeKw, "unsafe", [], [.space]⟩], [.bare .keyword "class"], none⟩
    members [.bare .punctuation "\x7d"]

/-- A member cut off behind `unsafe` with a comment. -/
def cutOff : Declaration :=
  .plain .incompleteMember
    ⟨[⟨.modifier .unsafeKw, "unsafe", [], [.space, ⟨.multiLineComment, "/* a */"⟩]⟩], [], none⟩

/-- A check fails on an unsafe class with such a member.  One class further in, the container loses
its own `unsafe`, and the member keeps its own. -/
theorem run_eq_error_iff_cutOff :
    (run ["redundant_unsafe"] .standard (unsafeClassOf [cutOff])).outcome =
      .error (.noAnchorToken (.modifier .unsafeKw)) ∧
    ∃ f, (run ["redundant_unsafe"] .standard (unsafeClassOf [unsafeClassOf [cutOff]])).outcome =
      .ok f ∧ f.fixes.length = 1 := by
  have hcutOff : cutOff.LoneCommented .unsafeKw := ⟨_, rfl, rfl, by decide, rfl⟩
  refine ⟨?_, _, rfl, rfl⟩
  refine (run_eq_error_iff _ _ _ _).2 ⟨List.mem_singleton.2 rfl, ⟨[0], cutOff, rfl, rfl, ?_⟩, rfl⟩
  exact hcutOff

end Check

end DeclStyle
