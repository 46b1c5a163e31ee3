import DeclStyle.Proofs.StyleRule.Frame
import DeclStyle.Proofs.StyleRule.Idempotence

/-!
# Records of changes

A rule records a change for each declaration that it replaces, whether or not the replacement
differs, and a later rule might undo what an earlier one has done.  Neither happens: a record is
empty exactly if the tree is the same in every field.

Rules that insert or sort bring about a tree that satisfies them.  If that is the tree they were
given, they have had nothing to do.  The rule against redundant `unsafe` need not be satisfied with
its own tree, but every change it makes takes one `unsafe` away, which no rule puts back.

* `Declaration.unsafeCount` — how often `unsafe` stands in a tree;
* `StyleRule.unsafeCount_of_outcome` — no rule makes it more, and the rule against redundant
  `unsafe` leaves it the same only where it has nothing to do;
* `Check.fixes_eq_nil_of_tree_eq` — rules in order of priority that give back a tree have recorded
  nothing;
* `Check.records_truthful` — the record of a rule and of a check.
-/

namespace DeclStyle

open Declaration

/-! ## Counting -/

namespace Declaration

/-- How often the keyword `unsafe` stands in a list of tokens. -/
def unsafeCountOf (ts : List Token) : Nat := (ts.map Token.kind).count (.modifier .unsafeKw)

/-- How often the keyword `unsafe` stands in a declaration. -/
def unsafeCount (d : Declaration) : Nat := unsafeCountOf d.tokens

theorem unsafeCountOf_append (xs ys : List Token) :
    unsafeCountOf (xs ++ ys) = unsafeCountOf xs + unsafeCountOf ys := by
  simp [unsafeCountOf]

/-- The `unsafe` of a declaration stand among its own tokens and in its members. -/
theorem unsafeCount_eq (d : Declaration) :
    d.unsafeCount = unsafeCountOf d.modifiers + unsafeCountOf d.rest + unsafeCountOf d.tail +
      unsafeCountOf (tokensOfAll d.members) := by
  have hopening : d.opening = d.modifiers ++ d.rest := by cases d <;> rfl
  rw [unsafeCount, tokens_eq, hopening, body, unsafeCountOf_append, unsafeCountOf_append,
    unsafeCountOf_append]
  omega

/-- The order of declarations is of no account. -/
theorem unsafeCountOf_tokensOfAll_perm {ds es : List Declaration} (h : ds.Perm es) :
    unsafeCountOf (tokensOfAll ds) = unsafeCountOf (tokensOfAll es) := by
  rw [tokensOfAll_eq_flatMap, tokensOfAll_eq_flatMap]
  exact ((h.flatMap_right tokens).map Token.kind).count_eq _

/-- If no declaration of a list gets more `unsafe`, the list does not, and it keeps their number
only if each declaration does. -/
theorem unsafeCountOf_tokensOfAll_le {P : Declaration → Prop} {ds es : List Declaration}
    (h : List.Forall₂ (fun d e => e.unsafeCount ≤ d.unsafeCount ∧
      (e.unsafeCount = d.unsafeCount → P d)) ds es) :
    unsafeCountOf (tokensOfAll es) ≤ unsafeCountOf (tokensOfAll ds) ∧
      (unsafeCountOf (tokensOfAll es) = unsafeCountOf (tokensOfAll ds) → ∀ d ∈ ds, P d) := by
  induction h with
  | nil => exact ⟨le_refl _, fun _ _ hd => nomatch hd⟩
  | @cons d e ds es hfirst _ ih =>
    obtain ⟨hle, hfirst⟩ := hfirst
    obtain ⟨hall, hrest⟩ := ih
    simp only [tokensOfAll, unsafeCountOf_append]
    simp only [unsafeCount] at hle hfirst
    refine ⟨by omega, fun heq => ?_⟩
    rw [List.forall_mem_cons]
    exact ⟨hfirst (by omega), hrest (by omega)⟩

/-- Of what a declaration keeps as its frame, no `unsafe` is lost. -/
theorem Framed.unsafeCountOf_rest {d e : Declaration} (h : Framed d e) :
    unsafeCountOf e.rest = unsafeCountOf d.rest := by
  rw [unsafeCountOf, Token.map_eq_of_stripFirst_eq Token.ignoresTrivia_kind h.rest, unsafeCountOf]

end Declaration

namespace StyleRule

variable {r : StyleRule} {settings : StyleSettings} {parent : Option Declaration}
  {d e : Declaration}

/-- No rule adds an `unsafe` to the keywords of a declaration. -/
theorem KeywordsChanged.unsafeCountOf_le {rules : List StyleRule}
    (h : KeywordsChanged settings rules d e) :
    unsafeCountOf e.modifiers ≤ unsafeCountOf d.modifiers := by
  obtain ⟨dropped, made, declared, -, hmade, hdeclared, -, hperm⟩ := h
  have hnone : TokenKind.modifier .unsafeKw ∉ (made ++ declared).map TokenKind.modifier := by
    intro hmem
    obtain ⟨k, hk, rfl⟩ : ∃ k ∈ made ++ declared, k = .unsafeKw := by simpa using hmem
    rcases List.mem_append.1 hk with hstatic | haccess
    · rcases hmade with rfl | ⟨-, rfl⟩
      · cases hstatic
      · exact absurd hstatic (by decide)
    · rcases hdeclared with rfl | ⟨-, rfl⟩
      · cases haccess
      · exact absurd (Accessibility.isAccessibility_of_mem_keywords haccess) (by decide)
  have hcount := List.perm_iff_count.1 hperm (.modifier .unsafeKw)
  rw [List.count_append, List.count_append, List.count_eq_zero.2 hnone] at hcount
  unfold unsafeCountOf
  omega

/-- The rule against redundant `unsafe` takes one away from every declaration that it changes. -/
theorem Changes.unsafeCountOf_eq (h : Changes settings .redundantUnsafe parent d e) :
    unsafeCountOf d.modifiers = unsafeCountOf e.modifiers + 1 := by
  cases h with
  | redundantUnsafe _ hunsafe hedit =>
    obtain ⟨s, s', hs, hs', rfl⟩ := editSignature_eq_ok_iff.1 hedit
    rw [hasModifier, modifiers_eq hs] at hunsafe
    have hcount := (Signature.kinds_of_removeKind hs' hunsafe).count_eq (.modifier .unsafeKw)
    rw [modifiers_withSignature (by simp [hs]), modifiers_eq hs, unsafeCountOf, unsafeCountOf,
      hcount, List.count_cons_self]

/-! ## Trees -/

/-- **No rule adds an `unsafe` to a tree**, and the rule against redundant `unsafe` leaves their
number as it is only where it has nothing to do. -/
theorem unsafeCount_of_outcome (h : (r.attempt settings d).outcome = .ok e) :
    e.unsafeCount ≤ d.unsafeCount ∧
      (e.unsafeCount = d.unsafeCount → r = redundantUnsafe → Satisfied r settings none d) := by
  refine fix_induction (fun parent d e => e.unsafeCount ≤ d.unsafeCount ∧
    (e.unsafeCount = d.unsafeCount → r = redundantUnsafe → Satisfied r settings parent d)) ?_ ?_ h
  · intro parent d members hfix hmembers
    obtain ⟨hle, hsatisfied⟩ := unsafeCountOf_tokensOfAll_le hmembers
    have hnew := members_withMembers_of_forall₂ hmembers
    have hframed := Framed.withMembers d members
    rw [unsafeCount_eq d, unsafeCount_eq, hnew, modifiers_withMembers, hframed.unsafeCountOf_rest,
      hframed.tail]
    refine ⟨by omega, fun heq hr => ?_⟩
    exact .intro (fixNode_eq_ok_none_iff.1 hfix) fun m hm => hsatisfied (by omega) m hm hr
  · intro parent d current members hchanged hmembers
    obtain ⟨hle, -⟩ := unsafeCountOf_tokensOfAll_le hmembers
    have hnew := members_withMembers_of_forall₂ hmembers
    have hframed := hchanged.edited.framed.trans (Framed.withMembers current members)
    have hsame := unsafeCountOf_tokensOfAll_perm hchanged.members_perm
    have hmodifiers := hchanged.edited.keywords.unsafeCountOf_le
    rw [unsafeCount_eq d, unsafeCount_eq, hnew, modifiers_withMembers, hframed.unsafeCountOf_rest,
      hframed.tail]
    refine ⟨by omega, fun heq hr => ?_⟩
    -- a change has taken one away
    subst hr
    have hone := hchanged.unsafeCountOf_eq
    omega

end StyleRule

/-! ## Checks -/

namespace Check

open StyleRule

variable {settings : StyleSettings} {rules : List StyleRule} {d : Declaration} {f : Fixed}

theorem unsafeCount_of_applyAll (h : applyAll settings rules d = .ok f) :
    f.tree.unsafeCount ≤ d.unsafeCount := by
  induction rules generalizing d f with
  | nil =>
    obtain rfl := Except.ok.inj h
    exact le_refl _
  | cons r rest ih =>
    obtain ⟨first, hfix, h⟩ := bind_eq_ok_iff.1 h
    obtain ⟨others, hothers, hdone⟩ := bind_eq_ok_iff.1 h
    obtain rfl := Except.ok.inj hdone
    obtain ⟨tree, houtcome, rfl⟩ := map_eq_ok_iff.1 hfix
    exact (ih hothers).trans (unsafeCount_of_outcome houtcome).1

/-- Rules that record no change give back the tree. -/
theorem tree_eq_of_fixes_eq_nil (h : applyAll settings rules d = .ok f) (hfixes : f.fixes = []) :
    f.tree = d := by
  induction rules generalizing d f with
  | nil =>
    obtain rfl := Except.ok.inj h
    rfl
  | cons r rest ih =>
    obtain ⟨first, hfix, h⟩ := bind_eq_ok_iff.1 h
    obtain ⟨others, hothers, hdone⟩ := bind_eq_ok_iff.1 h
    obtain rfl := Except.ok.inj hdone
    obtain ⟨hfirst, hrest⟩ := List.append_eq_nil_iff.1 hfixes
    exact (ih hothers hrest).trans (tree_eq_of_no_fixes hfix hfirst)

/-- Rules other than the one against redundant `unsafe` that give back a tree have recorded nothing,
since the tree satisfies them. -/
theorem fixes_eq_nil_of_tree_eq_of_notMem (hleft : redundantUnsafe ∉ rules)
    (hsorted : rules.Pairwise fun r s => s.priority < r.priority)
    (h : applyAll settings rules d = .ok f) (hsame : f.tree = d) : f.fixes = [] := by
  obtain ⟨g, hg, hsatisfied, -⟩ := exists_applyAll_eq_ok hsorted hleft d
  obtain rfl : f = g := Except.ok.inj (h.symm.trans hg)
  rw [hsame] at hsatisfied
  have hnothing := applyAll_of_satisfied hsatisfied
  rw [h] at hnothing
  exact congrArg Fixed.fixes (Except.ok.inj hnothing)

/-- **Rules that give back a tree have recorded nothing.** -/
theorem fixes_eq_nil_of_tree_eq (hsorted : rules.Pairwise fun r s => s.priority < r.priority)
    (h : applyAll settings rules d = .ok f) (hsame : f.tree = d) : f.fixes = [] := by
  by_cases hmem : redundantUnsafe ∈ rules
  · cases rules with
    | nil => cases hmem
    | cons r rest =>
      obtain ⟨hbelow, hrest⟩ := List.pairwise_cons.1 hsorted
      obtain rfl : redundantUnsafe = r := by
        rcases List.mem_cons.1 hmem with rfl | hlater
        · rfl
        · have hlt := hbelow _ hlater
          cases r <;> simp [priority] at hlt
      have hleft : redundantUnsafe ∉ rest := fun hin => absurd (hbelow _ hin) (lt_irrefl _)
      obtain ⟨first, hfix, h⟩ := bind_eq_ok_iff.1 h
      obtain ⟨others, hothers, hdone⟩ := bind_eq_ok_iff.1 h
      obtain rfl := Except.ok.inj hdone
      -- no `unsafe` has gone, since none could have come back
      have hcounts : first.tree.unsafeCount = d.unsafeCount ∧ Satisfied redundantUnsafe settings
          none d := by
        obtain ⟨tree, houtcome, rfl⟩ := map_eq_ok_iff.1 hfix
        obtain ⟨hle, hsatisfied⟩ := unsafeCount_of_outcome houtcome
        have hback := unsafeCount_of_applyAll hothers
        rw [show others.tree = d from hsame] at hback
        exact ⟨le_antisymm hle hback, hsatisfied (le_antisymm hle hback) rfl⟩
      rw [fix_of_satisfied hcounts.2] at hfix
      obtain rfl := Except.ok.inj hfix
      exact fixes_eq_nil_of_tree_eq_of_notMem hleft hrest hothers hsame
  · exact fixes_eq_nil_of_tree_eq_of_notMem hmem hsorted h hsame

/-- Rules in order of priority record nothing exactly if they give back the tree. -/
theorem fixes_eq_nil_iff_of_applyAll
    (hsorted : rules.Pairwise fun r s => s.priority < r.priority)
    (h : applyAll settings rules d = .ok f) : f.fixes = [] ↔ f.tree = d :=
  ⟨tree_eq_of_fixes_eq_nil h, fixes_eq_nil_of_tree_eq hsorted h⟩

/-- **Records are truthful.**  Whenever the application of a rule or a check succeeds, no change is
recorded exactly if the tree is the same in every field, and the result counts as changed exactly if
it is not. -/
theorem records_truthful (settings : StyleSettings) (d : Declaration) (f : Fixed) :
    (∀ r : StyleRule, r.fix settings d = .ok f →
      (f.fixes = [] ↔ f.tree = d) ∧ (f.isChanged ↔ f.tree ≠ d)) ∧
    (∀ names, (run names settings d).outcome = .ok f →
      (f.fixes = [] ↔ f.tree = d) ∧ (f.isChanged ↔ f.tree ≠ d)) := by
  have hboth : (f.fixes = [] ↔ f.tree = d) →
      (f.fixes = [] ↔ f.tree = d) ∧ (f.isChanged ↔ f.tree ≠ d) := by
    intro h
    refine ⟨h, ?_⟩
    rw [ne_eq, ← h]
    simp [Fixed.isChanged]
  constructor
  · intro r h
    have halone : applyAll settings [r] d = .ok f := by
      rw [applyAll, h]
      simp only [bind, Except.bind, applyAll, pure, Except.pure, List.append_nil]
    exact hboth (fixes_eq_nil_iff_of_applyAll (List.pairwise_singleton _ r) halone)
  · intro names h
    have hall : StyleRule.all.Pairwise fun r s => s.priority < r.priority := by decide
    rw [outcome_run] at h
    exact hboth (fixes_eq_nil_iff_of_applyAll (hall.filter (·.name ∈ names)) h)

/-- A namespace with an unsafe class in it, which has the method `unsafe M`. -/
def doublyUnsafe : Declaration :=
  .space [.bare .keyword "namespace"]
    [.type .classType ⟨[unsafeToken], [.bare .keyword "class"], none⟩
      [.plain .method ⟨[unsafeToken], [.bare .identifier "M"], some 0⟩] []] []
where
  unsafeToken : Token := ⟨.modifier .unsafeKw, "unsafe", [], [.space]⟩

/-- The rule against redundant `unsafe` records a change, so the tree is another one.  The rules
that sort record none, so the tree is the same. -/
theorem records_truthful_doublyUnsafe :
    (∃ f, redundantUnsafe.fix .standard doublyUnsafe = .ok f ∧ f.fixes.length = 1 ∧
      f.tree ≠ doublyUnsafe) ∧
    ∃ f, (run ["ordered_class_elements", "ordered_modifiers"] .standard doublyUnsafe).outcome =
      .ok f ∧ f.fixes = [] ∧ f.tree = doublyUnsafe := by
  constructor
  · have hfix : ∃ f, redundantUnsafe.fix .standard doublyUnsafe = .ok f ∧ f.fixes.length = 1 :=
      ⟨_, rfl, rfl⟩
    obtain ⟨f, hf, hfixes⟩ := hfix
    refine ⟨f, hf, hfixes, fun hsame => ?_⟩
    have hnothing := ((records_truthful .standard doublyUnsafe f).1 redundantUnsafe hf).1.2 hsame
    rw [hnothing] at hfixes
    cases hfixes
  · have hrun : ∃ f, (run ["ordered_class_elements", "ordered_modifiers"] .standard
        doublyUnsafe).outcome = .ok f ∧ f.fixes = [] := ⟨_, rfl, rfl⟩
    obtain ⟨f, hf, hfixes⟩ := hrun
    exact ⟨f, hf, hfixes, ((records_truthful .standard doublyUnsafe f).2 _ hf).1.1 hfixes⟩

end Check

end DeclStyle
