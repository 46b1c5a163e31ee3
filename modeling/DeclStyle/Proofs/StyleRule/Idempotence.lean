import DeclStyle.Proofs.StyleRule.Composition
import DeclStyle.Proofs.StyleRule.ModifierOrder

/-!
# Checks come to rest

A check runs each rule once, and a later rule might give an earlier one new work: inserted keywords
change the order of modifiers, and a member that becomes static need not declare its accessibility
any more.  In the order of priority this does not happen.

* `StyleRule.Changes.settles` — a changed declaration gives the same rule nothing to do;
* `StyleRule.satisfied_of_outcome` — hence the tree that a rule makes satisfies it;
* `StyleRule.Alike` — two declarations are alike to a rule in all that it looks at.  A rule of lower
  priority keeps declarations alike to one of higher priority (`Changes.alike`), so it keeps trees
  satisfied (`Satisfied.outcome`);
* `Check.second_check_keeps` — a check without the rule against redundant `unsafe` succeeds, and a
  second one finds nothing to do.
-/

namespace DeclStyle

namespace StyleRule

variable {r r' : StyleRule} {settings : StyleSettings} {parent p q : Option Declaration}
  {d e : Declaration}

/-! ## A changed declaration -/

/-- **A rule settles what it changes**: it does not fire at the declaration that it has made. -/
theorem Changes.settles (h : Changes settings r parent d e) (hr : r ≠ StyleRule.redundantUnsafe) :
    r.fires settings parent e = false := by
  cases h with
  | redundantUnsafe => exact absurd rfl hr
  | staticClassMembers _ _ _ hedit =>
    have hstatic : e.hasModifier .staticKw := by
      rw [Declaration.hasModifier_of_insertKind hedit]
      rfl
    simp [fires, hstatic]
  | visibilityRequired _ _ hedit =>
    obtain ⟨k, hk⟩ := List.exists_mem_of_ne_nil _ settings.defaultAccessibility.keywords_ne_nil
    have hcarried : e.hasModifier k := by
      rw [Declaration.hasModifier_of_insertKinds hedit, List.contains_iff_mem.2 hk]
      rfl
    have hdeclared : e.accessibility?.isSome :=
      e.isSome_accessibility?_iff.2
        ⟨k, Accessibility.isAccessibility_of_mem_keywords hk, hcarried⟩
    simp [fires, needsAccessibility, Option.isNone_eq_false_iff.2 hdeclared]
  | @orderedModifiers _ d s hs _ =>
    rw [fires, Declaration.modifiers_withSignature (by simp [hs]), inOrder_sortModifiers]
    rfl
  | @orderedClassElements _ d htype _ =>
    cases d with
    | plain k s => cases htype
    | space hd ms tl => cases htype
    | type k s ms tl =>
      have hsorted : Comparer.inOrder settings.memberOrder.compare
          (Comparer.stableSort settings.memberOrder.compare ms) := Comparer.inOrder_stableSort ms
      simp [fires, Declaration.withMembers, Declaration.members, Declaration.members?, hsorted]

/-- Two members stand alike in the order of members. -/
def SortsAlike (d e : Declaration) : Prop := e.rank = d.rank ∧ e.name = d.name

theorem sortsAlike_withMembers (d : Declaration) (ms : List Declaration) :
    SortsAlike d (d.withMembers ms) := by
  cases d <;> exact ⟨rfl, rfl⟩

theorem SortsAlike.compare_eq (o : MemberOrder) {d d' e e' : Declaration} (hd : SortsAlike d d')
    (he : SortsAlike e e') : o.compare d' e' = o.compare d e := by
  rw [MemberOrder.compare, MemberOrder.compare, hd.1, hd.2, he.1, he.2]

/-! ## What rules look at -/

/-- Two declarations are alike to a rule.  The rule for members of static classes looks at keywords
that do not declare accessibility, the one for accessibility at all keywords, and the others at the
modifiers themselves. -/
def Alike (r : StyleRule) (d e : Declaration) : Prop :=
  e.kind = d.kind ∧
    match r with
    | staticClassMembers =>
      ∀ k : ModifierKind, k.isAccessibility = false → e.hasModifier k = d.hasModifier k
    | visibilityRequired => ∀ k, e.hasModifier k = d.hasModifier k
    | _ => e.modifiers = d.modifiers

namespace Alike

theorem of_modifiers (hkind : e.kind = d.kind) (h : e.modifiers = d.modifiers) : Alike r d e := by
  refine ⟨hkind, ?_⟩
  cases r with
  | staticClassMembers =>
    intro k _
    rw [Declaration.hasModifier, h, Declaration.hasModifier]
  | visibilityRequired =>
    intro k
    rw [Declaration.hasModifier, h, Declaration.hasModifier]
  | _ => exact h

theorem refl (r : StyleRule) (d : Declaration) : Alike r d d := of_modifiers rfl rfl

theorem withMembers (r : StyleRule) (d : Declaration) (ms : List Declaration) :
    Alike r d (d.withMembers ms) := of_modifiers (by simp) (by simp)

theorem hasModifier_eq (h : Alike r d e) {k : ModifierKind} (hk : k.isAccessibility = false) :
    e.hasModifier k = d.hasModifier k := by
  obtain ⟨-, h⟩ := h
  cases r with
  | staticClassMembers => exact h k hk
  | visibilityRequired => exact h k
  | _ => rw [Declaration.hasModifier, h, Declaration.hasModifier]

theorem isUnsafeType_eq (h : Alike r d e) : isUnsafeType e = isUnsafeType d := by
  rw [isUnsafeType, isUnsafeType, h.1, h.hasModifier_eq rfl]

theorem isStaticClass_eq (h : Alike r d e) : isStaticClass e = isStaticClass d := by
  rw [isStaticClass, isStaticClass, h.1, h.hasModifier_eq rfl]

theorem canBeStatic_eq (h : Alike r d e) : canBeStatic e = canBeStatic d := by
  have hconst : e.isConstField = d.isConstField := by
    rw [Declaration.isConstField, Declaration.isConstField, h.1, h.hasModifier_eq rfl]
  rw [canBeStatic, canBeStatic, h.1, hconst]

theorem needsAccessibility_eq (h : Alike visibilityRequired d e) :
    needsAccessibility e = needsAccessibility d := by
  have haccess : e.accessibility? = d.accessibility? := by
    rw [Declaration.accessibility?_eq, Declaration.accessibility?_eq]
    simp only [h.2]
  rw [needsAccessibility, needsAccessibility, haccess, h.1, h.2, h.2]

/-- What is asked of a container has the same answer for a container that is alike. -/
theorem any_eq {f : Declaration → Bool} (hf : ∀ d e, Alike r d e → f e = f d)
    (h : Option.Rel (Alike r) p q) : q.any f = p.any f := by
  cases h with
  | none => rfl
  | some h => exact hf _ _ h

end Alike

/-- A rule that fires in a container fires in one that is alike. -/
theorem fires_of_parent (h : Option.Rel (Alike r) p q) :
    r.fires settings q d = r.fires settings p d := by
  cases r with
  | redundantUnsafe => rw [fires, fires, Alike.any_eq (fun _ _ h => h.isUnsafeType_eq) h]
  | staticClassMembers => rw [fires, fires, Alike.any_eq (fun _ _ h => h.isStaticClass_eq) h]
  | visibilityRequired =>
    have hkind : ∀ d e, Alike visibilityRequired d e →
        e.kind.isClassOrStruct = d.kind.isClassOrStruct := fun d e h => by rw [h.1]
    rw [fires, fires, Alike.any_eq hkind h]
  | orderedModifiers => rfl
  | orderedClassElements => rfl

/-- A rule that does not look at members fires at declarations that are alike. -/
theorem Alike.fires_eq (h : Alike r d e) (hr : r ≠ orderedClassElements) :
    r.fires settings parent e = r.fires settings parent d := by
  cases r with
  | redundantUnsafe => rw [fires, fires, h.hasModifier_eq rfl]
  | staticClassMembers => rw [fires, fires, h.canBeStatic_eq, h.hasModifier_eq rfl]
  | visibilityRequired => rw [fires, fires, h.needsAccessibility_eq]
  | orderedModifiers => rw [fires, fires, h.2]
  | orderedClassElements => exact absurd rfl hr

theorem Satisfied.of_parent (h : Satisfied r settings p d) (hpq : Option.Rel (Alike r) p q) :
    Satisfied r settings q d := by
  obtain ⟨hquiet, hmembers⟩ := h
  exact .intro (by rw [fires_of_parent hpq, hquiet]) hmembers

/-! ## The tree that a rule makes -/

/-- A tree satisfies a rule if the rule does not fire at its root and its members satisfy it.  The
members may stand for others that sort alike. -/
theorem satisfied_withMembers {members : List Declaration}
    (hquiet : r.fires settings parent d = false)
    (hmembers : List.Forall₂ (fun m m' => Satisfied r settings (some d) m' ∧
      (r = orderedClassElements → SortsAlike m m')) d.members members) :
    Satisfied r settings parent (d.withMembers members) := by
  have hnew : (d.withMembers members).members = members :=
    Declaration.members_withMembers_of_forall₂ hmembers
  refine .intro ?_ ?_
  · by_cases hr : r = orderedClassElements
    · subst hr
      have halike : List.Forall₂ SortsAlike d.members members := hmembers.imp fun _ _ h => h.2 rfl
      have hcompare : ∀ a a' b b', SortsAlike a a' → SortsAlike b b' →
          settings.memberOrder.compare a' b' = settings.memberOrder.compare a b :=
        fun _ _ _ _ ha hb => ha.compare_eq settings.memberOrder hb
      have horder := Comparer.inOrder_of_forall₂ hcompare halike
      rw [fires] at hquiet ⊢
      rw [Declaration.kind_withMembers, hnew, horder, hquiet]
    · rw [(Alike.withMembers r d members).fires_eq hr, hquiet]
  · intro m' hm'
    rw [hnew] at hm'
    obtain ⟨m, -, hsatisfied, -⟩ := Declaration.exists_mem_of_forall₂ hmembers hm'
    exact hsatisfied.of_parent (.some (Alike.withMembers r d members))

/-- **The tree that a rule makes satisfies it.** -/
theorem satisfied_of_outcome (hr : r ≠ redundantUnsafe)
    (h : (r.attempt settings d).outcome = .ok e) : Satisfied r settings none e := by
  have hboth := fix_induction (fun parent d e => Satisfied r settings parent e ∧
    (r = orderedClassElements → SortsAlike d e)) ?kept ?changed h
  case kept =>
    intro parent d members hfix hmembers
    exact ⟨satisfied_withMembers (fixNode_eq_ok_none_iff.1 hfix) hmembers,
      fun _ => sortsAlike_withMembers d members⟩
  case changed =>
    intro parent d current members hchanged hmembers
    refine ⟨satisfied_withMembers (hchanged.settles hr) hmembers, ?_⟩
    intro hsorts
    cases hchanged with
    | orderedClassElements =>
      have hfirst := sortsAlike_withMembers d
        (Comparer.stableSort settings.memberOrder.compare d.members)
      have hsecond := sortsAlike_withMembers
        (d.withMembers (Comparer.stableSort settings.memberOrder.compare d.members)) members
      exact ⟨hsecond.1.trans hfirst.1, hsecond.2.trans hfirst.2⟩
    | _ => cases hsorts
  exact hboth.1

/-! ## Rules of lower priority -/

/-- **A rule keeps declarations alike to the rules of higher priority.** -/
theorem Changes.alike (h : Changes settings r' parent d e) (hr : r ≠ StyleRule.redundantUnsafe)
    (hlater : r'.priority < r.priority) : Alike r d e := by
  cases h with
  | redundantUnsafe =>
    cases r <;> simp [priority] at hlater
  | staticClassMembers =>
    cases r with
    | redundantUnsafe => exact absurd rfl hr
    | _ => simp [priority] at hlater
  | visibilityRequired _ _ hedit =>
    refine ⟨Declaration.kind_of_editSignature hedit, ?_⟩
    cases r with
    | redundantUnsafe => exact absurd rfl hr
    | staticClassMembers =>
      intro k hk
      have hother : settings.defaultAccessibility.keywords.contains k = false := by
        rw [← Bool.not_eq_true, List.contains_iff_mem]
        intro hmem
        have haccess := Accessibility.isAccessibility_of_mem_keywords hmem
        rw [hk] at haccess
        cases haccess
      rw [Declaration.hasModifier_of_insertKinds hedit, hother, Bool.false_or]
    | _ => simp [priority] at hlater
  | @orderedModifiers _ d s hs _ =>
    have hkinds : ∀ k,
        (d.withSignature { s with modifiers := sortModifiers s.modifiers }).hasModifier k =
          d.hasModifier k := by
      refine Declaration.hasModifier_of_perm ?_
      rw [Declaration.modifiers_withSignature (by simp [hs]), Declaration.modifiers_eq hs]
      exact map_sortModifiers_perm Token.ignoresTrivia_kind s.modifiers
    refine ⟨Declaration.kind_withSignature d _, ?_⟩
    cases r with
    | redundantUnsafe => exact absurd rfl hr
    | staticClassMembers => exact fun k _ => hkinds k
    | visibilityRequired => exact hkinds
    | _ => simp [priority] at hlater
  | orderedClassElements => exact Alike.withMembers r d _

/-- A rule at most reorders the members of a declaration that it changes. -/
theorem Changes.members_perm (h : Changes settings r parent d e) : e.members.Perm d.members := by
  obtain ⟨message, hfix⟩ := exists_fixNode_of_changes h
  exact members_perm_of_fixNode hfix

/-- What satisfied a rule does so after a change that the rule does not see, once each member has
been dealt with in its turn. -/
theorem Satisfied.of_alike {current : Declaration} {members : List Declaration}
    (h : Satisfied r settings parent d) (hr : r ≠ orderedClassElements) (halike : Alike r d current)
    (hperm : current.members.Perm d.members)
    (hmembers : List.Forall₂ (fun m m' => ∀ p, Option.Rel (Alike r) p (some current) →
      Satisfied r settings p m → Satisfied r settings (some current) m') current.members members) :
    Satisfied r settings parent (current.withMembers members) := by
  obtain ⟨hquiet, hold⟩ := h
  have hnew : (current.withMembers members).members = members :=
    Declaration.members_withMembers_of_forall₂ hmembers
  refine .intro ?_ ?_
  · rw [(Alike.withMembers r current members).fires_eq hr, halike.fires_eq hr, hquiet]
  · intro m' hm'
    rw [hnew] at hm'
    obtain ⟨m, hm, hkeeps⟩ := Declaration.exists_mem_of_forall₂ hmembers hm'
    have hbefore : Satisfied r settings (some d) m := hold m (hperm.mem_iff.1 hm)
    have hafter := hkeeps (some d) (.some halike) hbefore
    exact hafter.of_parent (.some (Alike.withMembers r current members))

/-- **A tree that satisfies a rule goes on doing so** when a rule of lower priority is applied to
it. -/
theorem Satisfied.outcome (h : Satisfied r settings none d) (hr : r ≠ redundantUnsafe)
    (hlater : r'.priority < r.priority) (hrun : (r'.attempt settings d).outcome = .ok e) :
    Satisfied r settings none e := by
  have helements : r ≠ orderedClassElements := by
    rintro rfl
    cases r' <;> simp [priority] at hlater
  -- the container has been dealt with already, and is alike to what it was
  have hall := fix_induction (fun parent d e => ∀ p, Option.Rel (Alike r) p parent →
    Satisfied r settings p d → Satisfied r settings parent e) ?kept ?changed hrun
  case kept =>
    intro parent d members _ hmembers p hp hd
    exact (hd.of_parent hp).of_alike helements (Alike.refl r d) (List.Perm.refl _) hmembers
  case changed =>
    intro parent d current members hchanged hmembers p hp hd
    exact (hd.of_parent hp).of_alike helements (hchanged.alike hr hlater) hchanged.members_perm
      hmembers
  exact hall none .none h

end StyleRule

/-! ## Checks -/

namespace Check

open StyleRule

variable {settings : StyleSettings}

/-- Rules in order of priority bring about a tree that satisfies them all, and one that satisfies a
rule of higher priority goes on doing so. -/
theorem exists_applyAll_eq_ok {rules : List StyleRule}
    (hsorted : rules.Pairwise fun r s => s.priority < r.priority)
    (hleft : redundantUnsafe ∉ rules) (d : Declaration) :
    ∃ f, applyAll settings rules d = .ok f ∧ (∀ r ∈ rules, Satisfied r settings none f.tree) ∧
      ∀ r, r ≠ redundantUnsafe → (∀ s ∈ rules, s.priority < r.priority) →
        Satisfied r settings none d → Satisfied r settings none f.tree := by
  induction rules generalizing d with
  | nil => exact ⟨⟨d, []⟩, rfl, fun _ hr => absurd hr List.not_mem_nil, fun _ _ _ h => h⟩
  | cons r rest ih =>
    obtain ⟨hfirst, hrest⟩ := List.pairwise_cons.1 hsorted
    have hr : r ≠ redundantUnsafe := fun h => hleft (h ▸ List.mem_cons_self)
    obtain ⟨f, hf, houtcome⟩ := exists_fix_eq_ok hr settings d
    obtain ⟨g, hg, hsatisfied, hkept⟩ :=
      ih hrest (fun h => hleft (List.mem_cons_of_mem r h)) f.tree
    refine ⟨⟨g.tree, f.fixes ++ g.fixes⟩, ?_, ?_, ?_⟩
    · rw [applyAll, hf]
      simp only [bind, Except.bind, hg]
      rfl
    · intro s hs
      rcases List.mem_cons.1 hs with rfl | hs
      · exact hkept s hr hfirst (satisfied_of_outcome hr houtcome)
      · exact hsatisfied s hs
    · intro s hs hpriority hd
      have hlater := hpriority r List.mem_cons_self
      exact hkept s hs (fun s' hs' => hpriority s' (List.mem_cons_of_mem r hs'))
        (hd.outcome hs hlater houtcome)

/-- Rules that a tree satisfies do nothing to it. -/
theorem applyAll_of_satisfied {rules : List StyleRule} {d : Declaration}
    (h : ∀ r ∈ rules, Satisfied r settings none d) : applyAll settings rules d = .ok ⟨d, []⟩ := by
  induction rules with
  | nil => rfl
  | cons r rest ih =>
    rw [applyAll, fix_of_satisfied (h r List.mem_cons_self)]
    simp only [bind, Except.bind, ih fun s hs => h s (List.mem_cons_of_mem r hs)]
    rfl

/-- **A second check finds nothing to do.**  A check that is not asked for the rule against
redundant `unsafe` succeeds, whatever else it is asked for, and the same check of the tree that it
has made keeps that tree and records no change. -/
theorem second_check_keeps (names : List String) (settings : StyleSettings) (d : Declaration)
    (h : redundantUnsafe.name ∉ names) :
    ∃ f, (run names settings d).outcome = .ok f ∧
      (run names settings f.tree).outcome = .ok ⟨f.tree, []⟩ := by
  have hall : StyleRule.all.Pairwise fun r s => s.priority < r.priority := by decide
  have hleft : redundantUnsafe ∉ StyleRule.all.filter (·.name ∈ names) := by
    intro hmem
    exact h (of_decide_eq_true (List.mem_filter.1 hmem).2)
  obtain ⟨f, hf, hsatisfied, -⟩ := exists_applyAll_eq_ok (hall.filter _) hleft d
  refine ⟨f, ?_, ?_⟩
  · rw [outcome_run, hf]
  · rw [outcome_run, applyAll_of_satisfied hsatisfied]

/-- A static class with the method `partial M`, the constant `const protected c` and the constructor
`C`, in this order. -/
def unsettledClass : Declaration :=
  .type .classType ⟨modifiers [.staticKw], [.bare .keyword "class"], none⟩
    [.plain .method ⟨modifiers [.partialKw], [.bare .identifier "M"], some 0⟩,
      .plain .field ⟨modifiers [.constKw, .protectedKw], [.bare .identifier "c"], some 0⟩,
      .plain .constructor ⟨[], [.bare .identifier "C"], some 0⟩]
    [.bare .punctuation "\x7d"]
where
  modifiers (kinds : List ModifierKind) : List Token :=
    kinds.map fun k => ⟨.modifier k, k.keyword, [], [.space]⟩

/-- The method and the constructor become static, so that the constructor need not declare its
accessibility; the modifiers of the constant and the members are sorted.  That takes four changes,
and the second check makes none. -/
theorem second_check_keeps_unsettledClass :
    StyleRule.redundantUnsafe.name ∉ ["ordered_class_elements", "visibility_required", "nope",
      "ordered_modifiers", "static_class_members", "static_class_members"] ∧
    ∃ f, (run ["ordered_class_elements", "visibility_required", "nope", "ordered_modifiers",
        "static_class_members", "static_class_members"] ⟨.byKindThenByName, .ordinal,
          .protectedOrInternal⟩ unsettledClass).outcome = .ok f ∧ f.fixes.length = 4 ∧
      (run ["ordered_class_elements", "visibility_required", "nope", "ordered_modifiers",
        "static_class_members", "static_class_members"] ⟨.byKindThenByName, .ordinal,
          .protectedOrInternal⟩ f.tree).outcome = .ok ⟨f.tree, []⟩ := by
  have hnames : StyleRule.redundantUnsafe.name ∉ ["ordered_class_elements",
      "visibility_required", "nope", "ordered_modifiers", "static_class_members",
      "static_class_members"] := by decide
  obtain ⟨f, hf, hagain⟩ := second_check_keeps _ ⟨.byKindThenByName, .ordinal,
    .protectedOrInternal⟩ unsettledClass hnames
  have hcount : ((run ["ordered_class_elements", "visibility_required", "nope",
      "ordered_modifiers", "static_class_members", "static_class_members"] ⟨.byKindThenByName,
        .ordinal, .protectedOrInternal⟩ unsettledClass).outcome.map (·.fixes.length)) = .ok 4 := rfl
  rw [hf] at hcount
  exact ⟨hnames, f, hf, Except.ok.inj hcount, hagain⟩

end Check

end DeclStyle
