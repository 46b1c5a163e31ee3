import DeclStyle.Config.StyleConfig
import DeclStyle.Proofs.Order.Sorted
import DeclStyle.Proofs.StyleRule.Satisfied
import Mathlib.Data.List.Sort

/-!
# Checks as compositions of rules

A check sorts the rules it is asked for and drops repeats that stand next to each other, and it does
not take over the tree of a rule that records no change.  So it is the composition of its rules in
order of priority only if sorting brings all repeats together, and if a rule without record has left
the tree alone.  Both hold.

* `Check.resolve_eq_filter` — the rules of a check are those of its names, each once, those of
  higher priority first;
* `Check.applyAll` — rules applied one after another, their records joined;
* `Check.rule_mem_of_run` — a check records changes of no rule that it was not asked for;
* `Check.run_is_composition` — a check is that composition, so it depends on its names only through
  the set of rules they name.
-/

namespace DeclStyle.Check

open StyleRule

variable {settings : StyleSettings} {d : Declaration}

/-! ## The rules of a check -/

instance : Std.TransCmp comparePriority := by
  have hdown : Std.TransCmp fun m n : Nat => compare n m := .opposite
  exact Comparer.transCmp_comap (fun m n => compare n m) StyleRule.priority

theorem comparePriority_ne_gt_iff (r s : StyleRule) :
    comparePriority r s ≠ .gt ↔ s.priority ≤ r.priority := by
  exact Ordering.ne_gt_iff_isLE.trans Nat.isLE_compare

theorem mem_dropRepeats_iff {r : StyleRule} {rules : List StyleRule} :
    r ∈ dropRepeats rules ↔ r ∈ rules := by
  refine ⟨mem_of_mem_dropRepeats, fun h => ?_⟩
  fun_induction dropRepeats rules with
  | case1 s rest ih =>
    rcases List.mem_cons.1 h with rfl | h
    · exact ih List.mem_cons_self
    · exact ih h
  | case2 s s' rest hne ih =>
    rcases List.mem_cons.1 h with rfl | h
    · exact List.mem_cons_self
    · exact List.mem_cons_of_mem s (ih h)
  | case3 rules => exact h

/-- Rules sorted by priority stand in strict order once neighbours that are equal are dropped, since
rules of equal priority are equal. -/
theorem pairwise_dropRepeats {rules : List StyleRule}
    (h : rules.Pairwise fun r s => s.priority ≤ r.priority) :
    (dropRepeats rules).Pairwise fun r s => s.priority < r.priority := by
  fun_induction dropRepeats rules with
  | case1 s rest ih => exact ih (List.pairwise_cons.1 h).2
  | case2 r s rest hne ih =>
    obtain ⟨hfirst, hrest⟩ := List.pairwise_cons.1 h
    refine List.pairwise_cons.2 ⟨fun x hx => ?_, ih hrest⟩
    have hlt : s.priority < r.priority :=
      lt_of_le_of_ne (hfirst s List.mem_cons_self) fun heq => hne (priority_injective heq).symm
    rcases List.mem_cons.1 (mem_of_mem_dropRepeats hx) with rfl | hx
    · exact hlt
    · exact lt_of_le_of_lt ((List.pairwise_cons.1 hrest).1 x hx) hlt
  | case3 rules hshort =>
    cases rules with
    | nil => exact .nil
    | cons r rest =>
      cases rest with
      | nil => exact List.pairwise_singleton _ r
      | cons s rest => exact absurd rfl (hshort r s rest)

/-- The rules of a check are those it is asked for. -/
theorem mem_resolve_iff {r : StyleRule} {names : List String} :
    r ∈ resolve names ↔ r.name ∈ names := by
  refine ⟨name_mem_of_mem_resolve, fun h => ?_⟩
  rw [resolve, mem_dropRepeats_iff, (Comparer.stableSort_perm comparePriority _).mem_iff,
    List.mem_filterMap]
  exact ⟨r.name, h, ofName?_name r⟩

/-- **The rules of a check**, in the order in which it runs them. -/
theorem resolve_eq_filter (names : List String) :
    resolve names = StyleRule.all.filter (·.name ∈ names) := by
  have horder : Comparer.inOrder comparePriority
      (Comparer.stableSort comparePriority (names.filterMap ofName?)) :=
    Comparer.inOrder_stableSort _
  have hsorted := Comparer.pairwise_of_inOrder horder
  have hresolved :=
    pairwise_dropRepeats (hsorted.imp fun {r s} => (comparePriority_ne_gt_iff r s).1)
  have hall : StyleRule.all.Pairwise fun r s => s.priority < r.priority := by decide
  have : Std.Irrefl fun r s : StyleRule => s.priority < r.priority := ⟨fun r => lt_irrefl _⟩
  have : Std.Antisymm fun r s : StyleRule => s.priority < r.priority :=
    ⟨fun r s h h' => absurd h (lt_asymm h')⟩
  refine List.Pairwise.eq_of_mem_iff hresolved (hall.filter _) fun r => ?_
  have hmem : r ∈ resolve names ↔ r.name ∈ names := mem_resolve_iff
  rw [List.mem_filter, decide_eq_true_iff]
  exact ⟨fun h => ⟨StyleRule.mem_all r, hmem.1 h⟩, fun h => hmem.2 h.2⟩

/-! ## Rules one after another -/

/-- Applies rules to a tree one after another, each to what the one before it made of the tree, and
joins their records.  The first error ends it. -/
def applyAll (settings : StyleSettings) : List StyleRule → Declaration → Except EditError Fixed
  | [], d => return ⟨d, []⟩
  | r :: rest, d => do
    let first ← r.fix settings d
    let others ← applyAll settings rest first.tree
    return ⟨others.tree, first.fixes ++ others.fixes⟩

theorem applyAll_append (xs ys : List StyleRule) (d : Declaration) :
    applyAll settings (xs ++ ys) d = do
      let f ← applyAll settings xs d
      let g ← applyAll settings ys f.tree
      return ⟨g.tree, f.fixes ++ g.fixes⟩ := by
  induction xs generalizing d with
  | nil =>
    simp only [List.nil_append, applyAll, pure_bind]
    exact (bind_pure (applyAll settings ys d)).symm
  | cons r xs ih =>
    simp only [List.cons_append, applyAll, ih, bind_assoc, pure_bind, List.append_assoc]

/-- The run of a check is the composition of its rules. -/
theorem outcome_runRules (rules : List StyleRule) (current : Fixed) :
    (runRules settings rules current).outcome =
      (applyAll settings rules current.tree).map
        fun f => ⟨f.tree, current.fixes ++ f.fixes⟩ := by
  induction rules generalizing current with
  | nil => simp [runRules, applyAll, Except.map, pure, Except.pure]
  | cons r rest ih =>
    have hfix : r.fix settings current.tree = (r.attempt settings current.tree).fixed := rfl
    rw [runRules, applyAll, hfix, Attempt.fixed]
    cases houtcome : (r.attempt settings current.tree).outcome with
    | error e => rfl
    | ok tree =>
      simp only [Except.map, bind, Except.bind]
      split
      · -- the tree of this rule is not taken over, and does not differ
        rename_i hnothing
        have hempty : (r.attempt settings current.tree).fixes = [] := List.isEmpty_iff.1 hnothing
        have hsilent : r.fix settings current.tree = .ok ⟨tree, []⟩ := by
          rw [hfix, Attempt.fixed, houtcome, hempty]
          rfl
        have hsame : tree = current.tree := tree_eq_of_no_fixes hsilent rfl
        rw [ih, hempty, hsame]
        cases applyAll settings rest current.tree <;> rfl
      · rw [ih]
        cases applyAll settings rest tree with
        | error e => rfl
        | ok f => simp [Except.map, pure, Except.pure]

theorem outcome_run (names : List String) (settings : StyleSettings) (d : Declaration) :
    (run names settings d).outcome =
      applyAll settings (StyleRule.all.filter (·.name ∈ names)) d := by
  have hrun : (run names settings d).outcome =
      (runRules settings (resolve names) ⟨d, []⟩).outcome := rfl
  rw [hrun, outcome_runRules, resolve_eq_filter]
  cases applyAll settings (StyleRule.all.filter (·.name ∈ names)) d <;> rfl

theorem rule_mem_of_applyAll {rules : List StyleRule} {f : Fixed}
    (h : applyAll settings rules d = .ok f) : ∀ change ∈ f.fixes, change.rule ∈ rules := by
  induction rules generalizing d f with
  | nil =>
    obtain rfl := Except.ok.inj h
    exact fun change hchange => nomatch hchange
  | cons r rest ih =>
    obtain ⟨first, hfix, h⟩ := bind_eq_ok_iff.1 h
    obtain ⟨others, hothers, hdone⟩ := bind_eq_ok_iff.1 h
    obtain rfl := Except.ok.inj hdone
    intro change hchange
    rcases List.mem_append.1 hchange with hchange | hchange
    · exact rule_eq_of_fix hfix change hchange ▸ List.mem_cons_self
    · exact List.mem_cons_of_mem r (ih hothers change hchange)

/-- **A check records changes only of rules that it was asked for.** -/
theorem rule_mem_of_run {names : List String} {f : Fixed}
    (h : (run names settings d).outcome = .ok f) : ∀ change ∈ f.fixes, change.rule.name ∈ names := by
  rw [outcome_run] at h
  intro change hchange
  simpa using (List.mem_filter.1 (rule_mem_of_applyAll h change hchange)).2

/-- **A check is the composition of its rules.**  Whatever the order of the names, their repetitions
and the unknown ones among them, a check applies the rules they name in order of priority, once
each, to what the one before made of the tree, joins the records and ends with the first error.  So
names of the same rules give the same result, and the strict preset is the standard one followed by
the order of members. -/
theorem run_is_composition (settings : StyleSettings) (d : Declaration) :
    (∀ names, (run names settings d).outcome =
      applyAll settings (StyleRule.all.filter (·.name ∈ names)) d) ∧
    (∀ names names', (∀ r : StyleRule, r.name ∈ names ↔ r.name ∈ names') →
      (run names settings d).outcome = (run names' settings d).outcome) ∧
    (∀ strict standard, Preset.ofName? strict = some .strict →
      Preset.ofName? standard = some .standard →
      (runPreset strict settings d).outcome = do
        let f ← (runPreset standard settings d).outcome
        let g ← orderedClassElements.fix settings f.tree
        return ⟨g.tree, f.fixes ++ g.fixes⟩) := by
  refine ⟨fun names => outcome_run names settings d, ?_, ?_⟩
  · intro names names' hsame
    have hrules : StyleRule.all.filter (·.name ∈ names) =
        StyleRule.all.filter (·.name ∈ names') := by
      refine List.filter_congr fun r _ => ?_
      rw [decide_eq_decide]
      exact hsame r
    rw [outcome_run, outcome_run, hrules]
  · intro strict standard hstrict hstandard
    have hrules : StyleRule.all.filter (·.name ∈ Preset.strict.rules.map StyleRule.name) =
        StyleRule.all.filter (·.name ∈ Preset.standard.rules.map StyleRule.name) ++
          [orderedClassElements] := by decide
    have hlast : ∀ f : Fixed, applyAll settings [orderedClassElements] f.tree =
        orderedClassElements.fix settings f.tree := by
      intro f
      simp only [applyAll, pure_bind, List.append_nil]
      exact bind_pure (orderedClassElements.fix settings f.tree)
    simp only [runPreset, Preset.rulesOfName, hstrict, hstandard, outcome_run, hrules,
      applyAll_append, hlast]

/-- An unsafe static class with the member `unsafe int f`. -/
def unsafeStaticClass : Declaration :=
  .type .classType
    ⟨[⟨.modifier .staticKw, "static", [], [.space]⟩, token], [.bare .keyword "class"], none⟩
    [.plain .field ⟨[token], [.bare .keyword "int", .bare .identifier "f"], some 1⟩]
    [.bare .punctuation "\x7d"]
where
  token : Token := ⟨.modifier .unsafeKw, "unsafe", [], [.space]⟩

/-- Two ways to ask for the same two rules have the same result, with two changes.  The presets may
be spelt in other ways. -/
theorem run_is_composition_unsafeStaticClass :
    (∀ r : StyleRule,
      r.name ∈ ["visibility_required", "nope", "redundant_unsafe", "visibility_required"] ↔
        r.name ∈ ["redundant_unsafe", "visibility_required"]) ∧
    Preset.ofName? "@Strict" = some .strict ∧ Preset.ofName? "DEFAULT" = some .standard ∧
    (run ["visibility_required", "nope", "redundant_unsafe", "visibility_required"] .standard
      unsafeStaticClass).outcome =
        (run ["redundant_unsafe", "visibility_required"] .standard unsafeStaticClass).outcome ∧
    ((run ["redundant_unsafe", "visibility_required"] .standard unsafeStaticClass).outcome.map
      (·.fixes.length)) = .ok 2 ∧
    (runPreset "@Strict" .standard unsafeStaticClass).outcome = do
      let f ← (runPreset "DEFAULT" .standard unsafeStaticClass).outcome
      let g ← orderedClassElements.fix .standard f.tree
      return ⟨g.tree, f.fixes ++ g.fixes⟩ := by
  have hsame : ∀ r : StyleRule,
      r.name ∈ ["visibility_required", "nope", "redundant_unsafe", "visibility_required"] ↔
        r.name ∈ ["redundant_unsafe", "visibility_required"] := by
    intro r
    cases r <;> decide
  have hstrict : Preset.ofName? "@Strict" = some .strict := by decide
  have hstandard : Preset.ofName? "DEFAULT" = some .standard := by decide
  have hall := run_is_composition .standard unsafeStaticClass
  exact ⟨hsame, hstrict, hstandard, hall.2.1 _ _ hsame, rfl, hall.2.2 _ _ hstrict hstandard⟩

end DeclStyle.Check
