import DeclStyle.Proofs.StyleRule.Composition

/-!
# The rules in effect

A configuration asks for rules in one of three ways, of which the first that is given counts: a list
of names, a preset, or the standard preset.  What is asked for is thinned out twice, of unknown and
disabled names and of repetitions, and the rest stays in the order in which it was first asked for.

* `RuleSelection.Requests` — the names that a configuration asks for;
* `Selects` — the names left of them; there is one such list (`Selects.unique`);
* `StyleConfig.requestedRules_eq_error_iff` — a configuration is refused only for the name of a
  preset that it relies on;
* `StyleConfig.effectiveRules_eq_ok_iff` — the rules in effect are those left of the ones asked for;
* `StyleConfig.rules_in_effect` — all of this together, with what a check of the rules in effect
  records.
-/

namespace DeclStyle

open StyleRule

/-! ## Names of rules -/

namespace StyleRule

/-- Rules are found by their names. -/
theorem filterMap_ofName?_map_name (rules : List StyleRule) :
    (rules.map name).filterMap ofName? = rules := by
  rw [List.filterMap_map]
  exact (List.filterMap_congr fun r _ => ofName?_name r).trans List.filterMap_some

end StyleRule

/-! ## What is asked for -/

/-- The names that a selection of rules asks for. -/
inductive RuleSelection.Requests (s : RuleSelection) : List String → Prop where
  /-- Those listed, if there is a list, even an empty one. -/
  | listed {names : List String} : s.enabled = some names → Requests s names
  /-- Else those of the preset. -/
  | preset {text : String} {p : Preset} : s.enabled = none → s.preset = some text →
      Preset.ofName? text = some p → Requests s (p.rules.map name)
  /-- Else those of the standard preset. -/
  | standard : s.enabled = none → s.preset = none →
      Requests s (Preset.standard.rules.map name)

namespace StyleConfig

variable {c : StyleConfig} {rules : List StyleRule}

/-- Where there is no list, a preset that does not exist is an error, and nothing else is. -/
theorem requestedRules_eq_error_iff {e : ConfigError} :
    c.requestedRules = .error e ↔ ∃ text, e = .unknownPreset text ∧ c.rules.enabled = none ∧
      c.rules.preset = some text ∧ Preset.ofName? text = none := by
  unfold requestedRules
  cases henabled : c.rules.enabled with
  | some names => simp
  | none =>
    cases hpreset : c.rules.preset with
    | none => simp
    | some text =>
      cases hfound : Preset.ofName? text with
      | some p => simp [hfound]
      | none =>
        simp only [hfound, Except.error.injEq, Option.some.injEq, true_and]
        constructor
        · rintro rfl
          exact ⟨text, rfl, rfl, hfound⟩
        · rintro ⟨_, rfl, rfl, -⟩
          rfl

/-- The requested rules are those with a requested name. -/
theorem requestedRules_eq_ok_iff :
    c.requestedRules = .ok rules ↔
      ∃ names, c.rules.Requests names ∧ rules = names.filterMap ofName? := by
  constructor
  · intro h
    unfold requestedRules at h
    split at h
    · rename_i names henabled
      obtain rfl := Except.ok.inj h
      exact ⟨names, .listed henabled, rfl⟩
    · rename_i text henabled hpreset
      split at h
      · rename_i p hfound
        obtain rfl := Except.ok.inj h
        exact ⟨_, .preset henabled hpreset hfound, (filterMap_ofName?_map_name p.rules).symm⟩
      · cases h
    · rename_i henabled hpreset
      obtain rfl := Except.ok.inj h
      exact ⟨_, .standard henabled hpreset,
        (filterMap_ofName?_map_name Preset.standard.rules).symm⟩
  · rintro ⟨names, hnames, rfl⟩
    cases hnames with
    | listed henabled => simp [requestedRules, henabled]
    | preset henabled hpreset hfound =>
      rw [filterMap_ofName?_map_name]
      simp [requestedRules, henabled, hpreset, hfound]
    | standard henabled hpreset =>
      rw [filterMap_ofName?_map_name]
      simp [requestedRules, henabled, hpreset]

end StyleConfig

/-! ## What is left of it -/

/-- The names left of those asked for: the names of rules that are not disabled, in the order in
which each of them was first asked for. -/
structure Selects (requested disabled left : List String) : Prop where
  mem_iff : ∀ n, n ∈ left ↔ n ∈ requested ∧ n ∈ StyleRule.all.map name ∧ n ∉ disabled
  order : left.Pairwise fun m n => requested.idxOf m < requested.idxOf n

namespace Selects

variable {requested disabled left left' : List String}

/-- None of them is left twice. -/
theorem nodup (h : Selects requested disabled left) : left.Nodup :=
  h.order.imp fun hlt heq => (Nat.ne_of_lt hlt) (congrArg requested.idxOf heq)

/-- Nothing else can be left. -/
theorem unique (h : Selects requested disabled left) (h' : Selects requested disabled left') :
    left = left' := by
  have : Std.Irrefl fun m n : String => requested.idxOf m < requested.idxOf n :=
    ⟨fun m => Nat.lt_irrefl _⟩
  have : Std.Antisymm fun m n : String => requested.idxOf m < requested.idxOf n :=
    ⟨fun m n h h' => absurd h (Nat.lt_asymm h')⟩
  exact List.Pairwise.eq_of_mem_iff h.order h'.order fun n => (h.mem_iff n).trans (h'.mem_iff n).symm

end Selects

namespace StyleConfig

theorem mem_dropSeen_iff {r : StyleRule} {seen rules : List StyleRule} :
    r ∈ dropSeen seen rules ↔ r ∈ rules ∧ r ∉ seen := by
  induction rules generalizing seen with
  | nil => simp [dropSeen]
  | cons s rules ih =>
    rw [dropSeen]
    split
    · rename_i hs
      rw [ih, List.mem_cons]
      refine ⟨fun h => ⟨.inr h.1, h.2⟩, ?_⟩
      rintro ⟨rfl | h, hr⟩
      · exact absurd hs hr
      · exact ⟨h, hr⟩
    · rename_i hs
      rw [List.mem_cons, List.mem_cons, ih, List.mem_cons]
      by_cases hrs : r = s
      · simp [hrs, hs]
      · simp [hrs]

/-- Rules whose names were asked for behind a name that is not theirs. -/
theorem pairwise_idxOf_cons {n : String} {names : List String} {rules : List StyleRule}
    (hne : ∀ r ∈ rules, r.name ≠ n)
    (h : rules.Pairwise fun r s => names.idxOf r.name < names.idxOf s.name) :
    rules.Pairwise fun r s => (n :: names).idxOf r.name < (n :: names).idxOf s.name := by
  refine h.imp_of_mem fun hr hs hlt => ?_
  rw [List.idxOf_cons_ne _ (hne _ hr).symm, List.idxOf_cons_ne _ (hne _ hs).symm]
  exact Nat.succ_lt_succ hlt

/-- **What is kept of the rules asked for** is in the order in which their names first were. -/
theorem pairwise_idxOf_dropSeen (p : StyleRule → Bool) (names : List String)
    (seen : List StyleRule) :
    (dropSeen seen ((names.filterMap ofName?).filter p)).Pairwise
      fun r s => names.idxOf r.name < names.idxOf s.name := by
  induction names generalizing seen with
  | nil => exact .nil
  | cons n names ih =>
    have hfound : ∀ s : StyleRule, s.name = n → ofName? n = some s := fun s hs =>
      ofName?_eq_some_iff.2 hs
    cases hn : ofName? n with
    | none =>
      rw [List.filterMap_cons_none hn]
      refine pairwise_idxOf_cons (fun s _ hs => ?_) (ih seen)
      rw [hfound s hs] at hn
      cases hn
    | some r =>
      have hr : ∀ s : StyleRule, s.name = n → s = r := fun s hs =>
        Option.some.inj ((hfound s hs).symm.trans hn)
      rw [List.filterMap_cons_some hn]
      by_cases hp : p r
      · rw [List.filter_cons_of_pos hp, dropSeen]
        split
        · -- the rule has been kept already
          rename_i hseen
          refine pairwise_idxOf_cons (fun s hs heq => ?_) (ih seen)
          exact (mem_dropSeen_iff.1 hs).2 (hr s heq ▸ hseen)
        · have hothers : ∀ s ∈ dropSeen (r :: seen) ((names.filterMap ofName?).filter p),
              s.name ≠ n := by
            intro s hs heq
            exact (mem_dropSeen_iff.1 hs).2 (hr s heq ▸ List.mem_cons_self)
          refine List.pairwise_cons.2 ⟨fun s hs => ?_, pairwise_idxOf_cons hothers (ih _)⟩
          rw [ofName?_eq_some_iff.1 hn, List.idxOf_cons_self,
            List.idxOf_cons_ne _ (hothers s hs).symm]
          exact Nat.succ_pos _
      · -- the rule is not kept
        rw [List.filter_cons_of_neg hp]
        refine pairwise_idxOf_cons (fun s hs heq => ?_) (ih seen)
        have hps := (List.mem_filter.1 (mem_dropSeen_iff.1 hs).1).2
        exact hp (hr s heq ▸ hps)

/-- The rules kept of those asked for are the ones left. -/
theorem selects_dropSeen (requested disabled : List String) :
    Selects requested disabled
      ((dropSeen [] ((requested.filterMap ofName?).filter
        fun r => !disabled.contains r.name)).map name) where
  mem_iff n := by
    simp only [List.mem_map, mem_dropSeen_iff, List.mem_filter, List.mem_filterMap,
      ofName?_eq_some_iff]
    constructor
    · rintro ⟨r, ⟨⟨⟨_, hmem, rfl⟩, hkept⟩, -⟩, rfl⟩
      exact ⟨hmem, ⟨r, mem_all r, rfl⟩, by simpa using hkept⟩
    · rintro ⟨hmem, ⟨r, -, rfl⟩, hkept⟩
      exact ⟨r, ⟨⟨⟨_, hmem, rfl⟩, by simpa using hkept⟩, List.not_mem_nil⟩, rfl⟩
  order := (pairwise_idxOf_dropSeen _ requested []).map _ fun _ _ h => h

variable {c : StyleConfig} {rules : List StyleRule}

theorem effectiveRules_eq_error_iff {e : ConfigError} :
    c.effectiveRules = .error e ↔ ∃ text, e = .unknownPreset text ∧ c.rules.enabled = none ∧
      c.rules.preset = some text ∧ Preset.ofName? text = none := by
  rw [← requestedRules_eq_error_iff, effectiveRules]
  cases c.requestedRules <;> simp [Except.map]

/-- **The rules in effect** are the ones left of those asked for. -/
theorem effectiveRules_eq_ok_iff :
    c.effectiveRules = .ok rules ↔
      ∃ requested, c.rules.Requests requested ∧
        Selects requested c.rules.disabled (rules.map name) := by
  constructor
  · intro h
    rw [effectiveRules] at h
    cases hrequested : c.requestedRules with
    | error e =>
      rw [hrequested] at h
      cases h
    | ok asked =>
      rw [hrequested] at h
      obtain rfl := Except.ok.inj h
      obtain ⟨requested, hasked, rfl⟩ := requestedRules_eq_ok_iff.1 hrequested
      exact ⟨requested, hasked, selects_dropSeen requested c.rules.disabled⟩
  · rintro ⟨requested, hasked, hleft⟩
    have hsame := hleft.unique (selects_dropSeen requested c.rules.disabled)
    rw [effectiveRules, requestedRules_eq_ok_iff.2 ⟨requested, hasked, rfl⟩,
      List.map_injective_iff.2 (fun _ _ => name_injective) hsame]
    rfl

/-! ## The rules in effect -/

/-- **The rules in effect under a configuration.**  A configuration is refused exactly if it lists
no rules and names a preset that does not exist.  Otherwise the rules in effect are those asked for
whose names are known and not disabled, each once, in the order in which they were first asked for.
A check of the rules in effect records no change of a rule that is disabled or that was not asked
for. -/
theorem rules_in_effect (c : StyleConfig) :
    (∀ e, c.effectiveRules = .error e ↔ ∃ text, e = .unknownPreset text ∧
      c.rules.enabled = none ∧ c.rules.preset = some text ∧ Preset.ofName? text = none) ∧
    (∀ rules, c.effectiveRules = .ok rules ↔ ∃ requested, c.rules.Requests requested ∧
      Selects requested c.rules.disabled (rules.map name)) ∧
    ∀ rules, c.effectiveRules = .ok rules →
      (rules.map name).Nodup ∧
      (∀ n ∈ rules.map name, n ∉ c.rules.disabled ∧ (ofName? n).isSome) ∧
      ∀ (settings : StyleSettings) (d : Declaration) (f : Fixed),
        (Check.run (rules.map name) settings d).outcome = .ok f →
        ∀ change ∈ f.fixes, change.rule.name ∉ c.rules.disabled ∧
          ∃ requested, c.rules.Requests requested ∧ change.rule.name ∈ requested := by
  refine ⟨fun e => effectiveRules_eq_error_iff, fun rules => effectiveRules_eq_ok_iff, ?_⟩
  intro rules h
  obtain ⟨requested, hasked, hleft⟩ := effectiveRules_eq_ok_iff.1 h
  refine ⟨hleft.nodup, fun n hn => ?_, fun settings d f hrun change hchange => ?_⟩
  · obtain ⟨-, hknown, hallowed⟩ := (hleft.mem_iff n).1 hn
    obtain ⟨r, -, rfl⟩ := List.mem_map.1 hknown
    exact ⟨hallowed, by rw [ofName?_name]; rfl⟩
  · obtain ⟨hmem, -, hallowed⟩ :=
      (hleft.mem_iff _).1 (Check.rule_mem_of_run hrun change hchange)
    exact ⟨hallowed, requested, hasked, hmem⟩

/-- A configuration with a list of rules, so that its preset, which does not exist, is of no
account.  One rule is listed twice, one is disabled, and one does not exist. -/
def listed : StyleConfig where
  rules.preset := some "nope"
  rules.enabled := some
    ["visibility_required", "nope", "redundant_unsafe", "ordered_modifiers", "visibility_required"]
  rules.disabled := ["redundant_unsafe"]
  settings := .standard

/-- Two rules are left of the list, and a check of them records a change for a field without
accessibility. -/
theorem rules_in_effect_listed :
    listed.effectiveRules = .ok [.visibilityRequired, .orderedModifiers] ∧
    listed.rules.Requests ["visibility_required", "nope", "redundant_unsafe", "ordered_modifiers",
      "visibility_required"] ∧
    ["visibility_required", "ordered_modifiers"].Nodup ∧
    ∃ f, (Check.run ["visibility_required", "ordered_modifiers"] .standard
        Check.unsafeStaticClass).outcome = .ok f ∧ f.fixes.length = 1 ∧
      ∀ change ∈ f.fixes, change.rule.name ∉ listed.rules.disabled := by
  have heffect : listed.effectiveRules = .ok [.visibilityRequired, .orderedModifiers] := by decide
  obtain ⟨hnodup, -, hchanges⟩ := (rules_in_effect listed).2.2 _ heffect
  have hrun : ∃ f, (Check.run ["visibility_required", "ordered_modifiers"] .standard
      Check.unsafeStaticClass).outcome = .ok f ∧ f.fixes.length = 1 := ⟨_, rfl, rfl⟩
  obtain ⟨f, hf, hlength⟩ := hrun
  refine ⟨heffect, .listed rfl, hnodup, f, hf, hlength, fun change hchange => ?_⟩
  exact (hchanges .standard Check.unsafeStaticClass f hf change hchange).1

end StyleConfig

end DeclStyle
