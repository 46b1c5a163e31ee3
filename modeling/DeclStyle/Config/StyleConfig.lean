import DeclStyle.Config.Preset
import DeclStyle.StyleRule.Run
import DeclStyle.Toml.Parser

/-!
# Style configuration

What a configuration file can say: which rules run, how members are ordered, and which accessibility
is inserted.  Keys that are not known are ignored, and every key may be left out.

A section may also be given as an array of its values in the order of their keys.
-/

namespace DeclStyle

/-- The part of a configuration that selects rules. -/
structure RuleSelection where
  /-- The preset to use. -/
  preset : Option String
  /-- If given, only these rules run, whatever the preset. -/
  enabled : Option (List String)
  /-- Rules that do not run in any case. -/
  disabled : List String
  deriving DecidableEq, Repr, Inhabited

/-- A configuration. -/
structure StyleConfig where
  rules : RuleSelection
  settings : StyleSettings
  deriving DecidableEq, Repr

/-- Why a configuration cannot be used. -/
inductive ConfigError where
  /-- The file cannot be read as text. -/
  | io
  /-- The text is not a configuration. -/
  | parse
  /-- There is no preset of the given name. -/
  | unknownPreset (name : String)
  deriving DecidableEq, Repr, Inhabited

namespace ConfigError

/-- The wording of an error that has one. -/
def message? : ConfigError → Option String
  | unknownPreset name => some ("unknown preset '" ++ name ++ "'")
  | _ => none

end ConfigError

namespace StyleConfig

/-- The configuration of an empty file. -/
def standard : StyleConfig := ⟨⟨none, none, []⟩, .standard⟩

instance : Inhabited StyleConfig := ⟨standard⟩

/-! ## Reading -/

/-- A section of a configuration, by key or by position.  A date holds no keys at all. -/
def section? : Toml → Option (String → Nat → Option Toml)
  | .table entries => some fun key _ => (entries.find? (·.1 == key)).map (·.2)
  | .arr items => some fun _ position => items[position]?
  | .datetime _ => some fun _ _ => none
  | _ => none

/-- The section of a key; an empty one if it is not given. -/
def sectionOf? (root : List (String × Toml)) (key : String) :
    Option (String → Nat → Option Toml) :=
  match root.find? (·.1 == key) with
  | some (_, v) => section? v
  | none => some fun _ _ => none

/-- A value that need not be given. -/
def optional? {α : Type} (read : Toml → Option α) : Option Toml → Option (Option α)
  | none => some none
  | some v => (read v).map some

/-- A list of texts. -/
def texts? (v : Toml) : Option (List String) := do (← v.arr?).mapM Toml.str?

/-- The name of a choice: a text, or a table whose only key holds nothing. -/
def choice? : Toml → Option String
  | .str s => some s
  | .table [(key, .arr [])] => some key
  | .table [(key, .table [])] => some key
  | _ => none

/-- A value that is chosen by name. -/
def chosen? {α : Type} (ofName? : String → Option α) (v : Toml) : Option α := do
  ofName? (← choice? v)

/-- The configuration that a table describes. -/
def ofToml? (root : List (String × Toml)) : Option StyleConfig := do
  let rules ← sectionOf? root "rules"
  let ordering ← sectionOf? root "ordering"
  let visibility ← sectionOf? root "visibility"
  let preset ← optional? Toml.str? (rules "preset" 0)
  let enabled ← optional? texts? (rules "enabled" 1)
  let disabled ← optional? texts? (rules "disabled" 2)
  let sortMode ← optional? (chosen? SortMode.ofIdentifier?) (ordering "sort_mode" 0)
  let collation ← optional? (chosen? Collation.ofIdentifier?) (ordering "collation" 1)
  let accessibility ←
    optional? (chosen? Accessibility.ofIdentifier?) (visibility "default_accessibility" 0)
  return ⟨⟨preset, enabled, disabled.getD []⟩,
    ⟨sortMode.getD .byKind, collation.getD .invariant, accessibility.getD .privateAccess⟩⟩

/-- The configuration that a text describes. -/
def parse? (text : String) : Option StyleConfig := do ofToml? (← Toml.parse? text)

/-! ## The rules in effect -/

/-- The warning about a requested rule that does not exist. -/
def unknownWarning (name : String) : LogEntry := ⟨.warn, "Unknown rule '" ++ name ++ "' in config"⟩

/-- The warnings about requested rules that do not exist. -/
def warnings (c : StyleConfig) : List LogEntry :=
  ((c.rules.enabled.getD []).filter fun n => (StyleRule.ofName? n).isNone).map unknownWarning

/-- The requested rules: those listed, else those of the preset, else those of the standard
preset. -/
def requestedRules (c : StyleConfig) : Except ConfigError (List StyleRule) :=
  match c.rules.enabled, c.rules.preset with
  | some names, _ => .ok (names.filterMap StyleRule.ofName?)
  | none, some preset =>
    match Preset.ofName? preset with
    | some p => .ok p.rules
    | none => .error (.unknownPreset preset)
  | none, none => .ok Preset.standard.rules

/-- The rules without those seen already and without repetitions. -/
def dropSeen (seen : List StyleRule) : List StyleRule → List StyleRule
  | [] => []
  | r :: rest => if r ∈ seen then dropSeen seen rest else r :: dropSeen (r :: seen) rest

/-- The rules in effect: those requested, less those that are disabled, each once. -/
def effectiveRules (c : StyleConfig) : Except ConfigError (List StyleRule) :=
  c.requestedRules.map fun rules =>
    dropSeen [] (rules.filter fun r => !c.rules.disabled.contains r.name)

end StyleConfig

namespace Check

/-- Runs the rules of a preset over a tree; none if there is no such preset. -/
def runPreset (preset : String) (settings : StyleSettings) (d : Declaration) : Report :=
  run ((Preset.rulesOfName preset).map StyleRule.name) settings d

/-- Runs the rules in effect under a configuration over a tree. -/
def runConfig (c : StyleConfig) (d : Declaration) : Except ConfigError Report :=
  c.effectiveRules.map fun rules => run (rules.map StyleRule.name) c.settings d

end Check

end DeclStyle
