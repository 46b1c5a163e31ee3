import Mathlib.Logic.Relation
import DeclStyle.Proofs.Json.Parts

/-!
# Tolerant reading

A host that writes declarations need not write them as `Declaration.toJson` does.  It may give the
fields of an object in any order, leave out those that hold their default, and add fields of its
own.  What it may not do is give a field twice that the object knows, or leave out one that has no
default.

Which fields an object knows depends on its shape, and the shape of a declaration on its kind, which
may be the last field to come: a field may be known to a class and the host's own in a method.

* `Exchange.Relaxes` — one thing that may be done to the fields of an object, and
  `Exchange.Loosens` — the same anywhere in a value;
* `Exchange.Flawed` — there is an object in a value with a field that is missing or given twice;
* `Exchange.Loosens.readsAlso` — what is read of a value is read of a loosened one, too;
* `Exchange.Flawed.unread` — of a flawed value nothing is read;
* `Declaration.reads_loosened_refuses_flawed` — both, for the texts of declarations.
-/

namespace DeclStyle

namespace Exchange

/-! ## Shapes -/

/-- What an object stands for. -/
inductive Role where
  | declaration
  | token
  | trivia
  deriving DecidableEq, Repr

/-- Which fields an object has. -/
inductive Shape where
  | plain
  | type
  | space
  | token
  | trivia
  deriving DecidableEq, Repr

namespace Shape

/-- The shape of declarations of a kind. -/
def ofKind : DeclarationKind → Shape
  | .plain _ => plain
  | .type _ => type
  | .space => space

/-- The fields that an object knows. -/
def keys : Shape → List String
  | plain => ["kind", "modifiers", "tokens", "name"]
  | type => ["kind", "modifiers", "head", "name", "members", "tail"]
  | space => ["kind", "head", "members", "tail"]
  | token => ["kind", "text", "leading", "trailing"]
  | trivia => ["kind", "text"]

/-- The fields that have no default. -/
def required : Shape → List String
  | plain => ["kind"]
  | type => ["kind", "head"]
  | space => ["kind", "head"]
  | token => ["kind", "text"]
  | trivia => ["kind"]

theorem kind_mem_required (shape : Shape) : "kind" ∈ shape.required := by
  cases shape <;> simp [required]

theorem kind_mem_keys (shape : Shape) : "kind" ∈ shape.keys := by
  cases shape <;> simp [keys]

theorem mem_keys_of_mem_required {shape : Shape} {key : String} (h : key ∈ shape.required) :
    key ∈ shape.keys := by
  cases shape <;> simp only [required, keys, List.mem_cons] at h ⊢ <;> tauto

end Shape

/-- The default of a field that has one. -/
def defaultValue : String → Json
  | "name" => .null
  | "text" => .str ""
  | _ => .arr []

/-- What the items of a field stand for, if it holds a list. -/
def itemRole? : String → Option Role
  | "members" => some .declaration
  | "modifiers" => some .token
  | "tokens" => some .token
  | "head" => some .token
  | "tail" => some .token
  | "leading" => some .trivia
  | "trailing" => some .trivia
  | _ => none

/-- The shape of an object.  A declaration tells it by its kind. -/
def shape? : Role → List (String × Json) → Option Shape
  | .declaration, fields => ((tag? (.obj fields)).bind (declarationKind? true)).map Shape.ofKind
  | .token, _ => some .token
  | .trivia, _ => some .trivia

/-! ## What a host may and may not do -/

/-- One thing that may be done to the fields of an object: they are permuted, one that holds its
default is left out, or one is added that is not known. -/
inductive Relaxes (shape : Shape) : List (String × Json) → List (String × Json) → Prop
  | permute {fields fields' : List (String × Json)} (h : fields.Perm fields') :
    Relaxes shape fields fields'
  | leaveOut (before after : List (String × Json)) {key : String} (hkey : key ∈ shape.keys)
    (hdefault : key ∉ shape.required) :
    Relaxes shape (before ++ (key, defaultValue key) :: after) (before ++ after)
  | add (before after : List (String × Json)) {key : String} (hkey : key ∉ shape.keys) {v : Json}
    (hv : v.Whole) : Relaxes shape (before ++ after) (before ++ (key, v) :: after)

/-- One such thing is done to an object: to the value itself or to an item of one of its lists. -/
inductive Loosens : Role → Json → Json → Prop
  | fields {role : Role} {shape : Shape} {fields fields' : List (String × Json)}
    (hshape : shape? role fields = some shape) (h : Relaxes shape fields fields') :
    Loosens role (.obj fields) (.obj fields')
  | item {role inner : Role} {shape : Shape} {key : String} (before after : List (String × Json))
    (left right : List Json) {v v' : Json}
    (hshape : shape? role (before ++ (key, .arr (left ++ v :: right)) :: after) = some shape)
    (hkey : key ∈ shape.keys) (hrole : itemRole? key = some inner) (h : Loosens inner v v') :
    Loosens role (.obj (before ++ (key, .arr (left ++ v :: right)) :: after))
      (.obj (before ++ (key, .arr (left ++ v' :: right)) :: after))

/-- Some object, the value itself or an item of one of its lists, is not well-formed: its kind is
not given once, a field that it knows is given twice, or one without default is missing. -/
inductive Flawed : Role → Json → Prop
  | kind (role : Role) {fields : List (String × Json)}
    (h : (Json.valuesOf "kind" fields).length ≠ 1) : Flawed role (.obj fields)
  | twice {role : Role} {shape : Shape} {key : String} {fields : List (String × Json)}
    (hshape : shape? role fields = some shape) (hkey : key ∈ shape.keys)
    (h : 2 ≤ (Json.valuesOf key fields).length) : Flawed role (.obj fields)
  | missing {role : Role} {shape : Shape} {key : String} {fields : List (String × Json)}
    (hshape : shape? role fields = some shape) (hkey : key ∈ shape.required)
    (h : Json.valuesOf key fields = []) : Flawed role (.obj fields)
  | item {role inner : Role} {shape : Shape} {key : String} {fields : List (String × Json)}
    {items : List Json} {v : Json} (hshape : shape? role fields = some shape)
    (hkey : key ∈ shape.keys) (hrole : itemRole? key = some inner)
    (hfield : (key, .arr items) ∈ fields) (hitem : v ∈ items) (h : Flawed inner v) :
    Flawed role (.obj fields)

/-! ## Fields -/

section Fields

variable {key other : String} {v : Json} {before after : List (String × Json)}

/-- The order of the fields does not matter. -/
theorem field?_of_perm {fields fields' : List (String × Json)} (h : fields.Perm fields')
    (key : String) : field? fields key = field? fields' key := by
  have hvalues : (Json.valuesOf key fields).Perm (Json.valuesOf key fields') :=
    (h.filter _).map _
  unfold field?
  generalize Json.valuesOf key fields = vs at hvalues
  generalize Json.valuesOf key fields' = ws at hvalues
  match vs, hvalues with
  | [], hvalues => rw [hvalues.nil_eq]
  | [v], hvalues => rw [List.singleton_perm.1 hvalues]
  | _ :: _ :: _, hvalues =>
    match ws, hvalues.length_eq with
    | _ :: _ :: _, _ => rfl

theorem field?_cons_of_ne {fields : List (String × Json)} (h : key ≠ other) :
    field? ((key, v) :: fields) other = field? fields other := by
  simp [field?, Json.valuesOf, h]

/-- A field in the midst of others is not found under another name. -/
theorem field?_middle_of_ne (h : key ≠ other) :
    field? (before ++ (key, v) :: after) other = field? (before ++ after) other := by
  rw [field?_of_perm List.perm_middle, field?_cons_of_ne h]

/-- A field in the midst of others is found by its name if none of the others has it. -/
theorem field?_middle_eq_some_iff {p : Option Json} :
    field? (before ++ (key, v) :: after) key = some p ↔
      p = some v ∧ field? (before ++ after) key = some none := by
  rw [field?_of_perm List.perm_middle]
  simp only [field?, Json.valuesOf, List.filter_cons, beq_self_eq_true, if_true, List.map_cons]
  cases (List.filter (fun f => f.1 == key) (before ++ after)).map (·.2) with
  | nil => simp [eq_comm]
  | cons w ws => cases ws <;> simp

/-- A field that is given is found unless it is given twice. -/
theorem field?_of_mem_eq_some {fields : List (String × Json)} (hmem : (key, v) ∈ fields)
    {p : Option Json} (h : field? fields key = some p) : p = some v := by
  obtain ⟨before, after, rfl⟩ := List.append_of_mem hmem
  exact (field?_middle_eq_some_iff.1 h).1

theorem length_valuesOf_of_field? {fields : List (String × Json)} {p : Option Json}
    (h : field? fields key = some p) : (Json.valuesOf key fields).length = p.toList.length := by
  unfold field? at h
  split at h
  · obtain rfl := Option.some.inj h
    simp [*]
  · obtain rfl := Option.some.inj h
    simp [*]
  · cases h

end Fields

/-! ## The readers, by the fields that they know -/

/-- The readers of what an object may stand for. -/
inductive ReaderOf : Role → {α : Type} → (Json → Option α) → Prop
  | declaration (isMember : Bool) (levels : Nat) :
    ReaderOf .declaration (declaration? isMember levels)
  | token : ReaderOf .token token?
  | trivia : ReaderOf .trivia trivia?

/-- What is read of a value is read of another one, too. -/
def ReadsAlso (role : Role) (v w : Json) : Prop :=
  ∀ {α : Type} {read : Json → Option α}, ReaderOf role read → ∀ a, read v = some a →
    read w = some a

/-- Nothing is read of a value. -/
def Unread (role : Role) (v : Json) : Prop :=
  ∀ {α : Type} {read : Json → Option α}, ReaderOf role read → read v = none

/-- What a part says agrees with its name: whether it may be left out, and what its items are. -/
structure Fits (shape : Shape) (part : Part) : Prop where
  default : part.1 ∉ shape.required → part.2 (some (defaultValue part.1)) → part.2 none
  required : part.1 ∈ shape.required → ¬ part.2 none
  item {role : Role} {v w : Json} {left right : List Json} : itemRole? part.1 = some role →
    ReadsAlso role v w → part.2 (some (.arr (left ++ v :: right))) →
    part.2 (some (.arr (left ++ w :: right)))
  unread {role : Role} {v : Json} {left right : List Json} : itemRole? part.1 = some role →
    Unread role v → ¬ part.2 (some (.arr (left ++ v :: right)))

section Fits

variable {α : Type} {shape : Shape} {key : String} {read : Json → Option α} {role : Role}

theorem defaultValue_of_itemRole? (h : itemRole? key = some role) : defaultValue key = .arr [] := by
  unfold itemRole? at h
  split at h <;> first | rfl | cases h

/-- An item of a list may be replaced by one that is read alike. -/
theorem listOf?_replace (hread : ReaderOf role read) {v w : Json} (h : ReadsAlso role v w)
    {left right : List Json} {as : List α}
    (has : listOf? read (some (.arr (left ++ v :: right))) = some as) :
    listOf? read (some (.arr (left ++ w :: right))) = some as := by
  simp only [listOf?, List.mapM_append, List.mapM_cons, Option.bind_eq_bind,
    Option.bind_eq_some_iff] at has ⊢
  obtain ⟨ls, hls, rest, ⟨a, ha, hrest⟩, hdone⟩ := has
  exact ⟨ls, hls, rest, ⟨a, h hread a ha, hrest⟩, hdone⟩

/-- A list is not read if one of its items is not. -/
theorem listOf?_unread (hread : ReaderOf role read) {v : Json} (h : Unread role v)
    {left right : List Json} {as : List α} :
    listOf? read (some (.arr (left ++ v :: right))) ≠ some as := by
  intro has
  simp [listOf?, List.mapM_append, List.mapM_cons, h hread] at has

theorem fits_listOf (hread : ReaderOf role read) (hrole : itemRole? key = some role)
    (hkey : key ∉ shape.required) (as : List α) :
    Fits shape (key, fun p => listOf? read p = some as) where
  default := fun _ h => by rwa [defaultValue_of_itemRole? hrole] at h
  required := fun h => absurd h hkey
  item := fun hrole' hv h => by
    obtain rfl := Option.some.inj (hrole.symm.trans hrole')
    exact listOf?_replace hread hv h
  unread := fun hrole' hv => by
    obtain rfl := Option.some.inj (hrole.symm.trans hrole')
    exact listOf?_unread hread hv

theorem fits_requiredListOf (hread : ReaderOf role read) (hrole : itemRole? key = some role)
    (hkey : key ∈ shape.required) (as : List α) :
    Fits shape (key, fun p => requiredListOf? read p = some as) where
  default := fun h => absurd hkey h
  required := fun _ h => nomatch h
  item := fun hrole' hv h => by
    obtain rfl := Option.some.inj (hrole.symm.trans hrole')
    exact listOf?_replace hread hv h
  unread := fun hrole' hv => by
    obtain rfl := Option.some.inj (hrole.symm.trans hrole')
    exact listOf?_unread hread hv

/-- Of a part without items it only matters whether it may be left out. -/
theorem fits_scalar {meets : Option Json → Prop} (hrole : itemRole? key = none)
    (hrequired : key ∈ shape.required → ¬ meets none)
    (hdefault : key ∉ shape.required → meets (some (defaultValue key)) → meets none) :
    Fits shape (key, meets) where
  default := hdefault
  required := hrequired
  item := fun h => nomatch hrole.symm.trans h
  unread := fun h => nomatch hrole.symm.trans h

/-- A part without items that has to be given. -/
theorem fits_requiredScalar {f : Json → Option α} (hrole : itemRole? key = none)
    (hkey : key ∈ shape.required) (a : α) : Fits shape (key, fun p => p.bind f = some a) :=
  fits_scalar hrole (fun _ h => Option.some_ne_none a h.symm) fun h => absurd hkey h

end Fits

theorem fits_triviaParts (t : Trivia) : ∀ part ∈ triviaParts t, Fits .trivia part := by
  simp only [triviaParts, List.forall_mem_cons, List.not_mem_nil, false_implies, implies_true,
    and_true]
  exact ⟨fits_scalar rfl (fun _ h => Option.some_ne_none _ h.symm) fun h => absurd (by decide) h,
    fits_scalar rfl (fun h => absurd h (by decide)) fun _ => id⟩

theorem fits_tokenParts (t : Token) : ∀ part ∈ tokenParts t, Fits .token part := by
  simp only [tokenParts, List.forall_mem_cons, List.not_mem_nil, false_implies, implies_true,
    and_true]
  exact ⟨fits_requiredScalar rfl (by decide) _, fits_requiredScalar rfl (by decide) _,
    fits_listOf .trivia rfl (by decide) _, fits_listOf .trivia rfl (by decide) _⟩

theorem fits_declarationParts (isMember : Bool) (levels : Nat) (d : Declaration) :
    ∀ part ∈ declarationParts isMember levels d, Fits (.ofKind d.kind) part := by
  have hkind : ∀ (shape : Shape) (k : DeclarationKind),
      Fits shape ("kind", fun p => p.bind (declarationKind? isMember) = some k) := fun shape k =>
    fits_requiredScalar rfl shape.kind_mem_required k
  have hname : ∀ (shape : Shape) (name : Option UInt64), "name" ∉ shape.required →
      Fits shape ("name", fun p => name? p = some name) := fun shape name hkey =>
    fits_scalar rfl (fun h => absurd h hkey) fun _ => id
  have hmembers : ∀ (shape : Shape) (ms : List Declaration), "members" ∉ shape.required →
      Fits shape ("members", fun p => listOf? (declaration? true levels) p = some ms) :=
    fun shape ms hkey => fits_listOf (.declaration true levels) rfl hkey ms
  cases d with
  | plain k s =>
    change ∀ part ∈ _, Fits .plain part
    simp only [declarationParts, List.forall_mem_cons, List.not_mem_nil, false_implies,
      implies_true, and_true]
    exact ⟨hkind _ _, fits_listOf .token rfl (by decide) _, fits_listOf .token rfl (by decide) _,
      hname _ _ (by decide)⟩
  | type k s ms tl =>
    change ∀ part ∈ _, Fits .type part
    simp only [declarationParts, List.forall_mem_cons, List.not_mem_nil, false_implies,
      implies_true, and_true]
    exact ⟨hkind _ _, fits_listOf .token rfl (by decide) _,
      fits_requiredListOf .token rfl (by decide) _, hname _ _ (by decide),
      hmembers _ _ (by decide), fits_listOf .token rfl (by decide) _⟩
  | space hd ms tl =>
    change ∀ part ∈ _, Fits .space part
    simp only [declarationParts, List.forall_mem_cons, List.not_mem_nil, false_implies,
      implies_true, and_true]
    exact ⟨hkind _ _, fits_requiredListOf .token rfl (by decide) _, hmembers _ _ (by decide),
      fits_listOf .token rfl (by decide) _⟩

/-- A kind that is told somewhere is told by members, too. -/
theorem declarationKind?_member {isMember : Bool} {v : Json} {k : DeclarationKind}
    (h : declarationKind? isMember v = some k) : declarationKind? true v = some k := by
  cases isMember with
  | true => exact h
  | false => cases v <;> first | exact h | (rename_i n; cases n <;> cases h)

/-- What is read of a declaration is of the shape that its kind tells. -/
theorem shape?_of_declaration? {isMember : Bool} {levels : Nat} {fields : List (String × Json)}
    {d : Declaration} (h : declaration? isMember levels (.obj fields) = some d) :
    shape? .declaration fields = some (.ofKind d.kind) := by
  obtain _ | levels := levels
  · cases h
  · rw [declaration?_eq_some_iff, describes_obj_iff] at h
    have hkind : ("kind", fun p => p.bind (declarationKind? isMember) = some d.kind) ∈
        declarationParts isMember levels d := by
      cases d <;> exact List.mem_cons_self
    obtain ⟨p, hp, htag⟩ := h _ hkind
    obtain ⟨tag, rfl, htold⟩ := Option.bind_eq_some_iff.1 htag
    simp [shape?, tag?, hp, declarationKind?_member htold]

/-- What a reader reads of an object is said by the fields of its shape. -/
theorem ReaderOf.exists_parts {role : Role} {α : Type} {read : Json → Option α}
    (hread : ReaderOf role read) {v : Json} {a : α} (h : read v = some a) :
    ∃ (shape : Shape) (parts : List Part), parts.map Prod.fst = shape.keys ∧
      (∀ part ∈ parts, Fits shape part) ∧ ∀ fields,
        (read (.obj fields) = some a ↔
          ∀ part ∈ parts, ∃ p, field? fields part.1 = some p ∧ part.2 p) ∧
        (read (.obj fields) = some a → shape? role fields = some shape) := by
  cases hread with
  | trivia =>
    exact ⟨.trivia, triviaParts a, rfl, fits_triviaParts a, fun _ =>
      ⟨trivia?_eq_some_iff.trans describes_obj_iff, fun _ => rfl⟩⟩
  | token =>
    exact ⟨.token, tokenParts a, rfl, fits_tokenParts a, fun _ =>
      ⟨token?_eq_some_iff.trans describes_obj_iff, fun _ => rfl⟩⟩
  | declaration isMember levels =>
    obtain _ | levels := levels
    · cases h
    · exact ⟨.ofKind a.kind, declarationParts isMember levels a, by cases a <;> rfl,
        fits_declarationParts isMember levels a, fun _ =>
        ⟨declaration?_eq_some_iff.trans describes_obj_iff, shape?_of_declaration?⟩⟩

/-! ## Loosened values -/

/-- What the fields of an object say is not changed by what is done to them. -/
theorem Relaxes.exists_field? {shape : Shape} {fields fields' : List (String × Json)}
    (h : Relaxes shape fields fields') {part : Part} (hkey : part.1 ∈ shape.keys)
    (hpart : Fits shape part) (hold : ∃ p, field? fields part.1 = some p ∧ part.2 p) :
    ∃ p, field? fields' part.1 = some p ∧ part.2 p := by
  obtain ⟨p, hp, hmeets⟩ := hold
  cases h with
  | permute hperm => exact ⟨p, field?_of_perm hperm _ ▸ hp, hmeets⟩
  | @leaveOut before after key _ hdefault =>
    by_cases heq : key = part.1
    · subst heq
      obtain ⟨rfl, hrest⟩ := field?_middle_eq_some_iff.1 hp
      exact ⟨none, hrest, hpart.default hdefault hmeets⟩
    · exact ⟨p, field?_middle_of_ne heq ▸ hp, hmeets⟩
  | @add before after key hnew v hv =>
    have hne : key ≠ part.1 := fun heq => hnew (heq ▸ hkey)
    exact ⟨p, (field?_middle_of_ne hne).trans hp, hmeets⟩

/-- **What is read of a value** is read of a loosened one, too. -/
theorem Loosens.readsAlso {role : Role} {v w : Json} (h : Loosens role v w) :
    ReadsAlso role v w := by
  induction h with
  | fields hshape hrelaxes =>
    intro α read hread a ha
    obtain ⟨shape, parts, hnames, hfits, hfields⟩ := hread.exists_parts ha
    obtain rfl := Option.some.inj (((hfields _).2 ha).symm.trans hshape)
    rw [(hfields _).1] at ha ⊢
    intro part hpart
    exact hrelaxes.exists_field? (hnames ▸ List.mem_map_of_mem hpart) (hfits part hpart)
      (ha part hpart)
  | @item _ _ _ key before after left right v v' hshape hkey hrole _ ih =>
    intro α read hread a ha
    obtain ⟨shape, parts, hnames, hfits, hfields⟩ := hread.exists_parts ha
    rw [(hfields _).1] at ha ⊢
    intro part hpart
    obtain ⟨p, hp, hmeets⟩ := ha part hpart
    by_cases heq : key = part.1
    · subst heq
      obtain ⟨rfl, hrest⟩ := field?_middle_eq_some_iff.1 hp
      exact ⟨_, field?_middle_eq_some_iff.2 ⟨rfl, hrest⟩, (hfits part hpart).item hrole ih hmeets⟩
    · rw [field?_middle_of_ne heq] at hp
      exact ⟨p, (field?_middle_of_ne heq).trans hp, hmeets⟩

/-- Loosening adds no numbers but whole ones of at most 64 bits. -/
theorem Loosens.whole {role : Role} {v w : Json} (h : Loosens role v w) (hv : v.Whole) :
    w.Whole := by
  induction h with
  | fields hshape hrelaxes =>
    rw [Json.Whole.obj_iff] at hv ⊢
    cases hrelaxes with
    | permute hperm => exact fun f hf => hv f (hperm.mem_iff.2 hf)
    | leaveOut before after hkey hdefault =>
      simp only [List.forall_mem_append, List.forall_mem_cons] at hv ⊢
      exact ⟨hv.1, hv.2.2⟩
    | add before after hnew hadded =>
      simp only [List.forall_mem_append, List.forall_mem_cons] at hv ⊢
      exact ⟨hv.1, hadded, hv.2⟩
  | item before after left right hshape hkey hrole _ ih =>
    simp only [Json.Whole.obj_iff, Json.Whole.arr_iff, List.forall_mem_append,
      List.forall_mem_cons] at hv ⊢
    obtain ⟨hbefore, ⟨hleft, hitem, hright⟩, hafter⟩ := hv
    exact ⟨hbefore, ⟨hleft, ih hitem, hright⟩, hafter⟩

/-! ## Flawed values -/

/-- An object that is read has a shape, and every field of that shape is given at most once and says
what it should. -/
theorem ReaderOf.exists_field? {role : Role} {α : Type} {read : Json → Option α}
    (hread : ReaderOf role read) {fields : List (String × Json)} {a : α}
    (h : read (.obj fields) = some a) :
    ∃ shape, shape? role fields = some shape ∧ ∀ key ∈ shape.keys, ∃ (meets : Option Json → Prop)
      (p : Option Json), Fits shape (key, meets) ∧ field? fields key = some p ∧ meets p := by
  obtain ⟨shape, parts, hnames, hfits, hfields⟩ := hread.exists_parts h
  refine ⟨shape, (hfields fields).2 h, fun key hkey => ?_⟩
  obtain ⟨⟨_, meets⟩, hpart, rfl⟩ := List.mem_map.1 (hnames ▸ hkey)
  obtain ⟨p, hp, hmeets⟩ := (hfields fields).1.1 h _ hpart
  exact ⟨meets, p, hfits _ hpart, hp, hmeets⟩

/-- Nothing is read of an object if a field of its shape cannot be given once and say what it
should. -/
theorem unread_of_field {role : Role} {shape : Shape} {key : String}
    {fields : List (String × Json)} (hshape : shape? role fields = some shape)
    (hkey : key ∈ shape.keys)
    (h : ∀ (meets : Option Json → Prop) (p : Option Json), Fits shape (key, meets) →
      field? fields key = some p → ¬ meets p) : Unread role (.obj fields) := by
  intro α read hread
  refine Option.eq_none_iff_forall_ne_some.2 fun a ha => ?_
  obtain ⟨shape', hshape', hfields⟩ := hread.exists_field? ha
  obtain rfl := Option.some.inj (hshape.symm.trans hshape')
  obtain ⟨meets, p, hfits, hp, hmeets⟩ := hfields key hkey
  exact h meets p hfits hp hmeets

/-- **Of a flawed value** nothing is read. -/
theorem Flawed.unread {role : Role} {v : Json} (h : Flawed role v) : Unread role v := by
  induction h with
  | kind role hkind =>
    -- without its kind a declaration has no shape
    refine fun hread => Option.eq_none_iff_forall_ne_some.2 fun a ha => hkind ?_
    obtain ⟨shape, -, hfields⟩ := hread.exists_field? ha
    obtain ⟨meets, p, hfits, hp, hmeets⟩ := hfields "kind" shape.kind_mem_keys
    rw [length_valuesOf_of_field? hp]
    cases p with
    | none => exact absurd hmeets (hfits.required shape.kind_mem_required)
    | some v => rfl
  | twice hshape hkey htwice =>
    refine unread_of_field hshape hkey fun meets p _ hp _ => ?_
    rw [length_valuesOf_of_field? hp] at htwice
    cases p <;> simp at htwice
  | missing hshape hkey hmissing =>
    refine unread_of_field hshape (Shape.mem_keys_of_mem_required hkey) fun meets p hfits hp => ?_
    have hlength := length_valuesOf_of_field? hp
    rw [hmissing] at hlength
    cases p with
    | none => exact hfits.required hkey
    | some v => cases hlength
  | item hshape hkey hrole hfield hitem _ ih =>
    refine unread_of_field hshape hkey fun meets p hfits hp => ?_
    obtain rfl := field?_of_mem_eq_some hfield hp
    obtain ⟨left, right, rfl⟩ := List.append_of_mem hitem
    exact hfits.unread hrole ih

end Exchange

/-! ## Texts of declarations -/

namespace Declaration

open Exchange

/-- A loosened value of a declaration has only whole numbers of at most 64 bits in it, and the
declaration is read of it. -/
theorem ofJson?_of_loosens {d : Declaration} {v : Json}
    (h : Relation.ReflTransGen (Loosens .declaration) d.toJson v) :
    v.Whole ∧ ofJson? v = some d := by
  -- the reader for the value itself goes deep enough for it, however deep the loosened ones are
  suffices hread : v.Whole ∧ declaration? false (d.toJson.depth + 1) v = some d from
    ⟨hread.1, declaration?_of_depth_lt hread.2 (Nat.lt_succ_self _)⟩
  induction h with
  | refl => exact ⟨whole_toJson d, declaration?_toJson d false (Nat.lt_succ_self _)⟩
  | tail _ hstep ih => exact ⟨hstep.whole ih.1, hstep.readsAlso (.declaration _ _) d ih.2⟩

theorem parse?_of_ofJson? {text : String} {v : Json} (h : Json.parse? nestingLimit text = some v) :
    parse? text = ofJson? v := by
  simp [parse?, h]

/-- **A declaration is read from every loosened text of it.**  Its fields, those of its members,
of its tokens and of their trivia may be permuted, left out where they hold their default, and
joined by others that are not known, as long as the text is not nested too deeply.  **A text with a
flaw is refused**: none is read if an object in it lacks a field that has no default, or has one
twice that it knows. -/
theorem reads_loosened_refuses_flawed (d : Declaration) (v : Json) :
    (Relation.ReflTransGen (Loosens .declaration) d.toJson v →
      ofJson? v = some d ∧
        (∀ text, Json.parse? nestingLimit text = some v → parse? text = some d) ∧
        (v.depth ≤ nestingLimit → parse? v.render = some d)) ∧
      (Flawed .declaration v →
        ofJson? v = none ∧
          ∀ text, Json.parse? nestingLimit text = some v → parse? text = none) := by
  constructor
  · intro hloose
    obtain ⟨hwhole, hread⟩ := ofJson?_of_loosens hloose
    have htexts : ∀ text, Json.parse? nestingLimit text = some v → parse? text = some d :=
      fun text htext => (parse?_of_ofJson? htext).trans hread
    refine ⟨hread, htexts, fun hdepth => htexts _ ?_⟩
    rw [Json.parse?_render hwhole, if_pos hdepth]
  · intro hflawed
    have hread : ofJson? v = none := by
      rw [ofJson?, hflawed.unread (.declaration false _)]
    exact ⟨hread, fun text htext => (parse?_of_ofJson? htext).trans hread⟩

/-- A field of one token. -/
def oneToken : Declaration := .plain .field ⟨[], [.bare .identifier "x"], some 0⟩

/-- The same field as a host may give it: the kind last, lists left out that are empty, and a list
of the host's own under a name that only other kinds know. -/
def oneTokenOfHost : Json :=
  .obj
    [("head", .arr [.int 1, .null]), ("name", .int 0),
      ("tokens", .arr
        [.obj [("kind", .str "identifier"), ("text", .str "x"), ("leading", .arr [])]]),
      ("kind", .str "field")]

theorem loosens_oneTokenOfHost :
    Relation.ReflTransGen (Loosens .declaration) oneToken.toJson oneTokenOfHost := by
  have hadded : (Json.arr [.int 1, .null]).Whole := by
    have hone : (Json.int 1).Whole := .int 1 (by decide) (by decide)
    simp [hone]
  have hhead : "head" ∉ Shape.plain.keys := by decide
  -- left out are the trivia behind the token, then the modifiers
  refine .head (.item [_, _] [_] [] [] rfl (by decide) rfl
    (.fields rfl (.leaveOut [_, _, _] [] (by decide) (by decide)))) ?_
  refine .head (.fields rfl (.leaveOut [_] [_, _] (by decide) (by decide))) ?_
  refine .head (.fields rfl (.add [_, _, _] [] hhead hadded)) ?_
  exact .single (.fields rfl (.permute (List.reverse_perm [_, _, _, _]).symm))

/-- A class whose only member has a token that has no text. -/
def textless : Json :=
  .obj
    [("kind", .str "class"), ("head", .arr []),
      ("members", .arr
        [.obj [("kind", .str "field"), ("tokens", .arr [.obj [("kind", .str "keyword")]])]])]

theorem flawed_textless : Flawed .declaration textless := by
  have htext : "text" ∈ Shape.required .token := by decide
  have htoken : Flawed .token (.obj [("kind", .str "keyword")]) := .missing rfl htext rfl
  have hmember : Flawed .declaration
      (.obj [("kind", .str "field"), ("tokens", .arr [.obj [("kind", .str "keyword")]])]) :=
    .item rfl (by decide) rfl (.tail _ (.head _)) (.head _) htoken
  exact .item rfl (by decide) rfl (.tail _ (.tail _ (.head _))) (.head _) hmember

theorem reads_loosened_refuses_flawed_oneToken :
    (ofJson? oneTokenOfHost = some oneToken ∧
      parse? oneTokenOfHost.render = some oneToken) ∧ ofJson? textless = none := by
  obtain ⟨hread, -, htext⟩ :=
    (reads_loosened_refuses_flawed oneToken oneTokenOfHost).1 loosens_oneTokenOfHost
  exact ⟨⟨hread, htext (by decide)⟩,
    ((reads_loosened_refuses_flawed oneToken textless).2 flawed_textless).1⟩

end Declaration

end DeclStyle
