import DeclStyle.Proofs.Json.Exchange
import DeclStyle.Proofs.Traversal.Induction

/-!
# Reading by parts

A reader of the exchange format takes a value apart by a list of names and reads each part on its
own.  So what it reads can be said part by part: a value describes a declaration, a token or a piece
of trivia if its parts are there and each one says what it should.  Of an object, these parts are
the values of its fields, and the other fields do not matter.

* `Exchange.Describes` — a value has the parts that are asked for
  (`describes_obj_iff` for objects);
* `Exchange.trivia?_eq_some_iff`, `Exchange.token?_eq_some_iff`,
  `Exchange.declaration?_eq_some_iff` — each reader reads exactly what a value describes;
* `Exchange.declaration?_of_depth_lt` — a declaration that is read at all is read by every reader
  that goes deeper than its value.
-/

namespace DeclStyle.Exchange

/-- A part of a value: its name, and what it has to say. -/
abbrev Part := String × (Option Json → Prop)

/-- The parts of a value say what they should. -/
def Describes (parts : List Part) (v : Json) : Prop :=
  ∃ ps, parts? (parts.map Prod.fst) v = some ps ∧ List.Forall₂ (fun part p => part.2 p) parts ps

/-- The parts of an object are the values of its fields. -/
theorem describes_obj_iff {parts : List Part} {fields : List (String × Json)} :
    Describes parts (.obj fields) ↔
      ∀ part ∈ parts, ∃ p, field? fields part.1 = some p ∧ part.2 p := by
  induction parts with
  | nil => simp [Describes, parts?]
  | cons part parts ih =>
    rw [List.forall_mem_cons, ← ih]
    simp only [Describes, parts?, List.map_cons, List.mapM_cons, Option.bind_eq_bind,
      Option.bind_eq_some_iff, Option.pure_def, Option.some.injEq]
    constructor
    · rintro ⟨_, ⟨p, hp, ps, hps, rfl⟩, hall⟩
      obtain ⟨hpart, hrest⟩ := List.forall₂_cons.1 hall
      exact ⟨⟨p, hp, hpart⟩, ps, hps, hrest⟩
    · rintro ⟨⟨p, hp, hpart⟩, ps, hps, hrest⟩
      exact ⟨p :: ps, ⟨p, hp, ps, hps, rfl⟩, .cons hpart hrest⟩

/-! ## The readers -/

/-- What the parts of a piece of trivia say. -/
def triviaParts (t : Trivia) : List Part :=
  [("kind", fun p => (p.bind choice?).bind TriviaKind.ofIdentifier? = some t.kind),
    ("text", fun p => (p.getD (.str "")).str? = some t.text)]

/-- What the parts of a token say. -/
def tokenParts (t : Token) : List Part :=
  [("kind", fun p => p.bind tokenKind? = some t.kind),
    ("text", fun p => p.bind Json.str? = some t.text),
    ("leading", fun p => listOf? trivia? p = some t.leading),
    ("trailing", fun p => listOf? trivia? p = some t.trailing)]

/-- What the parts of a declaration say to a reader that goes the given number of levels down to
its members. -/
def declarationParts (isMember : Bool) (levels : Nat) : Declaration → List Part
  | .plain k s =>
    [("kind", fun p => p.bind (declarationKind? isMember) = some (.plain k)),
      ("modifiers", fun p => listOf? token? p = some s.modifiers),
      ("tokens", fun p => listOf? token? p = some s.tokens),
      ("name", fun p => name? p = some s.name)]
  | .type k s ms tl =>
    [("kind", fun p => p.bind (declarationKind? isMember) = some (.type k)),
      ("modifiers", fun p => listOf? token? p = some s.modifiers),
      ("head", fun p => requiredListOf? token? p = some s.tokens),
      ("name", fun p => name? p = some s.name),
      ("members", fun p => listOf? (declaration? true levels) p = some ms),
      ("tail", fun p => listOf? token? p = some tl)]
  | .space hd ms tl =>
    [("kind", fun p => p.bind (declarationKind? isMember) = some .space),
      ("head", fun p => requiredListOf? token? p = some hd),
      ("members", fun p => listOf? (declaration? true levels) p = some ms),
      ("tail", fun p => listOf? token? p = some tl)]

theorem trivia?_eq_some_iff {v : Json} {t : Trivia} :
    trivia? v = some t ↔ Describes (triviaParts t) v := by
  constructor
  · intro h
    unfold trivia? at h
    split at h
    · rename_i kind text hparts
      simp only [Option.bind_eq_bind, Option.bind_eq_some_iff] at h
      obtain ⟨s, hs, k, hkind, text', htext, hdone⟩ := h
      obtain rfl := Option.some.inj hdone
      exact ⟨_, hparts, .cons (Option.bind_eq_some_iff.2 ⟨s, hs, hkind⟩) (.cons htext .nil)⟩
    · cases h
  · rintro ⟨ps, hparts, hall⟩
    simp only [triviaParts, List.map_cons, List.map_nil, List.forall₂_cons_left_iff,
      List.forall₂_nil_left_iff] at hparts hall
    obtain ⟨p, _, hkind, ⟨text, _, htext, rfl, rfl⟩, rfl⟩ := hall
    obtain ⟨s, hs, hk⟩ := Option.bind_eq_some_iff.1 hkind
    obtain ⟨kind, rfl, hchoice⟩ := Option.bind_eq_some_iff.1 hs
    simp [trivia?, hparts, hchoice, hk, htext]

theorem token?_eq_some_iff {v : Json} {t : Token} :
    token? v = some t ↔ Describes (tokenParts t) v := by
  constructor
  · intro h
    unfold token? at h
    split at h
    · rename_i kind text leading trailing hparts
      simp only [Option.bind_eq_bind, Option.bind_eq_some_iff] at h
      obtain ⟨k, hkind, text', htext, leading', hleading, trailing', htrailing, hdone⟩ := h
      obtain rfl := Option.some.inj hdone
      exact ⟨_, hparts, .cons hkind (.cons htext (.cons hleading (.cons htrailing .nil)))⟩
    · cases h
  · rintro ⟨ps, hparts, hall⟩
    simp only [tokenParts, List.map_cons, List.map_nil, List.forall₂_cons_left_iff,
      List.forall₂_nil_left_iff] at hparts hall
    obtain ⟨p, _, hkind, ⟨q, _, htext, ⟨leading, _, hleading, ⟨trailing, _, htrailing, rfl, rfl⟩,
      rfl⟩, rfl⟩, rfl⟩ := hall
    obtain ⟨kind, rfl, hk⟩ := Option.bind_eq_some_iff.1 hkind
    obtain ⟨text, rfl, ht⟩ := Option.bind_eq_some_iff.1 htext
    simp [token?, hparts, hk, ht, hleading, htrailing]

/-- The kind of a declaration is told by the part of that name. -/
theorem tag?_bind_eq {isMember : Bool} {keys : List String} {v : Json} {p : Option Json}
    {ps : List (Option Json)} (h : parts? ("kind" :: keys) v = some (p :: ps)) :
    (tag? v).bind (declarationKind? isMember) = p.bind (declarationKind? isMember) := by
  rw [tag?_of_parts? h]

/-- What is read of a declaration is said by its parts. -/
theorem describes_of_declaration? {isMember : Bool} {levels : Nat} {v : Json} {d : Declaration}
    (h : declaration? isMember (levels + 1) v = some d) :
    Describes (declarationParts isMember levels d) v := by
  rw [declaration?] at h
  simp only [Option.bind_eq_bind, Option.bind_eq_some_iff] at h
  obtain ⟨tag, htag, kind, hkind, h⟩ := h
  have htold : (tag? v).bind (declarationKind? isMember) = some kind :=
    Option.bind_eq_some_iff.2 ⟨tag, htag, hkind⟩
  cases kind with
  | plain k =>
    obtain ⟨ps, hparts, h⟩ := Option.bind_eq_some_iff.1 h
    split at h
    · simp only [Option.bind_eq_some_iff] at h
      obtain ⟨modifiers, hmodifiers, tokens, htokens, name, hname, hdone⟩ := h
      obtain rfl := Option.some.inj hdone
      exact ⟨_, hparts, .cons ((tag?_bind_eq hparts).symm.trans htold)
        (.cons hmodifiers (.cons htokens (.cons hname .nil)))⟩
    · cases h
  | type k =>
    obtain ⟨ps, hparts, h⟩ := Option.bind_eq_some_iff.1 h
    split at h
    · simp only [Option.bind_eq_some_iff] at h
      obtain ⟨modifiers, hmodifiers, head, hhead, name, hname, members, hmembers, tail, htail,
        hdone⟩ := h
      obtain rfl := Option.some.inj hdone
      exact ⟨_, hparts, .cons ((tag?_bind_eq hparts).symm.trans htold)
        (.cons hmodifiers (.cons hhead (.cons hname (.cons hmembers (.cons htail .nil)))))⟩
    · cases h
  | space =>
    obtain ⟨ps, hparts, h⟩ := Option.bind_eq_some_iff.1 h
    split at h
    · simp only [Option.bind_eq_some_iff] at h
      obtain ⟨head, hhead, members, hmembers, tail, htail, hdone⟩ := h
      obtain rfl := Option.some.inj hdone
      exact ⟨_, hparts, .cons ((tag?_bind_eq hparts).symm.trans htold)
        (.cons hhead (.cons hmembers (.cons htail .nil)))⟩
    · cases h

/-- A declaration is read of a value whose parts say so. -/
theorem declaration?_of_describes {isMember : Bool} {levels : Nat} {v : Json} {d : Declaration}
    (h : Describes (declarationParts isMember levels d) v) :
    declaration? isMember (levels + 1) v = some d := by
  obtain ⟨ps, hparts, hall⟩ := h
  cases d with
  | plain k s =>
    simp only [declarationParts, List.map_cons, List.map_nil, List.forall₂_cons_left_iff,
      List.forall₂_nil_left_iff] at hparts hall
    obtain ⟨p, _, hkind, ⟨modifiers, _, hmodifiers, ⟨tokens, _, htokens,
      ⟨name, _, hname, rfl, rfl⟩, rfl⟩, rfl⟩, rfl⟩ := hall
    obtain ⟨tag, htag, hk⟩ := Option.bind_eq_some_iff.1 ((tag?_bind_eq hparts).trans hkind)
    simp [declaration?, htag, hk, hparts, hmodifiers, htokens, hname]
  | type k s ms tl =>
    simp only [declarationParts, List.map_cons, List.map_nil, List.forall₂_cons_left_iff,
      List.forall₂_nil_left_iff] at hparts hall
    obtain ⟨p, _, hkind, ⟨modifiers, _, hmodifiers, ⟨head, _, hhead, ⟨name, _, hname,
      ⟨members, _, hmembers, ⟨tail, _, htail, rfl, rfl⟩, rfl⟩, rfl⟩, rfl⟩, rfl⟩, rfl⟩ := hall
    obtain ⟨tag, htag, hk⟩ := Option.bind_eq_some_iff.1 ((tag?_bind_eq hparts).trans hkind)
    simp [declaration?, htag, hk, hparts, hmodifiers, hhead, hname, hmembers, htail]
  | space hd ms tl =>
    simp only [declarationParts, List.map_cons, List.map_nil, List.forall₂_cons_left_iff,
      List.forall₂_nil_left_iff] at hparts hall
    obtain ⟨p, _, hkind, ⟨head, _, hhead, ⟨members, _, hmembers, ⟨tail, _, htail, rfl, rfl⟩,
      rfl⟩, rfl⟩, rfl⟩ := hall
    obtain ⟨tag, htag, hk⟩ := Option.bind_eq_some_iff.1 ((tag?_bind_eq hparts).trans hkind)
    simp [declaration?, htag, hk, hparts, hhead, hmembers, htail]

theorem declaration?_eq_some_iff {isMember : Bool} {levels : Nat} {v : Json} {d : Declaration} :
    declaration? isMember (levels + 1) v = some d ↔
      Describes (declarationParts isMember levels d) v :=
  ⟨describes_of_declaration?, declaration?_of_describes⟩

/-! ## Depth -/

/-- A list of results holds what was got of its elements, one by one. -/
theorem mapM_eq_some_iff {α β : Type} {f : α → Option β} {as : List α} {bs : List β} :
    as.mapM f = some bs ↔ List.Forall₂ (fun a b => f a = some b) as bs := by
  induction as generalizing bs with
  | nil => cases bs <;> simp
  | cons a as ih =>
    simp only [List.mapM_cons, Option.bind_eq_bind, Option.bind_eq_some_iff, Option.pure_def,
      Option.some.injEq, List.forall₂_cons_left_iff, ih]
    constructor
    · rintro ⟨b, hb, bs, hbs, rfl⟩
      exact ⟨b, bs, hb, hbs, rfl⟩
    · rintro ⟨b, bs, hb, hbs, rfl⟩
      exact ⟨b, hb, bs, hbs, rfl⟩

/-- A field that is found is one of the fields. -/
theorem mem_of_field? {fields : List (String × Json)} {key : String} {v : Json}
    (h : field? fields key = some (some v)) : (key, v) ∈ fields := by
  unfold field? at h
  split at h
  · cases h
  · rename_i w hvalues
    obtain rfl := Option.some.inj (Option.some.inj h)
    have hmem : w ∈ Json.valuesOf key fields := by simp [hvalues]
    obtain ⟨f, hf, rfl⟩ := List.mem_map.1 hmem
    obtain ⟨hfield, hkey⟩ := List.mem_filter.1 hf
    obtain rfl := eq_of_beq hkey
    exact hfield
  · cases h

/-- A part is nested less deeply than the whole. -/
theorem depth_lt_of_parts? {keys : List String} {v p : Json} {ps : List (Option Json)}
    (h : parts? keys v = some ps) (hp : some p ∈ ps) : p.depth < v.depth := by
  cases v with
  | obj fields =>
    obtain ⟨i, hi⟩ := List.mem_iff_getElem?.1 hp
    have hpart := rel_getElem?_of_forall₂ (mapM_eq_some_iff.1 h) i
    rw [hi] at hpart
    generalize keys[i]? = key at hpart
    cases hpart with
    | some hkey => exact Json.depth_lt_of_mem_obj (mem_of_field? hkey)
  | arr items =>
    rw [parts?] at h
    split at h
    · obtain rfl := Option.some.inj h
      have hitem : p ∈ items := by simpa using hp
      exact Json.depth_lt_of_mem_arr hitem
    · cases h
  | _ => cases h

/-- **A declaration that is read at all** is read by every reader that goes deeper than its
value. -/
theorem declaration?_of_depth_lt {isMember : Bool} {levels levels' : Nat} {v : Json}
    {d : Declaration} (h : declaration? isMember levels v = some d) (hdepth : v.depth < levels') :
    declaration? isMember levels' v = some d := by
  induction levels generalizing isMember levels' v d with
  | zero => cases h
  | succ levels ih =>
    obtain ⟨levels', rfl⟩ := Nat.exists_eq_succ_of_ne_zero (Nat.ne_zero_of_lt hdepth)
    obtain ⟨ps, hparts, hall⟩ := declaration?_eq_some_iff.1 h
    -- only the members are read at some depth
    have hmembers : ∀ p ∈ ps, ∀ ms, listOf? (declaration? true levels) p = some ms →
        listOf? (declaration? true levels') p = some ms := by
      intro p hp ms hms
      match p, hms with
      | none, hms => exact hms
      | some (.arr items), hms =>
        have hlist := depth_lt_of_parts? hparts hp
        obtain ⟨hlength, hitems⟩ := List.forall₂_iff_zip.1 (mapM_eq_some_iff.1 hms)
        refine mapM_eq_some_iff.2 (List.forall₂_iff_zip.2 ⟨hlength, fun hmem => ?_⟩)
        have hitem := Json.depth_lt_of_mem_arr (List.of_mem_zip hmem).1
        exact ih (hitems hmem) (by omega)
    refine declaration?_eq_some_iff.2 ?_
    cases d with
    | plain k s => exact ⟨ps, hparts, hall⟩
    | type k s ms tl =>
      obtain _ | ⟨hkind, _ | ⟨hmodifiers, _ | ⟨hhead, _ | ⟨hname, _ | ⟨hms, hrest⟩⟩⟩⟩⟩ := hall
      have hread := hmembers _ (by simp) ms hms
      exact ⟨_, hparts, .cons hkind (.cons hmodifiers (.cons hhead (.cons hname (.cons hread
        hrest))))⟩
    | space hd ms tl =>
      obtain _ | ⟨hkind, _ | ⟨hhead, _ | ⟨hms, hrest⟩⟩⟩ := hall
      have hread := hmembers _ (by simp) ms hms
      exact ⟨_, hparts, .cons hkind (.cons hhead (.cons hread hrest))⟩

end DeclStyle.Exchange
