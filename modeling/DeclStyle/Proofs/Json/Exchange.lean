import DeclStyle.Declaration.Exchange
import DeclStyle.Proofs.Json.RoundTrip
import DeclStyle.Proofs.Traversal.Position

/-!
# Declarations in the exchange format

What is written gives every field once, under its own name, so that the reader finds each part and
gets it back: the parts of a declaration one after another, its members by induction.  The text adds
a condition.  Arrays and objects in it may be nested `Exchange.nestingLimit` deep, one less than the
depth at which the reader gives up; a declaration whose text goes deeper is refused.

* `Exchange.parts?_obj` — the parts of an object are the values of its fields;
* `Exchange.token?_toJson`, `Declaration.declaration?_toJson` — a token and a declaration are read
  back from their JSON values;
* `Declaration.depth_toJson_le` — a text is nested about twice as deeply as the tree;
* `Declaration.whole_toJson` — these values have no numbers but whole ones of at most 64 bits;
* `Declaration.parse?_render_toJson` — a declaration is read back from its text, unless that is
  nested too deeply.
-/

namespace DeclStyle

namespace Exchange

variable {α β : Type}

/-! ## Objects and lists -/

/-- A list of results is all there if each result is. -/
theorem mapM_eq_some_map {f : α → Option β} {g : α → β} {as : List α}
    (h : ∀ a ∈ as, f a = some (g a)) : as.mapM f = some (as.map g) := by
  induction as with
  | nil => rfl
  | cons a as ih =>
    rw [List.mapM_cons, h a List.mem_cons_self, ih fun b hb => h b (List.mem_cons_of_mem _ hb)]
    rfl

/-- A field is found by its name if no other field has it. -/
theorem field?_of_mem {fields : List (String × Json)} (hkeys : (fields.map Prod.fst).Nodup)
    {f : String × Json} (hf : f ∈ fields) : field? fields f.1 = some (some f.2) := by
  obtain ⟨before, after, rfl⟩ := List.append_of_mem hf
  rw [List.map_append, List.map_cons, List.nodup_append, List.nodup_cons] at hkeys
  obtain ⟨-, ⟨hafter, -⟩, hbefore⟩ := hkeys
  have hnone : ∀ fs : List (String × Json), f.1 ∉ fs.map Prod.fst →
      fs.filter (·.1 == f.1) = [] := by
    intro fs hfs
    rw [List.filter_eq_nil_iff]
    intro g hg heq
    exact hfs (eq_of_beq heq ▸ List.mem_map_of_mem hg)
  have hvalues : Json.valuesOf f.1 (before ++ f :: after) = [f.2] := by
    rw [Json.valuesOf, List.filter_append, List.filter_cons, if_pos (beq_self_eq_true _),
      hnone after hafter, hnone before fun h => hbefore _ h _ List.mem_cons_self rfl]
    rfl
  rw [field?, hvalues]

/-- The parts of an object are the values of its fields. -/
theorem parts?_obj {keys : List String} {fields : List (String × Json)}
    (hfields : fields.map Prod.fst = keys) (hkeys : keys.Nodup) :
    parts? keys (.obj fields) = some (fields.map fun f => some f.2) := by
  subst hfields
  rw [parts?, List.mapM_map]
  exact mapM_eq_some_map fun f hf => field?_of_mem hkeys hf

/-- The value that tells the kind is the first of the parts. -/
theorem tag?_of_parts? {keys : List String} {v : Json} {tag : Option Json}
    {parts : List (Option Json)} (h : parts? ("kind" :: keys) v = some (tag :: parts)) :
    tag? v = tag := by
  cases v with
  | obj fields =>
    rw [parts?, List.mapM_cons] at h
    obtain ⟨t, ht, h⟩ := Option.bind_eq_some_iff.1 h
    obtain ⟨ts, -, h⟩ := Option.bind_eq_some_iff.1 h
    rw [tag?, ht]
    exact (List.cons.inj (Option.some.inj h)).1
  | arr items =>
    rw [parts?] at h
    split at h
    · cases items with
      | nil => exact (List.cons.inj (Option.some.inj h)).1
      | cons v items => exact (List.cons.inj (Option.some.inj h)).1
    · cases h
  | _ => cases h

/-- A list is read back if its items are. -/
theorem listOf?_map {item : Json → Option α} {f : α → Json} {as : List α}
    (h : ∀ a ∈ as, item (f a) = some a) : listOf? item (some (.arr (as.map f))) = some as := by
  have hitems := mapM_eq_some_map (f := item ∘ f) (g := id) h
  rw [listOf?, List.mapM_map, hitems, List.map_id]

/-! ## Tokens -/

theorem trivia?_toJson (t : Trivia) : trivia? t.toJson = some t := by
  have hparts : parts? ["kind", "text"] t.toJson =
      some [some (.str t.kind.identifier), some (.str t.text)] :=
    parts?_obj rfl (by decide)
  simp [trivia?, hparts, choice?, TriviaKind.ofIdentifier?_identifier, Json.str?]

theorem run?_toJson (run : TriviaRun) : listOf? trivia? (some run.toJson) = some run :=
  listOf?_map fun t _ => trivia?_toJson t

theorem tokenKind?_toJson (k : TokenKind) : tokenKind? k.toJson = some k := by
  cases k with
  | modifier kind =>
    simp [TokenKind.toJson, tokenKind?, modifierKind?, choice?,
      ModifierKind.ofIdentifier?_identifier]
  | _ => rfl

theorem token?_toJson (t : Token) : token? t.toJson = some t := by
  have hparts : parts? ["kind", "text", "leading", "trailing"] t.toJson =
      some [some t.kind.toJson, some (.str t.text), some t.leading.toJson,
        some t.trailing.toJson] :=
    parts?_obj rfl (by decide)
  simp [token?, hparts, tokenKind?_toJson, run?_toJson, Json.str?]

theorem tokens?_toJson (ts : List Token) : listOf? token? (some (Token.listToJson ts)) = some ts :=
  listOf?_map fun t _ => token?_toJson t

theorem head?_toJson (ts : List Token) :
    requiredListOf? token? (some (Token.listToJson ts)) = some ts :=
  tokens?_toJson ts

/-! ## Declarations -/

theorem name?_toJson (name : Option UInt64) :
    name? (some (Signature.nameToJson name)) = some name := by
  cases name with
  | none => rfl
  | some i =>
    have hlt : i.toNat < Nat.pow 2 64 := i.toNat_lt
    calc name? (some (Signature.nameToJson (some i)))
      _ = if i.toNat < Nat.pow 2 64 then some (some (UInt64.ofNat i.toNat)) else none := rfl
      _ = some (some i) := by rw [if_pos hlt, UInt64.ofNat_toNat]

theorem declarationKind?_identifier (isMember : Bool) (k : DeclarationKind) :
    declarationKind? isMember (.str k.identifier) = some k :=
  k.ofIdentifier?_identifier

end Exchange

namespace Declaration

open Exchange

theorem listToJson_eq_map (ds : List Declaration) : listToJson ds = ds.map toJson := by
  induction ds with
  | nil => rfl
  | cons d ds ih => rw [listToJson, ih, List.map_cons]

/-- The members of a declaration are written as items of one of its fields. -/
theorem depth_toJson_lt_of_mem {d m : Declaration} (h : m ∈ d.members) :
    m.toJson.depth < d.toJson.depth := by
  have hitem : m.toJson.depth < (Json.arr (listToJson d.members)).depth :=
    Json.depth_lt_of_mem_arr (listToJson_eq_map _ ▸ List.mem_map_of_mem h)
  cases d with
  | plain k s => cases h
  | type k s ms tl =>
    refine Nat.lt_trans hitem ?_
    rw [toJson]
    exact Json.depth_lt_of_mem_obj (f := ("members", .arr (listToJson ms))) (by simp)
  | space hd ms tl =>
    refine Nat.lt_trans hitem ?_
    rw [toJson]
    exact Json.depth_lt_of_mem_obj (f := ("members", .arr (listToJson ms))) (by simp)

theorem parts?_plain (k : PlainKind) (s : Signature) :
    parts? ["kind", "modifiers", "tokens", "name"] (plain k s).toJson =
      some [some (.str (DeclarationKind.plain k).identifier),
        some (Token.listToJson s.modifiers), some (Token.listToJson s.tokens),
        some (Signature.nameToJson s.name)] :=
  parts?_obj rfl (by decide)

theorem parts?_type (k : TypeKind) (s : Signature) (ms : List Declaration) (tl : List Token) :
    parts? ["kind", "modifiers", "head", "name", "members", "tail"] (type k s ms tl).toJson =
      some [some (.str (DeclarationKind.type k).identifier),
        some (Token.listToJson s.modifiers), some (Token.listToJson s.tokens),
        some (Signature.nameToJson s.name), some (.arr (listToJson ms)),
        some (Token.listToJson tl)] :=
  parts?_obj rfl (by decide)

theorem parts?_space (hd : List Token) (ms : List Declaration) (tl : List Token) :
    parts? ["kind", "head", "members", "tail"] (space hd ms tl).toJson =
      some [some (.str DeclarationKind.space.identifier), some (Token.listToJson hd),
        some (.arr (listToJson ms)), some (Token.listToJson tl)] :=
  parts?_obj rfl (by decide)

theorem members?_toJson (ms : List Declaration) {levels : Nat}
    (h : ∀ m ∈ ms, declaration? true levels m.toJson = some m) :
    listOf? (declaration? true levels) (some (.arr (listToJson ms))) = some ms :=
  listToJson_eq_map ms ▸ listOf?_map h

/-- **A declaration is read back from its value** by a reader that goes deeper than the value. -/
theorem declaration?_toJson (d : Declaration) (isMember : Bool) {levels : Nat}
    (h : d.toJson.depth < levels) : declaration? isMember levels d.toJson = some d := by
  induction d using members_induction generalizing isMember levels with
  | members d ih =>
    obtain ⟨levels, rfl⟩ := Nat.exists_eq_succ_of_ne_zero (Nat.ne_zero_of_lt h)
    -- the reader goes one level less deep in the members, and they are nested less deeply
    have hread : ∀ m ∈ d.members, declaration? true levels m.toJson = some m := fun m hm =>
      ih m hm true (Nat.lt_of_lt_of_le (depth_toJson_lt_of_mem hm) (Nat.le_of_lt_succ h))
    cases d with
    | plain k s =>
      have hparts := parts?_plain k s
      simp [declaration?, tag?_of_parts? hparts, declarationKind?_identifier, hparts,
        tokens?_toJson, name?_toJson]
    | type k s ms tl =>
      have hparts := parts?_type k s ms tl
      have hmembers := members?_toJson ms hread
      simp [declaration?, tag?_of_parts? hparts, declarationKind?_identifier, hparts,
        tokens?_toJson, head?_toJson, name?_toJson, hmembers]
    | space hd ms tl =>
      have hparts := parts?_space hd ms tl
      have hmembers := members?_toJson ms hread
      simp [declaration?, tag?_of_parts? hparts, declarationKind?_identifier, hparts,
        tokens?_toJson, head?_toJson, hmembers]

/-! ## Depth -/

theorem depth_run_le (run : TriviaRun) : run.toJson.depth ≤ 2 := by
  refine Json.depth_arr_le_iff.2 (List.forall_mem_map.2 fun t _ => ?_)
  simp [Trivia.toJson, Json.depth, Json.depthOfFields]

theorem depth_tokens_le (ts : List Token) : (Token.listToJson ts).depth ≤ 4 := by
  have hkind : ∀ k : TokenKind, k.toJson.depth ≤ 1 := by
    intro k
    cases k <;> simp [TokenKind.toJson, Json.depth, Json.depthOfFields]
  refine Json.depth_arr_le_iff.2 (List.forall_mem_map.2 fun t _ => Json.depth_obj_le_iff.2 ?_)
  have hthis : t.kind.toJson.depth ≤ 2 := Nat.le_succ_of_le (hkind t.kind)
  simp [depth_run_le, Json.depth, hthis]

theorem depth_name (name : Option UInt64) : (Signature.nameToJson name).depth = 0 := by
  cases name <;> rfl

/-- Each level of a tree takes two levels of its text, and the tokens at the bottom three more. -/
theorem depth_toJson_le (d : Declaration) : d.toJson.depth ≤ 2 * d.depth + 3 := by
  induction d using members_induction with
  | members d ih =>
    have hmembers : Json.depthOfItems (listToJson d.members) ≤ 2 * depthOfAll d.members + 3 := by
      rw [Json.depthOfItems_le_iff, listToJson_eq_map, List.forall_mem_map]
      intro m hm
      have hle := depth_le_depthOfAll hm
      have hread := ih m hm
      omega
    have htokens : ∀ ts, (Token.listToJson ts).depth ≤ 2 * depthOfAll d.members + 4 := fun ts =>
      Nat.le_trans (depth_tokens_le ts) (Nat.le_add_left _ _)
    have hsum : 2 * (depthOfAll d.members + 1) + 3 = 2 * depthOfAll d.members + 4 + 1 := by omega
    rw [depth_eq, hsum]
    cases d with
    | plain k s =>
      refine Json.depth_obj_le_iff.2 ?_
      simp [htokens, depth_name, Json.depth]
    | type k s ms tl =>
      have hlist : Json.depthOfItems (listToJson ms) ≤ _ := hmembers
      refine Json.depth_obj_le_iff.2 ?_
      simp [htokens, depth_name, Json.depth, hlist]
    | space hd ms tl =>
      have hlist : Json.depthOfItems (listToJson ms) ≤ _ := hmembers
      refine Json.depth_obj_le_iff.2 ?_
      simp [htokens, Json.depth, hlist]

/-! ## Texts -/

theorem whole_run (run : TriviaRun) : run.toJson.Whole := by
  simp [TriviaRun.toJson, Trivia.toJson]

theorem whole_tokens (ts : List Token) : (Token.listToJson ts).Whole := by
  have hkind : ∀ k : TokenKind, k.toJson.Whole := by
    intro k
    cases k <;> simp [TokenKind.toJson]
  simp [Token.listToJson, Token.toJson, hkind, whole_run]

theorem whole_name (name : Option UInt64) : (Signature.nameToJson name).Whole := by
  cases name with
  | none => exact .null
  | some i =>
    have hlt : i.toNat < Nat.pow 2 64 := i.toNat_lt
    exact .int _ (by omega) (by omega)

/-- The only number in a written declaration is the position of its name. -/
theorem whole_toJson (d : Declaration) : d.toJson.Whole := by
  induction d using members_induction with
  | members d ih =>
    have hmembers : ∀ v ∈ listToJson d.members, v.Whole := by
      rw [listToJson_eq_map, List.forall_mem_map]
      exact ih
    cases d with
    | plain k s => simp [toJson, whole_tokens, whole_name]
    | type k s ms tl => simpa [toJson, whole_tokens, whole_name, members, members?] using hmembers
    | space hd ms tl => simpa [toJson, whole_tokens, members, members?] using hmembers

/-- **A declaration is read back from its text** as long as the text is not nested too deeply, and
is refused otherwise.  The text is nested about twice as deeply as the declaration, so that none is
refused that has no more than 62 levels. -/
theorem parse?_render_toJson (d : Declaration) :
    (parse? d.toJson.render = if d.toJson.depth ≤ nestingLimit then some d else none) ∧
      d.toJson.depth ≤ 2 * d.depth + 3 := by
  refine ⟨?_, depth_toJson_le d⟩
  have hvalue : ofJson? d.toJson = some d := declaration?_toJson d false (Nat.lt_succ_self _)
  rw [parse?, Json.parse?_render (whole_toJson d)]
  by_cases h : d.toJson.depth ≤ nestingLimit
  · rw [if_pos h, if_pos h]
    exact hvalue
  · rw [if_neg h, if_neg h]
    rfl

/-- A namespace with a field in it.  The text of the modifier is not its keyword and has characters
in it that have to be escaped, the trivia in front of it is a blank by its kind only, and the name
is said to be far behind the tokens. -/
def garbledSpace : Declaration :=
  .space [.bare .keyword "namespace"]
    [.plain .field
      ⟨[⟨.modifier .readonlyKw, "a\x22\\\n\x00𝄞", [⟨.whitespace, "\x1b"⟩], [.elastic]⟩],
        [.bare .literal ""], some 18446744073709551615⟩]
    []

theorem parse?_render_toJson_garbledSpace :
    garbledSpace.toJson.depth ≤ nestingLimit ∧
      parse? garbledSpace.toJson.render = some garbledSpace := by
  have hdepth : garbledSpace.toJson.depth ≤ nestingLimit := by decide
  exact ⟨hdepth, (parse?_render_toJson garbledSpace).1.trans (if_pos hdepth)⟩

end Declaration

end DeclStyle
