import DeclStyle.Proofs.Edit.Frame
import DeclStyle.Proofs.StyleRule.Composition
import DeclStyle.Proofs.StyleRule.ModifierOrder
import DeclStyle.Proofs.Traversal.Correspondence

/-!
# What a check leaves alone

A check takes the declarations of a tree one to one to those of the tree it makes.  It moves no
declaration out of its container, and it moves members only within types, if it is asked to.  Each
declaration keeps all of its own but its modifiers and the trivia behind them, and of the modifiers
a check changes few: it takes away one `unsafe`, it adds one `static`, and it adds the default
accessibility where none is declared.

* `StyleRule.KeywordsChanged` — how rules may change the keywords of a declaration;
* `StyleRule.Changes.edited` — no rule does more to a declaration that it changes;
* `StyleRule.corresponds_of_outcome` — so a rule takes a tree to one that corresponds to it;
* `Check.frame_of_run` — and so does a check.
-/

namespace DeclStyle

open Token Declaration

namespace StyleRule

variable {settings : StyleSettings} {d e f : Declaration}

/-! ## Keywords -/

/-- What has come of a rule if it is one of those that were applied: nothing, or the keywords that
it takes away or adds. -/
def FromRule (rules : List StyleRule) (r : StyleRule) (keywords part : List ModifierKind) : Prop :=
  part = [] ∨ r ∈ rules ∧ part = keywords

theorem FromRule.append {xs ys : List StyleRule} {r : StyleRule} {keywords a b : List ModifierKind}
    (h : FromRule xs r keywords a) (h' : FromRule ys r keywords b) (honce : r ∈ xs → r ∉ ys) :
    FromRule (xs ++ ys) r keywords (a ++ b) := by
  rcases h with rfl | ⟨hr, rfl⟩
  · rcases h' with rfl | ⟨hr', rfl⟩
    · exact .inl rfl
    · exact .inr ⟨List.mem_append_right xs hr', rfl⟩
  · rcases h' with rfl | ⟨hr', rfl⟩
    · exact .inr ⟨List.mem_append_left ys hr, List.append_nil a⟩
    · exact absurd hr' (honce hr)

/-- How the keywords of a declaration may have changed when some rules have been applied once each.
One `unsafe` may have been dropped, one `static` added, and the default accessibility declared where
none was declared. -/
def KeywordsChanged (settings : StyleSettings) (rules : List StyleRule) (d e : Declaration) :
    Prop :=
  ∃ dropped made declared,
    FromRule rules redundantUnsafe [.unsafeKw] dropped ∧
    FromRule rules staticClassMembers [.staticKw] made ∧
    FromRule rules visibilityRequired settings.defaultAccessibility.keywords declared ∧
    (declared ≠ [] → d.accessibility? = none) ∧
    (e.modifiers.map Token.kind ++ dropped.map TokenKind.modifier).Perm
      (d.modifiers.map Token.kind ++ (made ++ declared).map TokenKind.modifier)

theorem accessibility?_eq_none_iff (d : Declaration) :
    d.accessibility? = none ↔
      ∀ k : ModifierKind, k.isAccessibility → .modifier k ∉ d.modifiers.map Token.kind := by
  rw [← Option.not_isSome_iff_eq_none, isSome_accessibility?_iff]
  simp [hasModifier_eq]

namespace KeywordsChanged

variable {rules xs ys : List StyleRule}

/-- Keywords may be moved about by any rules. -/
theorem of_perm (h : (e.modifiers.map Token.kind).Perm (d.modifiers.map Token.kind)) :
    KeywordsChanged settings rules d e :=
  ⟨[], [], [], .inl rfl, .inl rfl, .inl rfl, fun hne => absurd rfl hne, by simpa using h⟩

theorem withMembers (h : KeywordsChanged settings rules d e) (ms : List Declaration) :
    KeywordsChanged settings rules d (e.withMembers ms) := by
  unfold KeywordsChanged
  rwa [modifiers_withMembers]

/-- Rules of which none declares accessibility leave open whether one is declared. -/
theorem accessibility?_eq_none {dropped made : List ModifierKind}
    (hdropped : FromRule rules redundantUnsafe [.unsafeKw] dropped)
    (hperm : (e.modifiers.map Token.kind ++ dropped.map TokenKind.modifier).Perm
      (d.modifiers.map Token.kind ++ made.map TokenKind.modifier))
    (he : e.accessibility? = none) : d.accessibility? = none := by
  rw [accessibility?_eq_none_iff] at he ⊢
  intro k hk hmem
  rcases List.mem_append.1 (hperm.mem_iff.2 (List.mem_append_left _ hmem)) with hkept | hgone
  · exact he k hk hkept
  · rcases hdropped with rfl | ⟨-, rfl⟩
    · cases hgone
    · obtain rfl : k = .unsafeKw := by simpa using hgone
      cases hk

/-- **Changes of keywords by different rules** add up. -/
theorem trans (h : KeywordsChanged settings xs d e) (h' : KeywordsChanged settings ys e f)
    (hdisjoint : ∀ r ∈ xs, r ∉ ys) : KeywordsChanged settings (xs ++ ys) d f := by
  obtain ⟨dropped, made, declared, hdropped, hmade, hdeclared, hnone, hperm⟩ := h
  obtain ⟨dropped', made', declared', hdropped', hmade', hdeclared', hnone', hperm'⟩ := h'
  refine ⟨dropped ++ dropped', made ++ made', declared ++ declared',
    hdropped.append hdropped' (hdisjoint _), hmade.append hmade' (hdisjoint _),
    hdeclared.append hdeclared' (hdisjoint _), ?_, ?_⟩
  · intro hne
    by_cases hfirst : declared = []
    · subst hfirst
      rw [List.append_nil] at hperm
      exact accessibility?_eq_none hdropped hperm (hnone' (by simpa using hne))
    · exact hnone hfirst
  · rw [List.perm_iff_count] at hperm hperm' ⊢
    intro k
    have hcount := hperm k
    have hcount' := hperm' k
    simp only [List.map_append, List.count_append] at hcount hcount' ⊢
    omega

end KeywordsChanged

/-! ## Single declarations -/

/-- What rules may have made of a declaration, apart from its members. -/
structure Edited (settings : StyleSettings) (rules : List StyleRule) (d e : Declaration) :
    Prop where
  framed : Framed d e
  keywords : KeywordsChanged settings rules d e

namespace Edited

variable {rules xs ys : List StyleRule}

theorem refl (d : Declaration) : Edited settings rules d d := ⟨.refl d, .of_perm (.refl _)⟩

theorem trans (h : Edited settings xs d e) (hdisjoint : ∀ r ∈ xs, r ∉ ys)
    (h' : Edited settings ys e f) : Edited settings (xs ++ ys) d f :=
  ⟨h.framed.trans h'.framed, h.keywords.trans h'.keywords hdisjoint⟩

theorem withMembers (h : Edited settings rules d e) (ms : List Declaration) :
    Edited settings rules d (e.withMembers ms) :=
  ⟨h.framed.trans (.withMembers e ms), h.keywords.withMembers ms⟩

end Edited

/-- **What a rule does to a declaration that it changes.** -/
theorem Changes.edited {r : StyleRule} {parent : Option Declaration}
    (h : Changes settings r parent d e) : Edited settings [r] d e := by
  cases h with
  | redundantUnsafe _ hunsafe hedit =>
    refine ⟨framed_of_editSignature (fun _ _ => Signature.sameRest_of_removeFirst) hedit, ?_⟩
    obtain ⟨s, s', hs, hs', rfl⟩ := editSignature_eq_ok_iff.1 hedit
    rw [hasModifier, modifiers_eq hs] at hunsafe
    have hkinds := Signature.kinds_of_removeKind hs' hunsafe
    refine ⟨[.unsafeKw], [], [], .inr ⟨List.mem_singleton.2 rfl, rfl⟩, .inl rfl, .inl rfl,
      fun hne => absurd rfl hne, ?_⟩
    rw [modifiers_withSignature (by simp [hs]), modifiers_eq hs, List.append_nil, List.map_nil,
      List.append_nil]
    exact (List.perm_append_singleton _ _).trans hkinds.symm
  | staticClassMembers _ _ _ hedit =>
    refine ⟨framed_of_editSignature (fun _ _ => Signature.sameRest_of_insert) hedit, ?_⟩
    obtain ⟨s, s', hs, hs', rfl⟩ := editSignature_eq_ok_iff.1 hedit
    have hone : s.insertKinds [.staticKw] none = .ok s' := bind_eq_ok_iff.2 ⟨s', hs', rfl⟩
    have hkinds := Signature.kinds_of_insertKinds hone
    refine ⟨[], [.staticKw], [], .inl rfl, .inr ⟨List.mem_singleton.2 rfl, rfl⟩, .inl rfl,
      fun hne => absurd rfl hne, ?_⟩
    rw [modifiers_withSignature (by simp [hs]), modifiers_eq hs, List.map_nil, List.append_nil,
      List.append_nil]
    exact hkinds.trans List.perm_append_comm
  | visibilityRequired _ hneeds hedit =>
    refine ⟨framed_of_editSignature (fun _ _ => Signature.sameRest_of_insertKinds) hedit, ?_⟩
    obtain ⟨s, s', hs, hs', rfl⟩ := editSignature_eq_ok_iff.1 hedit
    have hkinds := Signature.kinds_of_insertKinds hs'
    rw [needsAccessibility, Bool.and_eq_true] at hneeds
    refine ⟨[], [], settings.defaultAccessibility.keywords, .inl rfl, .inl rfl,
      .inr ⟨List.mem_singleton.2 rfl, rfl⟩, fun _ => Option.isNone_iff_eq_none.1 hneeds.1, ?_⟩
    rw [modifiers_withSignature (by simp [hs]), modifiers_eq hs, List.map_nil, List.append_nil,
      List.nil_append]
    exact hkinds.trans List.perm_append_comm
  | @orderedModifiers _ d s hs _ =>
    refine ⟨.withSignature hs ⟨rfl, rfl⟩, .of_perm ?_⟩
    rw [modifiers_withSignature (by simp [hs]), modifiers_eq hs]
    exact map_sortModifiers_perm ignoresTrivia_kind s.modifiers
  | orderedClassElements =>
    refine ⟨.withMembers d _, .of_perm ?_⟩
    rw [modifiers_withMembers]

/-! ## Trees -/

/-- Members of a declaration of some kind keep their order under some rules. -/
def KeepsOrder (rules : List StyleRule) (k : DeclarationKind) : Prop :=
  k.isType → orderedClassElements ∉ rules

/-- A rule moves no members but those of types, and only to sort them. -/
theorem Changes.members_eq {r : StyleRule} {parent : Option Declaration}
    (h : Changes settings r parent d e) (hkeeps : KeepsOrder [r] d.kind) :
    e.members = d.members := by
  cases h with
  | redundantUnsafe _ _ hedit => exact members_of_editSignature hedit
  | staticClassMembers _ _ _ hedit => exact members_of_editSignature hedit
  | visibilityRequired _ _ hedit => exact members_of_editSignature hedit
  | orderedModifiers => exact members_withSignature d _
  | orderedClassElements htype _ => exact absurd (List.mem_singleton.2 rfl) (hkeeps htype)

/-- **A rule takes a tree to one that corresponds to it.** -/
theorem corresponds_of_outcome {r : StyleRule} (h : (r.attempt settings d).outcome = .ok e) :
    Corresponds (Edited settings [r]) (KeepsOrder [r]) d e := by
  refine fix_induction (fun _ d e => Corresponds (Edited settings [r]) (KeepsOrder [r]) d e)
    ?_ ?_ h
  · intro parent d members _ hmembers
    have hnew := members_withMembers_of_forall₂ hmembers
    refine .of_members ((Edited.refl d).withMembers members) (.refl _) (fun _ => rfl) ?_
    rwa [hnew]
  · intro parent d current members hchanged hmembers
    have hnew := members_withMembers_of_forall₂ hmembers
    have hperm : current.members.Perm d.members := by
      obtain ⟨message, hfix⟩ := exists_fixNode_of_changes hchanged
      exact members_perm_of_fixNode hfix
    refine .of_members (hchanged.edited.withMembers members) hperm.symm hchanged.members_eq ?_
    rwa [hnew]

end StyleRule

/-! ## Checks -/

namespace Check

open StyleRule

variable {settings : StyleSettings}

/-- Rules applied once each take a tree to one that corresponds to it. -/
theorem corresponds_of_applyAll {rules : List StyleRule} (hnodup : rules.Nodup) {d : Declaration}
    {f : Fixed} (h : applyAll settings rules d = .ok f) :
    Corresponds (Edited settings rules) (KeepsOrder rules) d f.tree := by
  induction rules generalizing d f with
  | nil =>
    obtain rfl := Except.ok.inj h
    exact .refl Edited.refl d
  | cons r rest ih =>
    obtain ⟨hnew, hrest⟩ := List.nodup_cons.1 hnodup
    obtain ⟨first, hfix, h⟩ := bind_eq_ok_iff.1 h
    obtain ⟨others, hothers, hdone⟩ := bind_eq_ok_iff.1 h
    obtain rfl := Except.ok.inj hdone
    obtain ⟨tree, houtcome, rfl⟩ := map_eq_ok_iff.1 hfix
    have hdisjoint : ∀ s ∈ [r], s ∉ rest := by
      intro s hs
      obtain rfl := List.mem_singleton.1 hs
      exact hnew
    have hedited : ∀ a b c, Edited settings [r] a b → Edited settings rest b c →
        Edited settings (r :: rest) a c := fun _ _ _ hab hbc => hab.trans hdisjoint hbc
    have horder : ∀ k, KeepsOrder (r :: rest) k → KeepsOrder [r] k ∧ KeepsOrder rest k := by
      intro k hkeeps
      constructor
      · intro htype hmem
        exact hkeeps htype (List.mem_singleton.1 hmem ▸ List.mem_cons_self)
      · exact fun htype hmem => hkeeps htype (List.mem_cons_of_mem r hmem)
    have hfirst : Corresponds (Edited settings [r]) (KeepsOrder [r]) d tree :=
      corresponds_of_outcome houtcome
    have hlast : Corresponds (Edited settings rest) (KeepsOrder rest) tree others.tree :=
      ih hrest hothers
    exact hfirst.trans hedited (fun _ _ h => h.framed.kind) horder hlast

/-- **The frame of a check.**  The declarations of a tree and of what a check makes of it correspond
one to one.  Members correspond to members, in the same order except in types if the check is asked
to sort them.  Each declaration keeps its kind, its name and the position of it, the tokens behind
its members, and those between its modifiers and its members but for the trivia in front of the
first.  Its keywords change by at most one `unsafe` dropped, one `static` added, and the default
accessibility declared where none was, each only if the rule for it is asked for. -/
theorem frame_of_run {names : List String} {settings : StyleSettings} {d : Declaration} {f : Fixed}
    (h : (run names settings d).outcome = .ok f) :
    Corresponds (Edited settings (resolve names))
      (fun k => k.isType → orderedClassElements.name ∉ names) d f.tree := by
  rw [outcome_run, ← resolve_eq_filter] at h
  have hnodup : (resolve names).Nodup := by
    rw [resolve_eq_filter]
    exact List.Nodup.filter _ (by decide)
  have hkeeps : (fun k : DeclarationKind => k.isType → orderedClassElements.name ∉ names) =
      KeepsOrder (resolve names) := by
    funext k
    rw [KeepsOrder, mem_resolve_iff]
  rw [hkeeps]
  exact corresponds_of_applyAll hnodup h

/-- A namespace with a class that is unsafe and static, in which the method `unsafe M` stands in
front of the field `f`. -/
def crowdedSpace : Declaration :=
  .space [.bare .keyword "namespace"]
    [.type .classType
      ⟨[unsafeToken, ⟨.modifier .staticKw, "static", [], [.space]⟩], [.bare .keyword "class"], none⟩
      [.plain .method ⟨[unsafeToken], [.bare .identifier "M"], some 0⟩,
        .plain .field ⟨[], [.bare .identifier "f"], some 0⟩]
      [.bare .punctuation "\x7d"]]
    [.bare .punctuation "\x7d"]
where
  unsafeToken : Token := ⟨.modifier .unsafeKw, "unsafe", [], [.space]⟩

/-- All rules make a change here, seven in all.  The field goes in front of the method, so that the
position of one corresponds to that of the other. -/
theorem frame_of_run_crowdedSpace :
    ∃ f, (run (StyleRule.all.map StyleRule.name) .standard crowdedSpace).outcome = .ok f ∧
      f.fixes.length = 7 ∧ (f.tree.at? [0, 0]).map Declaration.kind = some (.plain .field) ∧
      Corresponds (Edited .standard StyleRule.all)
        (fun k => k.isType → orderedClassElements.name ∉ StyleRule.all.map StyleRule.name)
        crowdedSpace f.tree := by
  have hrun : ∃ f, (run (StyleRule.all.map StyleRule.name) .standard crowdedSpace).outcome =
      .ok f ∧ f.fixes.length = 7 ∧
      (f.tree.at? [0, 0]).map Declaration.kind = some (.plain .field) := ⟨_, rfl, rfl, rfl⟩
  obtain ⟨f, hf, hfixes, hfield⟩ := hrun
  exact ⟨f, hf, hfixes, hfield, frame_of_run hf⟩

end Check

end DeclStyle
