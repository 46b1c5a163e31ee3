import DeclStyle.Proofs.Edit.Keywords

/-!
# What an edit of modifiers leaves alone

An edit of modifiers works on the modifiers and the first token after them.  It may put trivia in
front of that token or take them away, and it leaves everything else of a declaration as it is.

* `Signature.SameRest` — two signatures agree but for their modifiers and the trivia in front of the
  first token after them;
* `Signature.sameRest_of_insertKinds`, `Signature.sameRest_of_removeFirst`,
  `Signature.sameRest_of_removeAll`, `Signature.sameRest_of_removeMatching` — edits keep the rest of
  a signature;
* `Declaration.Framed` — a declaration has kept everything of its own but its modifiers and those
  trivia;
* `Declaration.framed_of_editSignature` — so it does under an edit that keeps the rest of the
  signature.
-/

namespace DeclStyle

open Token

/-- What does not look at trivia reads the same off tokens that differ only in the trivia in front
of the first. -/
theorem Token.map_eq_of_stripFirst_eq {β : Type} {f : Token → β} (hf : IgnoresTrivia f)
    {xs ys : List Token} (h : stripFirst xs = stripFirst ys) : xs.map f = ys.map f := by
  have hstripped : (stripFirst xs).map f = (stripFirst ys).map f := by rw [h]
  rwa [stripFirst, stripFirst, map_modifyHead hf.strip, map_modifyHead hf.strip] at hstripped

/-! ## Stretches -/

namespace Stretch

theorem strip_next_of_insert {s s' : Stretch} {t : Token} {index : Nat}
    (h : s.insert t index = .ok s') : s'.next.map strip = s.next.map strip := by
  obtain ⟨before, after, -, -, rfl⟩ := exists_append_of_insert h
  cases after with
  | nil => cases s.next <;> rfl
  | cons f after => rfl

theorem strip_next_of_remove {s s' : Stretch} {index : Nat} (h : s.remove index = .ok s') :
    s'.next.map strip = s.next.map strip := by
  have hr := remove_eq_ok_iff.1 h
  cases hr <;> rfl

theorem strip_next_of_removeAll {s s' : Stretch} (h : s.removeAll = .ok s') :
    s'.next.map strip = s.next.map strip := by
  cases removalOfAll_of_removeAll h <;> rfl

theorem strip_next_of_removeMatching {p : Token → Bool} {s s' : Stretch}
    (h : s.removeMatching p = .ok s') : s'.next.map strip = s.next.map strip := by
  refine removeMatching_induction (R := fun s s' => s'.next.map strip = s.next.map strip)
    (fun _ => rfl) ?_ h
  intro s s₁ s' index hfirst hrest
  exact hrest.trans (strip_next_of_remove hfirst)

end Stretch

/-! ## Signatures -/

namespace Signature

/-- Two signatures agree but for their modifiers and the trivia in front of the first token after
them. -/
structure SameRest (s s' : Signature) : Prop where
  name : s'.name = s.name
  tokens : stripFirst s'.tokens = stripFirst s.tokens

namespace SameRest

variable {s s' s'' : Signature}

theorem refl (s : Signature) : SameRest s s := ⟨rfl, rfl⟩

theorem trans (h : SameRest s s') (h' : SameRest s' s'') : SameRest s s'' :=
  ⟨h'.name.trans h.name, h'.tokens.trans h.tokens⟩

theorem nameText?_eq (h : SameRest s s') : s'.nameText? = s.nameText? := by
  rw [s'.nameText?_eq, s.nameText?_eq, h.name,
    map_eq_of_stripFirst_eq ignoresTrivia_word h.tokens]

end SameRest

/-- An edit of the front of a signature keeps the rest, if it changes no more of the token after the
modifiers than the trivia in front of it. -/
theorem sameRest_store {s : Signature} {edited : Stretch}
    (h : edited.next.map strip = s.next?.map strip) : SameRest s (s.store edited) := by
  obtain ⟨modifiers, tokens, name⟩ := s
  obtain ⟨previous, tokens', next⟩ := edited
  cases tokens with
  | nil => cases next <;> exact ⟨rfl, rfl⟩
  | cons t tokens =>
    cases next with
    | none => exact ⟨rfl, rfl⟩
    | some n =>
      have hstrip : n.strip = t.strip := Option.some.inj h
      refine ⟨rfl, ?_⟩
      show n.strip :: tokens = t.strip :: tokens
      rw [hstrip]

/-- So does an edit of stretches, if it changes no more of the token after a stretch. -/
theorem sameRest_of_editStretch {s s' : Signature} {edit : Stretch → Except EditError Stretch}
    (hedit : ∀ t t', edit t = .ok t' → t'.next.map strip = t.next.map strip)
    (h : s.editStretch edit = .ok s') : SameRest s s' := by
  obtain ⟨edited, hedited, rfl⟩ := editStretch_eq_ok_iff.1 h
  exact sameRest_store (hedit s.stretch edited hedited)

theorem sameRest_of_insert {s s' : Signature} {t : Token} {order : Option (Comparer Token)}
    (h : s.insert t order = .ok s') : SameRest s s' :=
  sameRest_of_editStretch (fun _ _ => Stretch.strip_next_of_insert) h

theorem sameRest_of_insertKinds {s s' : Signature} {kinds : List ModifierKind}
    {order : Option (Comparer ModifierKind)} (h : s.insertKinds kinds order = .ok s') :
    SameRest s s' := by
  induction kinds generalizing s with
  | nil =>
    obtain rfl := Except.ok.inj h
    exact .refl s
  | cons kind kinds ih =>
    obtain ⟨s₁, hfirst, hrest⟩ := bind_eq_ok_iff.1 h
    exact (sameRest_of_insert hfirst).trans (ih hrest)

theorem sameRest_of_removeAt {s s' : Signature} {index : Nat} (h : s.removeAt index = .ok s') :
    SameRest s s' :=
  sameRest_of_editStretch (fun _ _ => Stretch.strip_next_of_remove) h

theorem sameRest_of_removeFirst {s s' : Signature} {p : Token → Bool}
    (h : s.removeFirst p = .ok s') : SameRest s s' := by
  unfold removeFirst at h
  split at h
  · exact sameRest_of_removeAt h
  · obtain rfl := Except.ok.inj h
    exact .refl s

theorem sameRest_of_removeAll {s s' : Signature} (h : s.removeAll = .ok s') : SameRest s s' :=
  sameRest_of_editStretch (fun _ _ => Stretch.strip_next_of_removeAll) h

theorem sameRest_of_removeMatching {s s' : Signature} {p : Token → Bool}
    (h : s.removeMatching p = .ok s') : SameRest s s' :=
  sameRest_of_editStretch (fun _ _ => Stretch.strip_next_of_removeMatching) h

end Signature

/-! ## Declarations -/

namespace Declaration

/-- The tokens between the modifiers of a declaration and its members. -/
def rest : Declaration → List Token
  | plain _ s => s.tokens
  | type _ s _ _ => s.tokens
  | space hd _ _ => hd

/-- The position of the name of a declaration among those tokens, where one is given. -/
def nameIndex? (d : Declaration) : Option UInt64 := d.signature?.bind Signature.name

/-- A declaration has kept its kind, its name and the position of it, the tokens behind its members
and those between its modifiers and its members, but for the trivia in front of the first of them.
A namespace, which has no modifiers, has kept those as well.  Modifiers and members are not
considered. -/
structure Framed (d e : Declaration) : Prop where
  kind : e.kind = d.kind
  name : e.name = d.name
  nameIndex : e.nameIndex? = d.nameIndex?
  tail : e.tail = d.tail
  rest : stripFirst e.rest = stripFirst d.rest
  head : d.kind = .space → e.rest = d.rest

namespace Framed

variable {d e f : Declaration}

theorem refl (d : Declaration) : Framed d d := ⟨rfl, rfl, rfl, rfl, rfl, fun _ => rfl⟩

theorem trans (h : Framed d e) (h' : Framed e f) : Framed d f where
  kind := h'.kind.trans h.kind
  name := h'.name.trans h.name
  nameIndex := h'.nameIndex.trans h.nameIndex
  tail := h'.tail.trans h.tail
  rest := h'.rest.trans h.rest
  head hspace := (h'.head (h.kind.trans hspace)).trans (h.head hspace)

theorem withMembers (d : Declaration) (ms : List Declaration) : Framed d (d.withMembers ms) := by
  cases d <;> exact ⟨rfl, rfl, rfl, rfl, rfl, fun _ => rfl⟩

theorem withSignature {s s' : Signature} (hs : d.signature? = some s)
    (h : Signature.SameRest s s') : Framed d (d.withSignature s') := by
  have hname : (d.withSignature s').name = d.name := name_withSignature hs h.nameText?_eq
  cases d with
  | space hd ms tl => cases hs
  | plain k s₀ =>
    obtain rfl := Option.some.inj hs
    exact ⟨rfl, hname, h.name, rfl, h.tokens, fun hspace => nomatch hspace⟩
  | type k s₀ ms tl =>
    obtain rfl := Option.some.inj hs
    exact ⟨rfl, hname, h.name, rfl, h.tokens, fun hspace => nomatch hspace⟩

end Framed

/-- An edit that keeps the rest of a signature keeps the frame of a declaration. -/
theorem framed_of_editSignature {d e : Declaration} {edit : Signature → Except EditError Signature}
    (hedit : ∀ s s', edit s = .ok s' → Signature.SameRest s s')
    (h : d.editSignature edit = .ok e) : Framed d e := by
  obtain ⟨s, s', hs, hs', rfl⟩ := editSignature_eq_ok_iff.1 h
  exact .withSignature hs (hedit s s' hs')

end Declaration

end DeclStyle
