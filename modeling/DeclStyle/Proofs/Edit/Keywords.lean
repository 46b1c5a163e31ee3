import DeclStyle.Proofs.Edit.Insertion
import DeclStyle.Proofs.Stretch.Removal
import Mathlib.Data.List.InsertIdx

/-!
# The keywords of an edited declaration

An insertion moves trivia between tokens and changes no word.  Whatever is read off modifiers
without looking at their trivia, such as their kinds, their words or their ranks, is therefore as
before, with one entry more at the place of the new modifier.  A removal takes one entry away, and
the tokens after the modifiers keep their words, the name among them.

* `Token.IgnoresTrivia` — a reading of tokens that does not look at their trivia;
* `Signature.map_modifiers_insert`, `Signature.map_modifiers_removeFirst` — what such a reading
  makes of the modifiers after an insertion and after a removal;
* `Stretch.map_tokens_remove` — what it makes of the tokens of a stretch after a removal;
* `Woven`, `Signature.woven_insertKinds` — what it makes of the modifiers after several insertions;
* `Signature.nameText?_store` — the name after an edit of the front of a signature;
* `Declaration.hasModifier_of_insertKind`, `Declaration.hasModifier_of_insertKinds` — the
  keywords of a declaration after newly made modifiers have been inserted.
-/

namespace DeclStyle

/-- A list in its order with other elements put among its own. -/
structure Woven {α : Type} (added kept all : List α) : Prop where
  sublist : kept.Sublist all
  perm : all.Perm (added ++ kept)

namespace Woven

variable {α : Type} {added added' kept all all' : List α}

theorem refl (l : List α) : Woven [] l l := ⟨.refl l, .refl l⟩

theorem insertIdx {i : Nat} (h : i ≤ kept.length) (a : α) : Woven [a] kept (kept.insertIdx i a) :=
  ⟨List.sublist_insertIdx kept i a, List.perm_insertIdx a kept h⟩

/-- Elements may be put among others one after another. -/
theorem trans (h : Woven added kept all) (h' : Woven added' all all') :
    Woven (added ++ added') kept all' where
  sublist := h.sublist.trans h'.sublist
  perm := calc
    all'.Perm (added' ++ all) := h'.perm
    List.Perm _ (added' ++ (added ++ kept)) := h.perm.append_left added'
    List.Perm _ (added ++ (added' ++ kept)) := List.perm_append_comm_assoc added' added kept
    List.Perm _ (added ++ added' ++ kept) := .of_eq (List.append_assoc added added' kept).symm

/-- What was put among entries that fail a test can be told from them if it passes the test. -/
theorem filter_eq {p : α → Bool} (h : Woven added kept all) (hadded : ∀ a ∈ added, p a)
    (hkept : ∀ a ∈ kept, ¬ p a) : all.filter (!p ·) = kept := by
  have hnone : added.filter (!p ·) = [] := by
    rw [List.filter_eq_nil_iff]
    intro a ha
    simp [hadded a ha]
  have hall : kept.filter (!p ·) = kept := by
    rw [List.filter_eq_self]
    intro a ha
    simp [hkept a ha]
  have hperm := h.perm.filter (!p ·)
  rw [List.filter_append, hnone, List.nil_append, hall] at hperm
  have hsublist := h.sublist.filter (!p ·)
  rw [hall] at hsublist
  exact (hsublist.eq_of_length hperm.length_eq.symm).symm

end Woven

namespace Token

variable {β : Type} {f : Token → β}

/-- A reading of tokens that does not look at their trivia. -/
def IgnoresTrivia (f : Token → β) : Prop :=
  ∀ (t : Token) (leading trailing : TriviaRun),
    f { t with leading := leading, trailing := trailing } = f t

theorem ignoresTrivia_kind : IgnoresTrivia Token.kind := fun _ _ _ => rfl

theorem ignoresTrivia_word : IgnoresTrivia Token.word := fun _ _ _ => rfl

theorem ignoresTrivia_rank : IgnoresTrivia Token.rank := fun _ _ _ => rfl

theorem ignoresTrivia_isAccessibility : IgnoresTrivia Token.isAccessibility := fun _ _ _ => rfl

theorem IgnoresTrivia.strip (hf : IgnoresTrivia f) (t : Token) : f t.strip = f t :=
  hf t [] t.trailing

theorem IgnoresTrivia.behind (hf : IgnoresTrivia f) (run : TriviaRun) (t : Token) :
    f (t.behind run) = f t :=
  hf t (run ++ t.leading) t.trailing

theorem IgnoresTrivia.withInFront (hf : IgnoresTrivia f) (t : Token) (run : TriviaRun) :
    f (t.withInFront run) = f t :=
  hf t (run ++ t.leading.keepCommented) t.trailing

theorem IgnoresTrivia.withBehind (hf : IgnoresTrivia f) (t : Token) (run : TriviaRun) :
    f (t.withBehind run) = f t :=
  hf t t.leading (t.trailing ++ run)

/-- A change of the first token that cannot be read off it cannot be read off the tokens. -/
theorem map_modifyHead {g : Token → Token} (hg : ∀ t, f (g t) = f t) (ts : List Token) :
    (ts.modifyHead g).map f = ts.map f := by
  cases ts with
  | nil => rfl
  | cons t ts => simp [hg]

end Token

namespace Stretch

open Token

variable {β : Type} {f : Token → β}

/-- An insertion adds one entry to what is read off the tokens. -/
theorem map_tokens_insert (hf : IgnoresTrivia f) {s s' : Stretch} {t : Token} {index : Nat}
    (h : s.insert t index = .ok s') : s'.tokens.map f = (s.tokens.map f).insertIdx index (f t) := by
  obtain ⟨before, after, htokens, rfl, rfl⟩ := exists_append_of_insert h
  have hnew : ∀ follower run, f ((t.added follower).behind run) = f t := fun _ _ => hf t _ _
  rw [htokens, List.map_append, List.map_append, List.map_cons, hnew, stripFirst,
    map_modifyHead hf.strip, ← List.length_map (f := f), insertIdx_append_length]

/-- A removal takes one entry away from what is read off the tokens. -/
theorem map_tokens_remove (hf : IgnoresTrivia f) {s s' : Stretch} {index : Nat}
    (h : s.remove index = .ok s') : s'.tokens.map f = (s.tokens.map f).eraseIdx index := by
  have hr := remove_eq_ok_iff.1 h
  cases hr with
  | ontoNext previous t n => rfl
  | ontoPrevious p t => rfl
  | vanish t hleft => rfl
  | ontoFollower previous t n rest next => simp [hf.withInFront]
  | ontoPreceding previous before b t after next =>
    rw [List.eraseIdx_map, List.eraseIdx_append_of_length_le (Nat.le_succ _)]
    simp [hf.withBehind]

/-- An insertion keeps the word of the token after the stretch. -/
theorem next_eq_of_insert {s s' : Stretch} {t : Token} {index : Nat}
    (h : s.insert t index = .ok s') : s'.next.map word = s.next.map word := by
  obtain ⟨before, after, -, -, rfl⟩ := exists_append_of_insert h
  cases after with
  | nil => cases s.next <;> rfl
  | cons f after => rfl

end Stretch

namespace Signature

open Token

variable {β : Type} {f : Token → β}

theorem modifiers_store (s : Signature) (edited : Stretch) :
    (s.store edited).modifiers = edited.tokens := by
  unfold store
  cases edited.next <;> rfl

/-- An edit that keeps the word of the first token after the modifiers keeps those of all. -/
theorem words_tokens_store {s : Signature} {edited : Stretch}
    (h : edited.next.map word = s.next?.map word) :
    (s.store edited).tokens.map word = s.tokens.map word := by
  obtain ⟨modifiers, tokens, name⟩ := s
  obtain ⟨previous, tokens', next⟩ := edited
  cases tokens <;> cases next <;> simp_all [store, setNext, next?]

/-- The text of the name is read off the words after the modifiers. -/
theorem nameText?_eq (s : Signature) :
    s.nameText? = do
      let i ← s.name
      let w ← (s.tokens.map word)[i.toNat]?
      return w.text := by
  unfold nameText?
  cases s.name with
  | none => rfl
  | some i =>
    simp only [Option.bind_eq_bind, Option.bind_some, List.getElem?_map]
    cases s.tokens[i.toNat]? <;> rfl

theorem nameText?_store {s : Signature} {edited : Stretch}
    (h : edited.next.map word = s.next?.map word) :
    (s.store edited).nameText? = s.nameText? := by
  have hname : (s.store edited).name = s.name := by
    unfold store
    cases edited.next <;> rfl
  rw [nameText?_eq, nameText?_eq, words_tokens_store h, hname]

/-- **An insertion adds one entry** to what is read off the modifiers, at the place of the new
one. -/
theorem map_modifiers_insert (hf : IgnoresTrivia f) {s s' : Signature} {t : Token}
    {order : Option (Comparer Token)} (h : s.insert t order = .ok s') :
    s'.modifiers.map f = (s.modifiers.map f).insertIdx (placeOf s.modifiers t order) (f t) := by
  obtain ⟨edited, hedit, rfl⟩ := editStretch_eq_ok_iff.1 h
  rw [modifiers_store]
  exact Stretch.map_tokens_insert hf hedit

/-- A removal at a position takes that entry away from what is read off the modifiers. -/
theorem map_modifiers_removeAt (hf : IgnoresTrivia f) {s s' : Signature} {index : Nat}
    (h : s.removeAt index = .ok s') :
    s'.modifiers.map f = (s.modifiers.eraseIdx index).map f := by
  obtain ⟨edited, hedit, rfl⟩ := editStretch_eq_ok_iff.1 h
  rw [modifiers_store, Stretch.map_tokens_remove hf hedit, List.eraseIdx_map]
  rfl

/-- **A removal of the first modifier that passes a test** takes its entry away from what is read
off the modifiers. -/
theorem map_modifiers_removeFirst (hf : IgnoresTrivia f) {s s' : Signature} {p : Token → Bool}
    (h : s.removeFirst p = .ok s') : s'.modifiers.map f = (s.modifiers.eraseP p).map f := by
  rw [List.eraseP_eq_eraseIdx]
  unfold removeFirst at h
  split at h
  · rename_i index hfind
    rw [hfind, map_modifiers_removeAt hf h]
  · rename_i hfind
    obtain rfl := Except.ok.inj h
    rw [hfind]

/-- The removal of a modifier of a kind takes that kind away from those of the modifiers. -/
theorem kinds_of_removeKind {s s' : Signature} {kind : ModifierKind}
    (h : s.removeKind kind = .ok s') (hkind : s.hasModifier kind) :
    (s.modifiers.map Token.kind).Perm (.modifier kind :: s'.modifiers.map Token.kind) := by
  rw [map_modifiers_removeFirst ignoresTrivia_kind h]
  obtain ⟨t, ht, hfound⟩ := List.any_eq_true.1 hkind
  obtain ⟨t, before, after, -, hp, hmodifiers, herased⟩ :=
    List.exists_of_eraseP (p := (·.isModifier kind)) ht hfound
  have hthis : t.kind = .modifier kind := of_decide_eq_true hp
  rw [herased, hmodifiers, List.map_append, List.map_append, List.map_cons, hthis]
  exact List.perm_middle

theorem woven_insert (hf : IgnoresTrivia f) {s s' : Signature} {t : Token}
    {order : Option (Comparer Token)} (h : s.insert t order = .ok s') :
    Woven [f t] (s.modifiers.map f) (s'.modifiers.map f) := by
  have hplace := placeOf_le_length s.modifiers t order
  rw [map_modifiers_insert hf h]
  exact .insertIdx (by simpa using hplace) (f t)

/-- **Newly made modifiers add their entries** to what is read off the modifiers. -/
theorem woven_insertKinds (hf : IgnoresTrivia f) {s s' : Signature} {kinds : List ModifierKind}
    {order : Option (Comparer ModifierKind)} (h : s.insertKinds kinds order = .ok s') :
    Woven (kinds.map (f ∘ Token.fresh)) (s.modifiers.map f) (s'.modifiers.map f) := by
  induction kinds generalizing s with
  | nil =>
    obtain rfl := Except.ok.inj h
    exact .refl _
  | cons kind kinds ih =>
    obtain ⟨s₁, hfirst, hrest⟩ := bind_eq_ok_iff.1 h
    exact (woven_insert hf hfirst).trans (ih hrest)

/-- Newly made modifiers add their kinds to those of the modifiers. -/
theorem kinds_of_insertKinds {s s' : Signature} {kinds : List ModifierKind}
    {order : Option (Comparer ModifierKind)} (h : s.insertKinds kinds order = .ok s') :
    (s'.modifiers.map Token.kind).Perm (kinds.map .modifier ++ s.modifiers.map Token.kind) :=
  (woven_insertKinds ignoresTrivia_kind h).perm

end Signature

namespace Declaration

open Token

theorem modifiers_eq {d : Declaration} {s : Signature} (h : d.signature? = some s) :
    d.modifiers = s.modifiers := by
  cases d with
  | space hd ms tl => cases h
  | _ => obtain rfl := Option.some.inj h; rfl

theorem modifiers_eq_nil {d : Declaration} (h : d.signature? = none) : d.modifiers = [] := by
  cases d with
  | space hd ms tl => rfl
  | _ => cases h

theorem modifiers_withSignature {d : Declaration} (h : d.signature?.isSome) (s : Signature) :
    (d.withSignature s).modifiers = s.modifiers :=
  modifiers_eq (signature?_withSignature h s)

@[simp] theorem kind_withSignature (d : Declaration) (s : Signature) :
    (d.withSignature s).kind = d.kind := by
  cases d <;> rfl

/-- The name of a declaration that carries modifiers is the one in its signature. -/
theorem name_withSignature {d : Declaration} {s s' : Signature} (h : d.signature? = some s)
    (hname : s'.nameText? = s.nameText?) : (d.withSignature s').name = d.name := by
  cases d with
  | space hd ms tl => cases h
  | _ =>
    obtain rfl := Option.some.inj h
    simp only [withSignature, name, hname]

/-- An edit of the signature keeps the kind of a declaration. -/
theorem kind_of_editSignature {d e : Declaration} {edit : Signature → Except EditError Signature}
    (h : d.editSignature edit = .ok e) : e.kind = d.kind := by
  obtain ⟨s, s', -, -, rfl⟩ := editSignature_eq_ok_iff.1 h
  exact kind_withSignature d s'

/-- Which keywords a declaration carries depends on the kinds of its modifiers. -/
theorem hasModifier_eq (d : Declaration) (k : ModifierKind) :
    d.hasModifier k = (d.modifiers.map Token.kind).any (· == .modifier k) := by
  rw [hasModifier, List.any_map]
  rfl

theorem hasModifier_of_perm {d e : Declaration}
    (h : (e.modifiers.map Token.kind).Perm (d.modifiers.map Token.kind)) (k : ModifierKind) :
    e.hasModifier k = d.hasModifier k := by
  rw [hasModifier_eq, hasModifier_eq, h.any_eq]

/-- The keywords of a declaration after newly made modifiers have been inserted. -/
theorem hasModifier_of_insertKinds {d e : Declaration} {kinds : List ModifierKind}
    {order : Option (Comparer ModifierKind)}
    (h : d.editSignature (·.insertKinds kinds order) = .ok e) (k : ModifierKind) :
    e.hasModifier k = (kinds.contains k || d.hasModifier k) := by
  obtain ⟨s, s', hs, hs', rfl⟩ := editSignature_eq_ok_iff.1 h
  have hkinds := (Signature.kinds_of_insertKinds hs').any_eq (f := (· == TokenKind.modifier k))
  have hnew : (kinds.map TokenKind.modifier).any (· == .modifier k) = kinds.contains k := by
    rw [Bool.eq_iff_iff]
    simp
  rw [hasModifier_eq, hasModifier_eq, modifiers_withSignature (by simp [hs]), modifiers_eq hs,
    hkinds, List.any_append, hnew]

/-- An insertion of one newly made modifier is one of several. -/
theorem insertKinds_of_insertKind {d e : Declaration} {kind : ModifierKind}
    {order : Option (Comparer ModifierKind)} (h : d.insertKind kind order = .ok e) :
    d.editSignature (·.insertKinds [kind] order) = .ok e := by
  obtain ⟨s, s', hs, hs', rfl⟩ := editSignature_eq_ok_iff.1 h
  exact editSignature_eq_ok_iff.2 ⟨s, s', hs, bind_eq_ok_iff.2 ⟨s', hs', rfl⟩, rfl⟩

/-- The keywords of a declaration after a newly made modifier has been inserted. -/
theorem hasModifier_of_insertKind {d e : Declaration} {kind : ModifierKind}
    {order : Option (Comparer ModifierKind)} (h : d.insertKind kind order = .ok e)
    (k : ModifierKind) : e.hasModifier k = (kind == k || d.hasModifier k) := by
  rw [hasModifier_of_insertKinds (insertKinds_of_insertKind h)]
  by_cases hk : kind = k
  · simp [hk]
  · simp [hk, Ne.symm hk]

/-- The accessibility of a declaration, read off its keywords. -/
theorem accessibility?_eq (d : Declaration) :
    d.accessibility? =
      if d.hasModifier .publicKw then some .publicAccess
      else if d.hasModifier .privateKw then
        some (if d.hasModifier .protectedKw then .protectedAndInternal else .privateAccess)
      else if d.hasModifier .protectedKw then
        some (if d.hasModifier .internalKw then .protectedOrInternal else .protectedAccess)
      else if d.hasModifier .internalKw then some .internalAccess
      else none := rfl

/-- A declaration declares an accessibility if one of its keywords does. -/
theorem isSome_accessibility?_iff (d : Declaration) :
    d.accessibility?.isSome ↔ ∃ k : ModifierKind, k.isAccessibility ∧ d.hasModifier k := by
  have hunfold : d.accessibility?.isSome = (d.hasModifier .publicKw || d.hasModifier .privateKw ||
      d.hasModifier .protectedKw || d.hasModifier .internalKw) := by
    rw [accessibility?_eq]
    cases d.hasModifier .publicKw <;> cases d.hasModifier .privateKw <;>
      cases d.hasModifier .protectedKw <;> cases d.hasModifier .internalKw <;> rfl
  rw [hunfold]
  constructor
  · intro h
    simp only [Bool.or_eq_true] at h
    rcases h with ((h | h) | h) | h
    · exact ⟨.publicKw, rfl, h⟩
    · exact ⟨.privateKw, rfl, h⟩
    · exact ⟨.protectedKw, rfl, h⟩
    · exact ⟨.internalKw, rfl, h⟩
  · rintro ⟨k, hk, h⟩
    cases k <;> simp_all [ModifierKind.isAccessibility]

end Declaration

end DeclStyle
