import DeclStyle.Proofs.Edit.Failure
import DeclStyle.Proofs.Edit.Frame
import DeclStyle.Proofs.Edit.Turns

/-!
# Edits of declarations and of signatures

An edit of modifiers may be asked for on a declaration of any kind or on the signature inside.  The
two have the same outcome, errors included, and a declaration loses nothing on the way: around its
modifiers nothing changes but the trivia in front of the first token after them, and of the
modifiers themselves those that are not removed keep their words and their order.

* `ModifierEdit.kept`, `ModifierEdit.added` — the modifiers that an edit leaves, and those that it
  makes;
* `ModifierEdit.words_woven` — the modifiers in the end are the ones and the others;
* `ModifierEdit.sameRest` — every edit leaves the rest of a signature alone;
* `Declaration.modifier_edits_framed` — both for declarations, by way of their signatures.
-/

namespace DeclStyle

open Token

variable {s s' : Signature}

/-! ## Removals -/

namespace ModifierRemoval

/-- The modifiers that a removal leaves, one by a test judging each when its turn comes. -/
def kept : ModifierRemoval → List Token → List Token
  | matching p, modifiers => leftInTurn p modifiers
  | r, modifiers => r.left modifiers

/-- A removal leaves no word that has not been there, and keeps their order. -/
theorem words_kept_sublist (r : ModifierRemoval) (modifiers : List Token) :
    ((r.kept modifiers).map word).Sublist (modifiers.map word) := by
  cases r with
  | position index => exact (List.eraseIdx_sublist modifiers index).map word
  | token t => exact List.eraseP_sublist.map word
  | kind k => exact List.eraseP_sublist.map word
  | all => exact List.nil_sublist _
  | matching p =>
    rw [← words_inTurn p modifiers]
    exact List.filter_sublist.map word
  | accessibility => exact List.filter_sublist.map word

theorem words_of_onSignature_inTurn {r : ModifierRemoval} (h : r.onSignature s = .ok s') :
    s'.modifiers.map word = (r.kept s.modifiers).map word := by
  cases r with
  | position index => exact Signature.map_modifiers_removeAt ignoresTrivia_word h
  | matching p => exact Signature.words_of_removeMatching_inTurn h
  | _ => exact words_of_onSignature (by exact trivial) h

theorem sameRest {r : ModifierRemoval} (h : r.onSignature s = .ok s') : s.SameRest s' := by
  cases r with
  | position index => exact Signature.sameRest_of_removeAt h
  | token t => exact Signature.sameRest_of_removeFirst h
  | kind k => exact Signature.sameRest_of_removeFirst h
  | all => exact Signature.sameRest_of_removeAll h
  | matching p => exact Signature.sameRest_of_removeMatching h
  | accessibility => exact Signature.sameRest_of_removeMatching h

end ModifierRemoval

/-! ## All edits -/

namespace ModifierEdit

/-- The modifiers that an edit leaves. -/
def kept : ModifierEdit → List Token → List Token
  | removal r, modifiers => r.kept modifiers
  | _, modifiers => modifiers

/-- The modifiers that an edit puts among those that it leaves. -/
def added : ModifierEdit → List Token
  | insert t _ => [t]
  | insertKind k _ => [.fresh k]
  | insertAccessibility a _ => a.keywords.map .fresh
  | removal _ => []

theorem words_kept_sublist (edit : ModifierEdit) (modifiers : List Token) :
    ((edit.kept modifiers).map word).Sublist (modifiers.map word) := by
  cases edit with
  | removal r => exact r.words_kept_sublist modifiers
  | _ => exact .refl _

/-- **The modifiers after an edit** are those that it leaves, in their order, and among them those
that it puts there. -/
theorem words_woven {edit : ModifierEdit} (h : edit.onSignature s = .ok s') :
    Woven (edit.added.map word) ((edit.kept s.modifiers).map word) (s'.modifiers.map word) := by
  cases edit with
  | insert t order => exact Signature.woven_insert ignoresTrivia_word h
  | insertKind k order => exact Signature.woven_insert ignoresTrivia_word h
  | insertAccessibility a order =>
    rw [added, List.map_map]
    exact Signature.woven_insertKinds ignoresTrivia_word h
  | removal r =>
    rw [ModifierRemoval.words_of_onSignature_inTurn h]
    exact .refl _

/-- **An edit leaves the rest of a signature alone.** -/
theorem sameRest {edit : ModifierEdit} (h : edit.onSignature s = .ok s') : s.SameRest s' := by
  cases edit with
  | insert t order => exact Signature.sameRest_of_insert h
  | insertKind k order => exact Signature.sameRest_of_insert h
  | insertAccessibility a order => exact Signature.sameRest_of_insertKinds h
  | removal r => exact ModifierRemoval.sameRest h

end ModifierEdit

namespace Declaration

/-- **Edits of modifiers, on declarations and on signatures.**  A declaration that is no namespace
has a signature, and an edit of its modifiers has the outcome of the same edit of the signature, put
back into the declaration.  Where the edit succeeds, the declaration keeps its kind, its name and
the position of it, its members and what is behind them, and all tokens after its modifiers, but for
the trivia in front of the first of them.  Its modifiers are the ones that the edit leaves, with
their words and in their order, and among them those that the edit puts there. -/
theorem modifier_edits_framed {d : Declaration} (h : d.kind ≠ .space) (edit : ModifierEdit) :
    ∃ s, d.signature? = some s ∧ edit.apply d = (edit.onSignature s).map d.withSignature ∧
      ∀ e, edit.apply d = .ok e →
        Framed d e ∧ e.members = d.members ∧
        ((edit.kept d.modifiers).map word).Sublist (d.modifiers.map word) ∧
        Woven (edit.added.map word) ((edit.kept d.modifiers).map word) (e.modifiers.map word) := by
  obtain ⟨s, hs⟩ := Option.ne_none_iff_exists'.1 fun hnone => h (signature?_eq_none_iff.1 hnone)
  refine ⟨s, hs, ?_, fun e he => ?_⟩
  · rw [edit.apply_eq, editSignature, hs]
  · rw [edit.apply_eq] at he
    refine ⟨framed_of_editSignature (fun _ _ => ModifierEdit.sameRest) he,
      members_of_editSignature he, edit.words_kept_sublist d.modifiers, ?_⟩
    obtain ⟨s₀, s', hs₀, hs', rfl⟩ := editSignature_eq_ok_iff.1 he
    rw [modifiers_withSignature (by simp [hs₀]), modifiers_eq hs₀]
    exact ModifierEdit.words_woven hs'

/-- A documented static field, the first token after its modifier being its name. -/
def documentedField : Declaration :=
  .plain .field
    ⟨[⟨.modifier .staticKw, "static", [⟨.documentationComment, "/// a"⟩, .lineFeed], [.space]⟩],
      [.bare .identifier "count", .bare .punctuation ";"], some 0⟩

/-- Without `static` the documentation stands in front of the name, and two accessibility keywords
go in front of `static`.  Either way the field is the same but for that. -/
theorem modifier_edits_framed_documentedField :
    documentedField.kind ≠ .space ∧
    (∃ e, documentedField.removeKind .staticKw = .ok e ∧ Framed documentedField e ∧
      e.modifiers.map word = []) ∧
    ∃ e, documentedField.insertAccessibility .protectedOrInternal none = .ok e ∧
      Framed documentedField e ∧
      Woven [.word (.modifier .protectedKw) "protected", .word (.modifier .internalKw) "internal"]
        [.word (.modifier .staticKw) "static"] (e.modifiers.map word) := by
  have hkind : documentedField.kind ≠ .space := by decide
  refine ⟨hkind, ?_, ?_⟩
  · obtain ⟨-, -, -, hframe⟩ :=
      modifier_edits_framed hkind (.removal (.kind .staticKw))
    obtain ⟨hframed, -, -, hwoven⟩ := hframe _ rfl
    exact ⟨_, rfl, hframed, List.perm_nil.1 hwoven.perm⟩
  · obtain ⟨-, -, -, hframe⟩ :=
      modifier_edits_framed hkind (.insertAccessibility .protectedOrInternal none)
    obtain ⟨hframed, -, -, hwoven⟩ := hframe _ rfl
    exact ⟨_, rfl, hframed, hwoven⟩

end Declaration

end DeclStyle
