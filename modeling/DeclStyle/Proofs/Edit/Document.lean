import DeclStyle.Edit
import DeclStyle.Proofs.Pieces

/-!
# The document of an edited declaration

An edit of modifiers works on a stretch: the modifiers with the first token after them.  The tokens
of a declaration are those of its stretch, the other tokens of its signature, and the tokens of its
members and its tail; an edit changes the first of the three and keeps the rest.

* `Signature.allTokens_store` — the tokens of a signature after an edit of its stretch;
* `Declaration.tokens_eq` — the tokens of a declaration are those of its opening and of its body;
* `Declaration.editSignature_eq_ok_iff` — an edit succeeds where there is a signature that can be
  edited.
-/

namespace DeclStyle

/-! ## Outcomes -/

section Outcomes

variable {α β : Type}

theorem bind_eq_ok_iff {x : Except EditError α} {f : α → Except EditError β} {b : β} :
    x >>= f = .ok b ↔ ∃ a, x = .ok a ∧ f a = .ok b := by
  cases x <;> simp [bind, Except.bind]

theorem map_eq_ok_iff {x : Except EditError α} {f : α → β} {b : β} :
    x.map f = .ok b ↔ ∃ a, x = .ok a ∧ f a = b := by
  cases x <;> simp [Except.map]

theorem bind_eq_error_iff {x : Except EditError α} {f : α → Except EditError β} {e : EditError} :
    x >>= f = .error e ↔ x = .error e ∨ ∃ a, x = .ok a ∧ f a = .error e := by
  cases x <;> simp [bind, Except.bind]

theorem map_eq_error_iff {x : Except EditError α} {f : α → β} {e : EditError} :
    x.map f = .error e ↔ x = .error e := by
  cases x <;> simp [Except.map]

end Outcomes

/-! ## Signatures -/

namespace Signature

/-- The modifiers and the token after them are the front of a signature. -/
theorem allTokens_eq_stretch (s : Signature) :
    s.allTokens = s.stretch.allTokens ++ s.tokens.tail := by
  obtain ⟨modifiers, tokens, name⟩ := s
  cases tokens <;> simp [allTokens, stretch, Stretch.allTokens, next?]

/-- An edit of the front of a signature keeps the tokens behind it. -/
theorem allTokens_store {s : Signature} {edited : Stretch} (hprevious : edited.previous = none)
    (hnext : edited.next.isSome = s.next?.isSome) :
    (s.store edited).allTokens = edited.allTokens ++ s.tokens.tail := by
  obtain ⟨modifiers, tokens, name⟩ := s
  obtain ⟨previous, tokens', next⟩ := edited
  obtain rfl : previous = none := hprevious
  cases tokens <;> cases next <;>
    simp_all [allTokens, store, setNext, Stretch.allTokens, next?]

/-- The front of a signature after an edit of it. -/
theorem stretch_store {s : Signature} {edited : Stretch} (hprevious : edited.previous = none)
    (hnext : edited.next.isSome = s.next?.isSome) : (s.store edited).stretch = edited := by
  obtain ⟨modifiers, tokens, name⟩ := s
  obtain ⟨previous, tokens', next⟩ := edited
  obtain rfl : previous = none := hprevious
  cases tokens <;> cases next <;> simp_all [store, setNext, stretch, next?]

/-- An edit of the front of a signature keeps what follows the first token after the modifiers. -/
theorem tail_tokens_store (s : Signature) (edited : Stretch) :
    (s.store edited).tokens.tail = s.tokens.tail := by
  obtain ⟨modifiers, tokens, name⟩ := s
  unfold store
  cases edited.next <;> cases tokens <;> rfl

theorem editStretch_eq_ok_iff {s s' : Signature} {edit : Stretch → Except EditError Stretch} :
    s.editStretch edit = .ok s' ↔ ∃ edited, edit s.stretch = .ok edited ∧ s' = s.store edited := by
  rw [editStretch, bind_eq_ok_iff]
  constructor
  · rintro ⟨edited, h, hs⟩
    exact ⟨edited, h, (Except.ok.inj hs).symm⟩
  · rintro ⟨edited, h, rfl⟩
    exact ⟨edited, h, rfl⟩

end Signature

/-! ## Declarations -/

namespace Declaration

/-- The tokens of a declaration in front of its members. -/
def opening : Declaration → List Token
  | plain _ s => s.allTokens
  | type _ s _ _ => s.allTokens
  | space hd _ _ => hd

/-- The tokens of the members of a declaration and the tokens after them. -/
def body (d : Declaration) : List Token := tokensOfAll d.members ++ d.tail

/-- A declaration is its opening and its body. -/
theorem tokens_eq (d : Declaration) : d.tokens = d.opening ++ d.body := by
  cases d <;> simp [tokens, opening, body, members, members?, tail, tokensOfAll]

theorem opening_eq_allTokens {d : Declaration} {s : Signature} (h : d.signature? = some s) :
    d.opening = s.allTokens := by
  cases d with
  | space hd ms tl => cases h
  | _ => obtain rfl := Option.some.inj h; rfl

theorem signature?_withSignature {d : Declaration} (h : d.signature?.isSome) (s : Signature) :
    (d.withSignature s).signature? = some s := by
  cases d with
  | space hd ms tl => cases h
  | _ => rfl

theorem withSignature_self {d : Declaration} {s : Signature} (h : d.signature? = some s) :
    d.withSignature s = d := by
  cases d with
  | space hd ms tl => cases h
  | _ => obtain rfl := Option.some.inj h; rfl

@[simp] theorem withSignature_withSignature (d : Declaration) (s s' : Signature) :
    (d.withSignature s).withSignature s' = d.withSignature s' := by
  cases d <;> rfl

@[simp] theorem body_withSignature (d : Declaration) (s : Signature) :
    (d.withSignature s).body = d.body := by
  cases d <;> rfl

/-- Another signature changes the opening of a declaration and nothing else. -/
theorem tokens_withSignature {d : Declaration} (h : d.signature?.isSome) (s : Signature) :
    (d.withSignature s).tokens = s.allTokens ++ d.body := by
  rw [tokens_eq, opening_eq_allTokens (signature?_withSignature h s), body_withSignature]

theorem editSignature_eq_ok_iff {d e : Declaration}
    {edit : Signature → Except EditError Signature} :
    d.editSignature edit = .ok e ↔
      ∃ s s', d.signature? = some s ∧ edit s = .ok s' ∧ e = d.withSignature s' := by
  cases hs : d.signature? with
  | none => simp [editSignature, hs]
  | some s =>
    simp only [editSignature, hs, map_eq_ok_iff]
    constructor
    · rintro ⟨s', hs', rfl⟩
      exact ⟨s, s', rfl, hs', rfl⟩
    · rintro ⟨_, s', h, hs', rfl⟩
      obtain rfl := Option.some.inj h
      exact ⟨s', hs', rfl⟩

end Declaration

end DeclStyle
