import DeclStyle.Accessibility
import DeclStyle.Declaration.Basic
import DeclStyle.Order.Modifiers
import DeclStyle.Order.Placement
import DeclStyle.Stretch

/-!
# Editing modifiers

Edits of the modifier list of a declaration.  Each is stated twice: on a signature, where it acts on
the modifiers and the first token after them, and on a declaration, where it acts on the signature
and is refused where there is none.

Where no order is given, a modifier goes where its rank puts it.
-/

namespace DeclStyle

/-! ## Edits of a signature -/

namespace Signature

/-- The modifiers with the token after them, ready to be edited. -/
def stretch (s : Signature) : Stretch := ⟨none, s.modifiers, s.next?⟩

/-- Takes the result of an edit over. -/
def store (s : Signature) (edited : Stretch) : Signature :=
  match edited.next with
  | some t => { (s.setNext t) with modifiers := edited.tokens }
  | none => { s with modifiers := edited.tokens }

/-- Applies an edit of token stretches to the modifiers. -/
def editStretch (s : Signature) (edit : Stretch → Except EditError Stretch) :
    Except EditError Signature := do
  let edited ← edit s.stretch
  return s.store edited

/-- The position at which a token goes among modifiers. -/
def placeOf (modifiers : List Token) (t : Token) (order : Option (Comparer Token)) : Nat :=
  match order with
  | some cmp => Placement.byComparer cmp modifiers t
  | none => Placement.byRank (modifiers.map Token.rank) t.rank

/-- Inserts a modifier. -/
def insert (s : Signature) (t : Token) (order : Option (Comparer Token)) :
    Except EditError Signature :=
  s.editStretch (·.insert t (placeOf s.modifiers t order))

/-- Inserts a newly made modifier. -/
def insertKind (s : Signature) (kind : ModifierKind) (order : Option (Comparer ModifierKind)) :
    Except EditError Signature :=
  s.insert (.fresh kind) (order.map ModifierOrder.onTokens)

/-- Inserts newly made modifiers one after another. -/
def insertKinds (s : Signature) (kinds : List ModifierKind)
    (order : Option (Comparer ModifierKind)) : Except EditError Signature :=
  match kinds with
  | [] => .ok s
  | kind :: rest => do
    let s' ← s.insertKind kind order
    s'.insertKinds rest order

/-- Inserts the keywords of an accessibility. -/
def insertAccessibility (s : Signature) (a : Accessibility)
    (order : Option (Comparer ModifierKind)) : Except EditError Signature :=
  s.insertKinds a.keywords order

/-- Removes the modifier at a position. -/
def removeAt (s : Signature) (index : Nat) : Except EditError Signature :=
  s.editStretch (·.remove index)

/-- Removes the first modifier that passes a test, if there is one. -/
def removeFirst (s : Signature) (p : Token → Bool) : Except EditError Signature :=
  match s.modifiers.findIdx? p with
  | some index => s.removeAt index
  | none => .ok s

/-- Removes the first modifier that equals a token in every field, if there is one. -/
def remove (s : Signature) (t : Token) : Except EditError Signature := s.removeFirst (· == t)

/-- Removes the first modifier of a kind, if there is one. -/
def removeKind (s : Signature) (kind : ModifierKind) : Except EditError Signature :=
  s.removeFirst (·.isModifier kind)

/-- Removes all modifiers. -/
def removeAll (s : Signature) : Except EditError Signature := s.editStretch Stretch.removeAll

/-- Removes every modifier that passes a test. -/
def removeMatching (s : Signature) (p : Token → Bool) : Except EditError Signature :=
  s.editStretch (Stretch.removeMatching p)

/-- Removes every modifier that declares accessibility. -/
def removeAccessibility (s : Signature) : Except EditError Signature :=
  s.removeMatching Token.isAccessibility

end Signature

/-- Inserts a modifier into a bare list, which has no token after it. -/
def insertIntoModifiers (modifiers : List Token) (t : Token) (order : Option (Comparer Token)) :
    Except EditError (List Token) := do
  let edited ← Stretch.insert ⟨none, modifiers, none⟩ t (Signature.placeOf modifiers t order)
  return edited.tokens

/-! ## Edits of a declaration -/

namespace Declaration

/-- Applies an edit to the signature of a declaration. -/
def editSignature (d : Declaration) (edit : Signature → Except EditError Signature) :
    Except EditError Declaration :=
  match d.signature? with
  | some s => (edit s).map d.withSignature
  | none => .error (.noModifiers d.kind)

/-- An edit of a signature leaves the members alone. -/
theorem members_of_editSignature {d e : Declaration} {edit : Signature → Except EditError Signature}
    (h : d.editSignature edit = .ok e) : e.members = d.members := by
  unfold editSignature at h
  split at h
  · rename_i s _
    cases hs : edit s with
    | error err => simp [hs, Except.map] at h
    | ok s' =>
      simp only [hs, Except.map, Except.ok.injEq] at h
      rw [← h, members_withSignature]
  · cases h

/-- Inserts a modifier. -/
def insert (d : Declaration) (t : Token) (order : Option (Comparer Token)) :
    Except EditError Declaration :=
  d.editSignature (·.insert t order)

/-- Inserts a newly made modifier. -/
def insertKind (d : Declaration) (kind : ModifierKind) (order : Option (Comparer ModifierKind)) :
    Except EditError Declaration :=
  d.editSignature (·.insertKind kind order)

/-- Inserts the keywords of an accessibility. -/
def insertAccessibility (d : Declaration) (a : Accessibility)
    (order : Option (Comparer ModifierKind)) : Except EditError Declaration :=
  d.editSignature (·.insertAccessibility a order)

/-- Removes the first modifier that equals a token in every field, if there is one. -/
def remove (d : Declaration) (t : Token) : Except EditError Declaration :=
  d.editSignature (·.remove t)

/-- Removes the first modifier of a kind, if there is one. -/
def removeKind (d : Declaration) (kind : ModifierKind) : Except EditError Declaration :=
  d.editSignature (·.removeKind kind)

/-- Removes the modifier at a position. -/
def removeAt (d : Declaration) (index : Nat) : Except EditError Declaration :=
  d.editSignature (·.removeAt index)

/-- Removes all modifiers. -/
def removeAll (d : Declaration) : Except EditError Declaration :=
  d.editSignature Signature.removeAll

/-- Removes every modifier that passes a test. -/
def removeMatching (d : Declaration) (p : Token → Bool) : Except EditError Declaration :=
  d.editSignature (·.removeMatching p)

/-- Removes every modifier that declares accessibility. -/
def removeAccessibility (d : Declaration) : Except EditError Declaration :=
  d.editSignature Signature.removeAccessibility

/-- Replaces the modifiers. -/
def setModifiers (d : Declaration) (modifiers : List Token) : Except EditError Declaration :=
  d.editSignature fun s => .ok { s with modifiers := modifiers }

/-- Replaces the first token after the modifiers, if there is one. -/
def setNext (d : Declaration) (t : Token) : Except EditError Declaration :=
  d.editSignature fun s => .ok (s.setNext t)

/-- The accessibility that a declaration declares. -/
def accessibility? (d : Declaration) : Option Accessibility :=
  Accessibility.ofModifiers? d.modifiers

end Declaration

end DeclStyle
