import DeclStyle.Proofs.Edit.Frame
import DeclStyle.Proofs.Edit.Together
import DeclStyle.Proofs.Order.Unsorted

/-!
# Insertions under any order

An insertion needs neither a list in order nor an order that obeys any law.  The place that it is
given lies within the list, whatever the list and whatever the order, so that nothing is refused for
its position; and all that was there stays in its order, with the new element among it.  A list of
modifiers is the same in front of the new one and behind it, but for the trivia in front of the
token that follows.

* `Token.AddedAt`, `Signature.ModifierAdded` — a modifier has come in at a place, and nothing else
  has changed;
* `Signature.exists_modifierAdded` — so it is after every insertion of a modifier;
* `Signature.exists_kindsAdded` — and after several, one after another;
* `Declaration.Takes`, `Declaration.TakesMember` — what such insertions make of a declaration, or
  why it refuses them;
* `Placement.placed_by_rank`, `Placement.placed_by_any_comparer` — the places by rank and by any
  comparer, in any list, and what is inserted there.
-/

namespace DeclStyle

open Token

/-! ## Modifiers -/

/-- A list of tokens is another one with a token put in at a place.  The token that follows may have
lost the trivia in front of it. -/
def Token.AddedAt (place : Nat) (t : Token) (ts ts' : List Token) : Prop :=
  ∃ before new after, ts = before ++ after ∧ before.length = place ∧
    ts' = before ++ new :: stripFirst after ∧ new.word = t.word

theorem Stretch.addedAt_of_insert {s s' : Stretch} {t : Token} {index : Nat}
    (h : s.insert t index = .ok s') : AddedAt index t s.tokens s'.tokens := by
  obtain ⟨before, after, htokens, hlength, rfl⟩ := exists_append_of_insert h
  exact ⟨before, _, after, htokens, hlength, rfl, rfl⟩

/-- So it is after an insertion into a bare list. -/
theorem exists_addedAt_insertIntoModifiers (modifiers : List Token) (t : Token)
    (order : Option (Comparer Token)) :
    ∃ modifiers', insertIntoModifiers modifiers t order = .ok modifiers' ∧
      AddedAt (Signature.placeOf modifiers t order) t modifiers modifiers' := by
  have hplace := Signature.placeOf_le_length modifiers t order
  obtain ⟨edited, hedit, -⟩ := Stretch.insert_eq_ok ⟨none, modifiers, none⟩ t hplace
  exact ⟨edited.tokens, bind_eq_ok_iff.2 ⟨edited, hedit, rfl⟩, Stretch.addedAt_of_insert hedit⟩

namespace Signature

/-- A signature is another one with a modifier put in at a place. -/
structure ModifierAdded (place : Nat) (t : Token) (s s' : Signature) : Prop where
  modifiers : AddedAt place t s.modifiers s'.modifiers
  rest : SameRest s s'

/-- **A modifier comes in** at the place that its order gives it. -/
theorem exists_modifierAdded (s : Signature) (t : Token) (order : Option (Comparer Token)) :
    ∃ s', s.insert t order = .ok s' ∧ ModifierAdded (placeOf s.modifiers t order) t s s' := by
  obtain ⟨s', hs', -⟩ := s.insert_eq_ok t order
  obtain ⟨edited, hedit, hstore⟩ := editStretch_eq_ok_iff.1 hs'
  refine ⟨s', hs', ?_, sameRest_of_insert hs'⟩
  rw [hstore, modifiers_store]
  exact Stretch.addedAt_of_insert hedit

/-- A signature is another one with newly made modifiers put in one after another, each at the place
that a comparer gives it then. -/
inductive KindsAdded (cmp : Comparer ModifierKind) :
    List ModifierKind → Signature → Signature → Prop where
  | nil (s : Signature) : KindsAdded cmp [] s s
  | cons {kind : ModifierKind} {kinds : List ModifierKind} {s s₁ s' : Signature} :
      ModifierAdded (Placement.byComparer (ModifierOrder.onTokens cmp) s.modifiers (.fresh kind))
        (.fresh kind) s s₁ →
      KindsAdded cmp kinds s₁ s' → KindsAdded cmp (kind :: kinds) s s'

/-- **Newly made modifiers come in** one after another. -/
theorem exists_kindsAdded (cmp : Comparer ModifierKind) (kinds : List ModifierKind)
    (s : Signature) : ∃ s', s.insertKinds kinds (some cmp) = .ok s' ∧ KindsAdded cmp kinds s s' := by
  induction kinds generalizing s with
  | nil => exact ⟨s, rfl, .nil s⟩
  | cons kind kinds ih =>
    obtain ⟨s₁, hfirst, hadded⟩ :=
      s.exists_modifierAdded (.fresh kind) (some (ModifierOrder.onTokens cmp))
    obtain ⟨s', hrest, hothers⟩ := ih s₁
    exact ⟨s', bind_eq_ok_iff.2 ⟨s₁, hfirst, hrest⟩, .cons hadded hothers⟩

end Signature

/-! ## Declarations -/

namespace Declaration

/-- The outcome of an edit of modifiers that no signature refuses: a declaration without a signature
refuses it for that reason, and any other one takes it. -/
inductive Takes (d : Declaration) (R : Signature → Signature → Prop) :
    Except EditError Declaration → Prop where
  | refused : d.signature? = none → Takes d R (.error (.noModifiers d.kind))
  | edited {s s' : Signature} : d.signature? = some s → R s s' → Takes d R (.ok (d.withSignature s'))

theorem takes_editSignature {R : Signature → Signature → Prop}
    {edit : Signature → Except EditError Signature} (hedit : ∀ s, ∃ s', edit s = .ok s' ∧ R s s')
    (d : Declaration) : Takes d R (d.editSignature edit) := by
  unfold editSignature
  split
  · rename_i s hs
    obtain ⟨s', hs', hR⟩ := hedit s
    rw [hs']
    exact .edited hs hR
  · rename_i hs
    exact .refused hs

/-- The outcome of the insertion of a member under an order: a declaration that has no members
refuses it for that reason, and any other one gets it at the place that the order gives it. -/
inductive TakesMember (d : Declaration) (cmp : Comparer Declaration) (m : Declaration) :
    Except EditError Declaration → Prop where
  | refused : d.members? = none → TakesMember d cmp m (.error (.noMembers d.kind))
  | inserted {members members' : List Declaration} : d.members? = some members →
      InsertedAt (Placement.byComparer cmp members m) [m] members members' →
      TakesMember d cmp m (.ok (d.withMembers members'))

theorem takesMember_insertMember (d : Declaration) (cmp : Comparer Declaration) (m : Declaration) :
    TakesMember d cmp m (d.insertMember m (some cmp)) := by
  unfold insertMember
  split
  · rename_i hmembers
    exact .refused hmembers
  · rename_i members hmembers
    exact .inserted hmembers (.insertIdx (Placement.byComparer_le_length cmp members m) m)

end Declaration

/-! ## Places and insertions -/

namespace Placement

open Signature

/-- **The place by rank in any list** is one past the last position of the greatest rank up to the
target, and zero if there is none.  The search for it tries the ranks from the target down to zero,
counted in eight bits, and no count wraps around.  What is inserted there is added to the list, and
nothing else happens to it; so members are inserted by rank, and modifiers. -/
theorem placed_by_rank :
    (∀ (α : Type) (rank : α → Rank) (l : List α) (target : Rank),
      (∀ place, byRank (l.map rank) target = place ↔ RankedPlace rank target l place) ∧
      byRank (l.map rank) target ≤ l.length ∧
      (∀ a, InsertedAt (byRank (l.map rank) target) [a] l
        (l.insertIdx (byRank (l.map rank) target) a)) ∧
      closest? (l.map rank) target.val =
        (ranksTried target).findSome? fun r => lastIdx? (· == r) (l.map rank)) ∧
    (∀ target, (ranksTried target).map Fin.val = (List.range (target.val + 1)).reverse) ∧
    (∀ (members : List Declaration) (d : Declaration),
      RankedPlace Declaration.rank d.rank members (Members.placeOf members d) ∧
      InsertedAt (Members.placeOf members d) [d] members (Members.insert members d)) ∧
    ∀ (s : Signature) (t : Token), ∃ s' place, s.insert t none = .ok s' ∧
      RankedPlace Token.rank t.rank s.modifiers place ∧ ModifierAdded place t s s' := by
  refine ⟨?lists, map_val_ranksTried, ?members, ?modifiers⟩
  case lists =>
    intro α rank l target
    have hplace := byRank_map_le_length rank l target
    refine ⟨fun place => byRank_eq_iff, hplace, ?_, closest?_eq_findSome? _ target⟩
    intro a
    exact .insertIdx hplace a
  case members =>
    intro members d
    exact ⟨rankedPlace_byRank Declaration.rank d.rank members,
      .insertIdx (byRank_map_le_length Declaration.rank members d.rank) d⟩
  case modifiers =>
    intro s t
    obtain ⟨s', hs', hadded⟩ := s.exists_modifierAdded t none
    exact ⟨s', _, hs', rankedPlace_byRank Token.rank t.rank s.modifiers, hadded⟩

/-- **The place by any comparer in any list** is one past the last element that equals the new one;
if there is none, that of the first greater element; and if there is none of these, the end.  The
comparer need not obey any law.  What is inserted there is added to the list, and nothing else
happens to it; so members are inserted by a comparer, and modifiers, be it one modifier or the
keywords of an accessibility, and be it into a bare list, a signature or a declaration. -/
theorem placed_by_any_comparer :
    (∀ (α : Type) (cmp : Comparer α) (l : List α) (a : α),
      (∀ place, byComparer cmp l a = place ↔ ComparedPlace cmp l a place) ∧
      byComparer cmp l a ≤ l.length ∧
      InsertedAt (byComparer cmp l a) [a] l (l.insertIdx (byComparer cmp l a) a)) ∧
    (∀ (cmp : Comparer Declaration) (m : Declaration),
      (∀ members, InsertedAt (byComparer cmp members m) [m] members
        (Members.insertBy cmp members m)) ∧
      ∀ d : Declaration, d.TakesMember cmp m (d.insertMember m (some cmp))) ∧
    (∀ (cmp : Comparer Token) (t : Token),
      (∀ modifiers, ∃ modifiers', insertIntoModifiers modifiers t (some cmp) = .ok modifiers' ∧
        AddedAt (byComparer cmp modifiers t) t modifiers modifiers') ∧
      (∀ s : Signature, ∃ s', s.insert t (some cmp) = .ok s' ∧
        ModifierAdded (byComparer cmp s.modifiers t) t s s') ∧
      ∀ d : Declaration, d.Takes (fun s => ModifierAdded (byComparer cmp s.modifiers t) t s)
        (d.insert t (some cmp))) ∧
    ∀ cmp : Comparer ModifierKind,
      (∀ (kind : ModifierKind) (s : Signature), ∃ s', s.insertKind kind (some cmp) = .ok s' ∧
        KindsAdded cmp [kind] s s') ∧
      (∀ (kind : ModifierKind) (d : Declaration),
        d.Takes (KindsAdded cmp [kind]) (d.insertKind kind (some cmp))) ∧
      (∀ (a : Accessibility) (s : Signature), ∃ s', s.insertAccessibility a (some cmp) = .ok s' ∧
        KindsAdded cmp a.keywords s s') ∧
      ∀ (a : Accessibility) (d : Declaration),
        d.Takes (KindsAdded cmp a.keywords) (d.insertAccessibility a (some cmp)) := by
  refine ⟨?lists, ?members, ?modifiers, ?kinds⟩
  case lists =>
    intro α cmp l a
    have hplace := byComparer_le_length cmp l a
    exact ⟨fun place => byComparer_eq_iff, hplace, .insertIdx hplace a⟩
  case members =>
    intro cmp m
    refine ⟨fun members => .insertIdx (byComparer_le_length cmp members m) m, fun d => ?_⟩
    exact d.takesMember_insertMember cmp m
  case modifiers =>
    intro cmp t
    have hsignature : ∀ s : Signature, ∃ s', s.insert t (some cmp) = .ok s' ∧
        ModifierAdded (byComparer cmp s.modifiers t) t s s' :=
      fun s => s.exists_modifierAdded t (some cmp)
    refine ⟨fun modifiers => ?_, hsignature, Declaration.takes_editSignature hsignature⟩
    exact exists_addedAt_insertIntoModifiers modifiers t (some cmp)
  case kinds =>
    intro cmp
    have hkind : ∀ (kind : ModifierKind) (s : Signature),
        ∃ s', s.insertKind kind (some cmp) = .ok s' ∧ KindsAdded cmp [kind] s s' := by
      intro kind s
      obtain ⟨s', hs', hadded⟩ :=
        s.exists_modifierAdded (.fresh kind) (some (ModifierOrder.onTokens cmp))
      exact ⟨s', hs', .cons hadded (.nil s')⟩
    have hkeywords : ∀ (a : Accessibility) (s : Signature),
        ∃ s', s.insertAccessibility a (some cmp) = .ok s' ∧ KindsAdded cmp a.keywords s s' :=
      fun a => exists_kindsAdded cmp a.keywords
    exact ⟨hkind, fun kind => Declaration.takes_editSignature (hkind kind), hkeywords,
      fun a => Declaration.takes_editSignature (hkeywords a)⟩

end Placement

end DeclStyle
