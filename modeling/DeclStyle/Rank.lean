import DeclStyle.Declaration.Basic
import DeclStyle.EditError
import DeclStyle.Log

/-!
# Ranks

The canonical order of members and of modifiers.  A rank fits eight bits; lower ranks come first.
Each table gives its kinds the ranks from zero on, and a kind that it does not list gets the rank
one past its end, so that such kinds come last.

Fields take two places in the table of members: constant fields come first, other fields second.
-/

namespace DeclStyle

/-- A place in a canonical order. -/
abbrev Rank := Fin 256

/-- A kind without a place in the canonical order. -/
inductive UnrankedKind where
  | modifier (kind : ModifierKind)
  | declaration (kind : DeclarationKind)
  deriving DecidableEq, Repr, Inhabited

namespace UnrankedKind

/-- The wording for an unranked kind. -/
def message : UnrankedKind → String
  | modifier kind => "Modifier '" ++ kind.keyword ++ "' has no ordering rank"
  | declaration kind => "Declaration kind '" ++ kind.display ++ "' has no ordering rank"

/-- The warning when an unranked kind is put last all the same. -/
def warning (u : UnrankedKind) : LogEntry := ⟨.warn, u.message ++ "; ordering it last"⟩

end UnrankedKind

/-- The rank of a listed kind; a kind that is not listed is handed back. -/
abbrev Ranking := Except UnrankedKind Rank

namespace Ranking

/-- The rank, or the given one for an unranked kind. -/
def orLast (last : Rank) : Ranking → Rank
  | .ok r => r
  | .error _ => last

/-- The warnings about an unranked kind. -/
def warnings : Ranking → List LogEntry
  | .ok _ => []
  | .error u => [u.warning]

end Ranking

/-- The first position of an element in a list, as a rank. -/
def rankIn? {α : Type} [BEq α] (a : α) (order : List α) : Option Rank :=
  (order.idxOf? a).map (Fin.ofNat 256)

/-! ## Modifiers -/

namespace ModifierRank

/-- The canonical order of modifiers. -/
def order : List ModifierKind :=
  [.newKw, .publicKw, .privateKw, .protectedKw, .internalKw, .constKw, .staticKw, .virtualKw,
    .sealedKw, .overrideKw, .abstractKw, .readonlyKw, .externKw, .unsafeKw, .volatileKw, .asyncKw,
    .partialKw]

/-- The rank of modifiers that the order does not list. -/
def last : Rank := 17

/-- The rank of a modifier in the canonical order. -/
def find (kind : ModifierKind) : Ranking :=
  match rankIn? kind order with
  | some r => .ok r
  | none => .error (.modifier kind)

/-- The modifier of a given rank. -/
def kindAt? (r : Rank) : Option ModifierKind := order[r.val]?

/-- The modifier of a given rank, for callers to whom another rank is a mistake. -/
def kindAt (r : Rank) : Except EditError ModifierKind :=
  match kindAt? r with
  | some kind => .ok kind
  | none => .error (.invalidRank r.val last.val)

end ModifierRank

/-- The rank of a modifier; unranked ones come last. -/
def ModifierKind.rank (kind : ModifierKind) : Rank :=
  (ModifierRank.find kind).orLast ModifierRank.last

/-- The rank of a token in a modifier list; tokens that are no modifiers come last. -/
def Token.rank (t : Token) : Rank :=
  match t.modifierKind? with
  | some kind => kind.rank
  | none => ModifierRank.last

/-! ## Members -/

namespace MemberRank

/-- The canonical order of members.  Its first place is that of constant fields. -/
def order : List DeclarationKind :=
  [.plain .field, .plain .field, .plain .constructor, .plain .destructor, .plain .delegate,
    .plain .event, .plain .eventField, .plain .property, .plain .indexer, .plain .method,
    .plain .conversionOperator, .plain .operator, .plain .enum, .type .interfaceType,
    .type .structType, .type .classType, .space, .plain .incompleteMember]

/-- The rank of members that the order does not list. -/
def last : Rank := 18

/-- The rank of a field, which depends on whether it is constant. -/
def ofField (isConst : Bool) : Rank := if isConst then 0 else 1

/-- The rank of a kind of member in the canonical order, a field being taken for one that is not
constant. -/
def find (kind : DeclarationKind) : Ranking :=
  if kind = .plain .field then .ok (ofField false)
  else
    match rankIn? kind order with
    | some r => .ok r
    | none => .error (.declaration kind)

/-- The kind of member of a given rank. -/
def kindAt? (r : Rank) : Option DeclarationKind := order[r.val]?

/-- The kind of member of a given rank, for callers to whom another rank is a mistake. -/
def kindAt (r : Rank) : Except EditError DeclarationKind :=
  match kindAt? r with
  | some kind => .ok kind
  | none => .error (.invalidRank r.val last.val)

end MemberRank

/-- The rank of a kind of member; unranked ones come last. -/
def DeclarationKind.rank (kind : DeclarationKind) : Rank :=
  (MemberRank.find kind).orLast MemberRank.last

/-- The rank of a declaration as a member. -/
def Declaration.rank (d : Declaration) : Rank :=
  if d.kind = .plain .field then MemberRank.ofField d.isConstField else d.kind.rank

/-- What is listed has a rank within the list. -/
theorem rankIn?_lt {α : Type} [BEq α] [LawfulBEq α] {a : α} {order : List α} {r : Rank}
    (h : rankIn? a order = some r) : r.val < order.length := by
  obtain ⟨i, hi, rfl⟩ := Option.map_eq_some_iff.1 h
  exact Nat.lt_of_le_of_lt (Nat.mod_le i 256) (List.idxOf?_eq_some_iff.1 hi).1

/-- The rank that unlisted modifiers get is one past the end of the list. -/
theorem ModifierRank.length_order : ModifierRank.order.length = ModifierRank.last.val := rfl

/-- So is the rank that unlisted members get. -/
theorem MemberRank.length_order : MemberRank.order.length = MemberRank.last.val := rfl

theorem ModifierKind.rank_le_last (k : ModifierKind) : k.rank ≤ ModifierRank.last := by
  unfold rank ModifierRank.find
  split
  · rename_i r hr
    exact Nat.le_of_lt (ModifierRank.length_order ▸ rankIn?_lt hr)
  · exact Nat.le_refl _

theorem Token.rank_le_last (t : Token) : t.rank ≤ ModifierRank.last := by
  unfold Token.rank
  split
  · exact ModifierKind.rank_le_last _
  · exact Nat.le_refl _

theorem DeclarationKind.rank_le_last (k : DeclarationKind) : k.rank ≤ MemberRank.last := by
  unfold rank MemberRank.find
  split
  · decide
  · split
    · rename_i r hr
      exact Nat.le_of_lt (MemberRank.length_order ▸ rankIn?_lt hr)
    · exact Nat.le_refl _

end DeclStyle
