import DeclStyle.Collation
import DeclStyle.Order.StableSort
import DeclStyle.Rank

/-!
# The order of modifiers

Modifiers are ordered by rank, whether they are given as keywords or as tokens.  A caller may also
pick one of a few other orders by name.
-/

namespace DeclStyle

namespace ModifierOrder

/-- The canonical order of modifier keywords. -/
def compareKinds : Comparer ModifierKind := fun x y => compare x.rank y.rank

/-- The canonical order of modifier tokens. -/
def compareTokens : Comparer Token := fun x y => compare x.rank y.rank

/-- Compares modifier tokens that may be absent. -/
def compareOptional : Comparer (Option Token) := Comparer.optional compareTokens

/-- Carries an order of keywords over to tokens: two modifiers are compared by it, and any other
two tokens by their ranks. -/
def onTokens (cmp : Comparer ModifierKind) : Comparer Token := fun x y =>
  match x.modifierKind?, y.modifierKind? with
  | some a, some b => cmp a b
  | _, _ => compareTokens x y

end ModifierOrder

/-- The orders of modifiers that a caller can pick by name. -/
inductive ModifierOrderChoice where
  | canonical
  | reversed
  /-- By the text, code point by code point. -/
  | text
  /-- By the number of bytes of the text. -/
  | length
  /-- Every comparison has the same outcome. -/
  | constant (outcome : Ordering)

namespace ModifierOrderChoice

/-- The comparer of keywords of a chosen order. -/
def kindComparer : ModifierOrderChoice → Comparer ModifierKind
  | canonical => ModifierOrder.compareKinds
  | reversed => Comparer.swap ModifierOrder.compareKinds
  | text => fun x y => Collation.compareOrdinal x.keyword y.keyword
  | length => fun x y => compare x.keyword.utf8ByteSize y.keyword.utf8ByteSize
  | constant o => fun _ _ => o

/-- The comparer of tokens of a chosen order. -/
def tokenComparer : ModifierOrderChoice → Comparer Token
  | canonical => ModifierOrder.compareTokens
  | reversed => Comparer.swap ModifierOrder.compareTokens
  | text => fun x y => Collation.compareOrdinal x.text y.text
  | length => fun x y => compare x.text.utf8ByteSize y.text.utf8ByteSize
  | constant o => fun _ _ => o

end ModifierOrderChoice

end DeclStyle
