import DeclStyle.Collation
import DeclStyle.Order.StableSort
import DeclStyle.Rank

/-!
# The order of members

Members are ordered by rank, and on request members of equal rank by name.  A caller may also pick
one of a few other orders by name.
-/

namespace DeclStyle

/-- How members of equal rank are ordered. -/
inductive SortMode where
  /-- They keep their order. -/
  | byKind
  /-- They are ordered by name. -/
  | byKindThenByName
  deriving DecidableEq, Repr, Inhabited

namespace SortMode

/-- The name of a sort mode in configuration files. -/
def identifier : SortMode → String
  | byKind => "by_kind"
  | byKindThenByName => "by_kind_then_by_name"

/-- The sort mode of a given name. -/
def ofIdentifier? (s : String) : Option SortMode :=
  [byKind, byKindThenByName].find? (·.identifier == s)

end SortMode

/-- The canonical order of members under a sort mode and a collation. -/
structure MemberOrder where
  sortMode : SortMode
  collation : Collation
  deriving DecidableEq, Repr, Inhabited

namespace MemberOrder

/-- Compares two members. -/
protected def compare (o : MemberOrder) : Comparer Declaration := fun x y =>
  match compare x.rank y.rank, o.sortMode with
  | .eq, .byKindThenByName => o.collation.compare x.name y.name
  | byRank, _ => byRank

/-- Compares members that may be absent. -/
def compareOptional (o : MemberOrder) : Comparer (Option Declaration) := Comparer.optional o.compare

end MemberOrder

/-- The orders of members that a caller can pick by name. -/
inductive MemberOrderChoice where
  | canonical (order : MemberOrder)
  | reversed (order : MemberOrder)
  /-- By name alone. -/
  | name
  /-- Every comparison has the same outcome. -/
  | constant (outcome : Ordering)

/-- The comparer of a chosen order. -/
def MemberOrderChoice.comparer : MemberOrderChoice → Comparer Declaration
  | canonical o => o.compare
  | reversed o => Comparer.swap o.compare
  | name => fun x y => Collation.compareOrdinal x.name y.name
  | constant o => fun _ _ => o

end DeclStyle
