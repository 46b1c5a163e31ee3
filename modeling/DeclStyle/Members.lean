import DeclStyle.Order.Members
import DeclStyle.Order.Placement

/-!
# Inserting members

A new member goes where its rank puts it among its siblings, or where a given order does.  Members
bring their own indentation and comments, so no trivia moves.
-/

namespace DeclStyle

namespace Members

/-- The position of a new member of the given rank. -/
def placeOfRank (members : List Declaration) (rank : Rank) : Nat :=
  Placement.byRank (members.map Declaration.rank) rank

/-- The position of a new member. -/
def placeOf (members : List Declaration) (d : Declaration) : Nat := placeOfRank members d.rank

/-- The position of a new member of the given kind, a field being taken for one that is not
constant. -/
def placeOfKind (members : List Declaration) (kind : DeclarationKind) : Nat :=
  placeOfRank members kind.rank

/-- The position of a new field. -/
def placeOfField (members : List Declaration) (isConst : Bool) : Nat :=
  placeOfRank members (MemberRank.ofField isConst)

/-- Inserts a member where its rank puts it. -/
def insert (members : List Declaration) (d : Declaration) : List Declaration :=
  members.insertIdx (placeOf members d) d

/-- Inserts a member where a comparer puts it. -/
def insertBy (cmp : Comparer Declaration) (members : List Declaration) (d : Declaration) :
    List Declaration :=
  members.insertIdx (Placement.byComparer cmp members d) d

end Members

namespace Declaration

/-- Inserts a member into a type or a namespace. -/
def insertMember (container : Declaration) (d : Declaration)
    (order : Option (Comparer Declaration)) : Except EditError Declaration :=
  match container.members? with
  | none => .error (.noMembers container.kind)
  | some members =>
    .ok <| container.withMembers <|
      match order with
      | some cmp => Members.insertBy cmp members d
      | none => Members.insert members d

end Declaration

end DeclStyle
