import DeclStyle.Declaration.Kind
import DeclStyle.Token

/-!
# Reasons why an edit fails

An edit of a declaration fails for one of five causes.  The wording of each is in one place,
`EditError.message`.
-/

namespace DeclStyle

/-- Why an edit of a declaration or of a list of tokens is refused. -/
inductive EditError where
  /-- A position outside a sequence of the given length. -/
  | indexOutOfBounds (index length : Nat)
  /-- A declaration that carries no modifiers. -/
  | noModifiers (kind : DeclarationKind)
  /-- A declaration that owns no members. -/
  | noMembers (kind : DeclarationKind)
  /-- The comments of a removed token have no neighbour to go to. -/
  | noAnchorToken (kind : TokenKind)
  /-- A rank that no kind of a table has. -/
  | invalidRank (rank max : Nat)
  deriving DecidableEq, Repr, Inhabited

namespace EditError

/-- The wording of an error. -/
def message : EditError → String
  | indexOutOfBounds index length =>
    "Index " ++ toString index ++ " out of bounds for sequence of length " ++ toString length
  | noModifiers kind => "A " ++ kind.display ++ " declaration does not carry modifiers"
  | noMembers kind => "A " ++ kind.display ++ " declaration does not own members"
  | noAnchorToken kind =>
    "No neighboring token to take the trivia of removed " ++ kind.label ++ " token"
  | invalidRank rank max =>
    "Rank " ++ toString rank ++ " is outside the table (max " ++ toString max ++ ")"

end EditError

end DeclStyle
