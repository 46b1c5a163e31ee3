import DeclStyle.Letter

/-!
# Collation of names

Two ways to order names.  The ordinal order compares code points.  The invariant order first
compares the names letter by letter in lowercase; names that differ in case alone are then ordered
letter by letter with the lowercase letter first, code points settling what is left.

Both are stated for any lowercase mapping and any notion of an uppercase letter; the names of
declarations use those of `DeclStyle.Letter`.
-/

namespace DeclStyle

/-- The ways to order names. -/
inductive Collation where
  | invariant
  | ordinal
  deriving DecidableEq, Repr, Inhabited

namespace Collation

/-- The name of a collation in configuration files. -/
def identifier : Collation → String
  | invariant => "invariant"
  | ordinal => "ordinal"

/-- The collation of a given name. -/
def ofIdentifier? (s : String) : Option Collation :=
  [invariant, ordinal].find? (·.identifier == s)

/-- The order of texts by code point. -/
def compareOrdinal (x y : String) : Ordering := List.compareLex compare x.toList y.toList

/-- The order of letters that differ in case: lowercase first, then by code point. -/
def compareCase (isUpper : Char → Bool) (a b : Char) : Ordering :=
  (compare (isUpper a) (isUpper b)).then (compare a b)

/-- The order of texts by their lowercase forms, then by case. -/
def compareFolded (lower : Char → List Char) (isUpper : Char → Bool) (x y : List Char) : Ordering :=
  (List.compareLex compare (x.flatMap lower) (y.flatMap lower)).then
    (List.compareLex (compareCase isUpper) x y)

/-- The order of names under a collation, for a given lowercase mapping. -/
def compareWith (lower : Char → List Char) (isUpper : Char → Bool) (c : Collation)
    (x y : String) : Ordering :=
  match c with
  | ordinal => compareOrdinal x y
  | invariant => compareFolded lower isUpper x.toList y.toList

/-- The order of names under a collation. -/
protected def compare : Collation → String → String → Ordering :=
  compareWith Letter.lowercase Letter.isUppercase

end Collation

end DeclStyle
