/-!
# TOML values

The values of a configuration file.  Numbers with a fraction or an exponent and dates are kept as
they are written, since no setting takes one.
-/

namespace DeclStyle

/-- A value of a configuration file. -/
inductive Toml where
  | str (s : String)
  | int (n : Int)
  | float (text : String)
  | bool (b : Bool)
  | datetime (text : String)
  | arr (items : List Toml)
  | table (entries : List (String × Toml))
  deriving Inhabited

namespace Toml

/-- The text of a string value. -/
def str? : Toml → Option String
  | str s => some s
  | _ => none

/-- The items of an array. -/
def arr? : Toml → Option (List Toml)
  | arr items => some items
  | _ => none

end Toml

end DeclStyle
