import DeclStyle.DoubleRange
import DeclStyle.Json.Value
import DeclStyle.Reader

/-!
# Reading JSON

A strict reader: one value with blanks around it and nothing else.  Arrays and objects may be nested
to a given depth.  Numbers too large for double precision are refused.  A string may hold no bare
control character, and an escaped surrogate only as half of a pair.
-/

namespace DeclStyle.Json

open Reader

/-- The blanks that may stand between the parts of a value. -/
def isBlank (c : Char) : Bool := c = ' ' || c = '\n' || c = '\t' || c = '\r'

/-- The text without the blanks in front. -/
def skipBlanks (cs : List Char) : List Char := cs.dropWhile isBlank

/-! ## Strings -/

/-- The character of a short escape. -/
def shortEscape? (c : Char) : Option Char :=
  if c = '\x22' ∨ c = '\\' ∨ c = '/' then some c
  else if c = 'b' then some '\x08'
  else if c = 'f' then some '\x0c'
  else if c = 'n' then some '\n'
  else if c = 'r' then some '\r'
  else if c = 't' then some '\t'
  else none

/-- A part of a string: a character, or a code given by four hexadecimal digits. -/
inductive StringPart where
  | char (c : Char)
  | code (n : Nat)

/-- Reads the parts of a string up to the closing quote. -/
def stringParts : Reader (List StringPart)
  | [] => none
  | '\x22' :: rest => some ([], rest)
  | '\\' :: 'u' :: a :: b :: c :: d :: rest =>
    match hexCode? [a, b, c, d], stringParts rest with
    | some n, some (parts, rest') => some (.code n :: parts, rest')
    | _, _ => none
  | '\\' :: e :: rest =>
    match shortEscape? e, stringParts rest with
    | some c, some (parts, rest') => some (.char c :: parts, rest')
    | _, _ => none
  | c :: rest =>
    if c.toNat < 0x20 ∨ c = '\\' then none
    else
      match stringParts rest with
      | some (parts, rest') => some (.char c :: parts, rest')
      | none => none

/-- Puts the parts of a string together.  A code in the range of leading surrogates has to be
followed by one in the range of trailing surrogates. -/
def joinParts : List StringPart → Option (List Char)
  | [] => some []
  | .char c :: rest => (joinParts rest).map (c :: ·)
  | .code n :: rest =>
    if n < 0xD800 ∨ 0xDFFF < n then (joinParts rest).map (Char.ofNat n :: ·)
    else
      match rest with
      | .code m :: rest' =>
        if n < 0xDC00 ∧ 0xDC00 ≤ m ∧ m ≤ 0xDFFF then
          (joinParts rest').map (Char.ofNat (0x10000 + (n - 0xD800) * 0x400 + (m - 0xDC00)) :: ·)
        else none
      | _ => none

/-- Reads a string after its opening quote. -/
def readString : Reader String := fun cs =>
  match stringParts cs with
  | some (parts, rest) => (joinParts parts).map fun chars => (String.ofList chars, rest)
  | none => none

/-! ## Numbers -/

/-- The digits before the point: one zero, or digits that do not begin with zero. -/
def wholePart : Reader (List Nat)
  | '0' :: rest => some ([0], rest)
  | cs => match digits cs with
    | ([], _) => none
    | found => some found

/-- The digits behind the point; absent if there is no point. -/
def fraction? : Reader (Option (List Nat))
  | '.' :: rest =>
    match digits rest with
    | ([], _) => none
    | (ds, rest') => some (some ds, rest')
  | cs => some (none, cs)

/-- The sign of an exponent, if it has one. -/
def exponentSign : List Char → Bool × List Char
  | '-' :: rest => (true, rest)
  | '+' :: rest => (false, rest)
  | cs => (false, cs)

/-- The exponent; absent if there is none. -/
def exponent? : Reader (Option Int)
  | c :: rest =>
    if c = 'e' ∨ c = 'E' then
      let (negative, rest') := exponentSign rest
      match digits rest' with
      | ([], _) => none
      | (ds, rest'') =>
        some (some (if negative then -(numberOf ds : Int) else (numberOf ds : Int)), rest'')
    else some (none, c :: rest)
  | [] => some (none, [])

/-- Takes digits into a significand of at most 64 bits, as many as it can hold: the significand and
the number of digits left over. -/
def significand : Nat → List Nat → Nat × Nat
  | n, [] => (n, 0)
  | n, d :: ds =>
    if 10 * n + d < Nat.pow 2 64 then significand (10 * n + d) ds else (n, ds.length + 1)

/-- The significand and the power of ten of a number with the given digits.  Digits before the
point that find no place count for the power of ten; those behind it are dropped. -/
def scaled (whole fraction : List Nat) (exponent : Int) : Nat × Int :=
  let (n, left) := significand 0 whole
  let (m, unused) := significand n fraction
  (m, left - (fraction.length - unused : Int) + exponent)

/-- The value of a number.  Whole numbers of at most 64 bits stay whole, but for minus zero. -/
def numberValue (negative : Bool) (whole : List Nat) (fraction : Option (List Nat))
    (exponent : Option Int) : Option Json :=
  let n := numberOf whole
  if fraction.isNone ∧ exponent.isNone ∧
      (if negative then 0 < n ∧ n ≤ Nat.pow 2 63 else n < Nat.pow 2 64) then
    some (.int (if negative then -(n : Int) else n))
  else
    let (m, e) := scaled whole (fraction.getD []) (exponent.getD 0)
    if DoubleRange.exceedsScaled m e then none
    else some (.real (if negative then -(m : Int) else m) e)

/-- Reads a number after its sign. -/
def readUnsigned (negative : Bool) : Reader Json := fun cs =>
  match wholePart cs with
  | none => none
  | some (whole, cs) =>
    match fraction? cs with
    | none => none
    | some (fraction, cs) =>
      match exponent? cs with
      | none => none
      | some (exponent, cs) => (numberValue negative whole fraction exponent).map (·, cs)

/-- Reads a number. -/
def readNumber : Reader Json
  | '-' :: rest => readUnsigned true rest
  | cs => readUnsigned false cs

/-! ## Values -/

/-- Reads a value that is neither an array nor an object. -/
def readScalar : Reader Json
  | 'n' :: 'u' :: 'l' :: 'l' :: rest => some (.null, rest)
  | 't' :: 'r' :: 'u' :: 'e' :: rest => some (.bool true, rest)
  | 'f' :: 'a' :: 'l' :: 's' :: 'e' :: rest => some (.bool false, rest)
  | '\x22' :: rest => (readString rest).map fun (s, rest') => (.str s, rest')
  | cs => readNumber cs

/-- Reads items parted by commas up to a closing mark.  Every item takes a character, so a bound
on their number is the length of the text. -/
def readItems {α : Type} (item : Reader α) (close : Char) : Nat → Reader (List α)
  | 0, _ => none
  | bound + 1, cs =>
    match item cs with
    | none => none
    | some (a, rest) =>
      match skipBlanks rest with
      | [] => none
      | c :: rest' =>
        if c = ',' then (readItems item close bound rest').map fun (as, end_) => (a :: as, end_)
        else if c = close then some ([a], rest')
        else none

/-- Reads a possibly empty sequence after its opening mark. -/
def readSequence {α : Type} (item : Reader α) (close : Char) : Reader (List α) := fun cs =>
  match skipBlanks cs with
  | [] => none
  | c :: rest =>
    if c = close then some ([], rest) else readItems item close (rest.length + 1) (c :: rest)

/-- Reads a field of an object. -/
def readField (value : Reader Json) : Reader (String × Json) := fun cs =>
  match skipBlanks cs with
  | '\x22' :: rest =>
    match readString rest with
    | none => none
    | some (key, rest') =>
      match skipBlanks rest' with
      | ':' :: rest'' => (value rest'').map fun (v, end_) => ((key, v), end_)
      | _ => none
  | _ => none

/-- Reads a value with blanks in front, arrays and objects nested at most to the given depth. -/
def readValue : Nat → Reader Json
  | 0, cs => readScalar (skipBlanks cs)
  | depth + 1, cs =>
    match skipBlanks cs with
    | '[' :: rest => (readSequence (readValue depth) ']' rest).map fun (vs, end_) => (.arr vs, end_)
    | '{' :: rest =>
      (readSequence (readField (readValue depth)) '}' rest).map fun (fs, end_) => (.obj fs, end_)
    | cs' => readScalar cs'

/-- The value of a whole text. -/
def parse? (depth : Nat) (text : String) : Option Json :=
  match readValue depth text.toList with
  | some (v, rest) => if (skipBlanks rest).isEmpty then some v else none
  | none => none

end DeclStyle.Json
