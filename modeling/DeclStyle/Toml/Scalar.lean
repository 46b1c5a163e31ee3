import DeclStyle.DoubleRange
import DeclStyle.Reader
import DeclStyle.Toml.Value

/-!
# Numbers, dates and truth values

The unquoted values of a configuration file, each given as a whole word: truth values, whole numbers
in four bases, numbers with a fraction or an exponent, and dates and times.
-/

namespace DeclStyle.Toml.Scalar

open Reader

/-- The text without underscores, each of which has to stand between two characters other than
underscores.  No text is an error. -/
def withoutUnderscores? : List Char → Option (List Char)
  | [] => none
  | ['_'] => none
  | [c] => some [c]
  | '_' :: _ :: _ => none
  | c :: '_' :: rest => (withoutUnderscores? rest).map (c :: ·)
  | c :: c' :: rest => (withoutUnderscores? (c' :: rest)).map (c :: ·)

/-- Digits of a base, possibly with underscores between them. -/
def digitsOf? (base : Nat) (cs : List Char) : Option (List Nat) := do
  let ds ← (← withoutUnderscores? cs).mapM hexValue?
  if ds.all (· < base) then return ds else none

/-- The number that digits of a base spell. -/
def numberIn (base : Nat) (ds : List Nat) : Nat := ds.foldl (fun n d => base * n + d) 0

/-- A sign and what follows it. -/
def signed : List Char → Bool × List Char
  | '-' :: rest => (true, rest)
  | '+' :: rest => (false, rest)
  | cs => (false, cs)

/-- Decimal digits that do not begin with a superfluous zero. -/
def wholeDigits? (cs : List Char) : Option (List Nat) := do
  match ← digitsOf? 10 cs with
  | 0 :: _ :: _ => none
  | ds => return ds

/-- A whole number of 64 bits. -/
def int? : List Char → Option Int
  | '0' :: 'x' :: rest => based 16 rest
  | '0' :: 'o' :: rest => based 8 rest
  | '0' :: 'b' :: rest => based 2 rest
  | cs => do
    let (negative, rest) := signed cs
    let n := numberOf (← wholeDigits? rest)
    if negative then
      if n ≤ Nat.pow 2 63 then return -(n : Int) else none
    else if n < Nat.pow 2 63 then return n else none
where
  /-- A number without sign in a given base. -/
  based (base : Nat) (cs : List Char) : Option Int := do
    let n := numberIn base (← digitsOf? base cs)
    if n < Nat.pow 2 63 then return n else none

/-- Splits a text at the first character that passes a test. -/
def splitAt? (p : Char → Bool) (cs : List Char) : List Char × Option (List Char) :=
  match cs.dropWhile (!p ·) with
  | [] => (cs, none)
  | _ :: rest => (cs.takeWhile (!p ·), some rest)

/-- The value of an exponent. -/
def exponent? (cs : List Char) : Option Int := do
  let (negative, rest) := signed cs
  let n := numberOf (← digitsOf? 10 rest)
  return if negative then -(n : Int) else n

/-- Whether the text is a number with a fraction or an exponent that is not too large.  A negative
number may be of any size. -/
def isFloat (cs : List Char) : Bool :=
  let (negative, rest) := signed cs
  if rest = "inf".toList ∨ rest = "nan".toList then true
  else
    let (mantissa, exponent) := splitAt? (fun c => c = 'e' || c = 'E') rest
    let (whole, fraction) := splitAt? (· = '.') mantissa
    match wholeDigits? whole, fraction.map (digitsOf? 10), exponent.map exponent? with
    | some ds, some (some fs), none => fits negative (ds ++ fs) (-(fs.length : Int))
    | some ds, none, some (some e) => fits negative ds e
    | some ds, some (some fs), some (some e) => fits negative (ds ++ fs) (e - fs.length)
    | _, _, _ => false
where
  /-- Whether a number is in range. -/
  fits (negative : Bool) (ds : List Nat) (e : Int) : Bool :=
    negative || !DoubleRange.exceedsExact ds e

/-! ## Dates and times -/

/-- A number of two digits between bounds. -/
def twoDigits? (low high : Nat) (a b : Char) : Option Nat :=
  if a.isDigit && b.isDigit then
    let n := 10 * digitValue a + digitValue b
    if low ≤ n ∧ n ≤ high then some n else none
  else none

/-- The number of days of a month. -/
def daysIn (year month : Nat) : Nat :=
  if month = 2 then
    if year % 4 = 0 ∧ (year % 100 ≠ 0 ∨ year % 400 = 0) then 29 else 28
  else if month = 4 ∨ month = 6 ∨ month = 9 ∨ month = 11 then 30
  else 31

/-- The text after a date at its front. -/
def afterDate? : List Char → Option (List Char)
  | y1 :: y2 :: y3 :: y4 :: '-' :: m1 :: m2 :: '-' :: d1 :: d2 :: rest => do
    let century ← twoDigits? 0 99 y1 y2
    let year ← twoDigits? 0 99 y3 y4
    let month ← twoDigits? 1 12 m1 m2
    let _ ← twoDigits? 1 (daysIn (100 * century + year) month) d1 d2
    return rest
  | _ => none

/-- The text after a time of day at its front. -/
def afterTime? : List Char → Option (List Char)
  | h1 :: h2 :: ':' :: m1 :: m2 :: ':' :: s1 :: s2 :: rest => do
    let _ ← twoDigits? 0 23 h1 h2
    let _ ← twoDigits? 0 59 m1 m2
    let _ ← twoDigits? 0 60 s1 s2
    match rest with
    | '.' :: rest' =>
      match digits rest' with
      | ([], _) => none
      | (_, rest'') => return rest''
    | _ => return rest
  | _ => none

/-- Whether the text is nothing or the distance of a local time from universal time. -/
def isOffset : List Char → Bool
  | [] => true
  | ['Z'] | ['z'] => true
  | [s, h1, h2, ':', m1, m2] =>
    (s = '+' || s = '-') && (twoDigits? 0 23 h1 h2).isSome && (twoDigits? 0 59 m1 m2).isSome
  | _ => false

/-- Whether the text is a time of day with or without its distance from universal time. -/
def isTimeWithOffset (cs : List Char) : Bool := (afterTime? cs).any isOffset

/-- Whether the text is a date alone. -/
def isDate (cs : List Char) : Bool := (afterDate? cs).any (·.isEmpty)

/-- Whether the text is a date, a time of day, or both. -/
def isDatetime (cs : List Char) : Bool :=
  (afterTime? cs).any (·.isEmpty) ||
    match afterDate? cs with
    | some [] => true
    | some (t :: rest) => (t = 'T' || t = 't' || t = ' ') && isTimeWithOffset rest
    | none => false

/-- The value of a word. -/
def ofWord? (cs : List Char) : Option Toml :=
  if cs = "true".toList then some (.bool true)
  else if cs = "false".toList then some (.bool false)
  else if isDatetime cs then some (.datetime (String.ofList cs))
  else
    match int? cs with
    | some n => some (.int n)
    | none => if isFloat cs then some (.float (String.ofList cs)) else none

end DeclStyle.Toml.Scalar
