import DeclStyle.Json.Value

/-!
# Writing JSON

The compact written form: no blanks between the parts, and in strings only what has to be escaped
is escaped, by the short form where there is one.
-/

namespace DeclStyle.Json

/-- The characters of a natural number in decimal. -/
def natChars (n : Nat) : List Char := Nat.toDigits 10 n

/-- The characters of a whole number in decimal. -/
def intChars : Int → List Char
  | .ofNat n => natChars n
  | .negSucc n => '-' :: natChars (n + 1)

/-- The hexadecimal digit of a number below sixteen. -/
def hexDigit (n : Nat) : Char :=
  if n < 10 then Char.ofNat (48 + n) else Char.ofNat (87 + n)

/-- A character as it is written inside a string. -/
def escape (c : Char) : List Char :=
  if c = '\x22' then ['\\', '\x22']
  else if c = '\\' then ['\\', '\\']
  else if c = '\x08' then ['\\', 'b']
  else if c = '\t' then ['\\', 't']
  else if c = '\n' then ['\\', 'n']
  else if c = '\x0c' then ['\\', 'f']
  else if c = '\r' then ['\\', 'r']
  else if c.toNat < 0x20 then
    ['\\', 'u', '0', '0', hexDigit (c.toNat / 16), hexDigit (c.toNat % 16)]
  else [c]

/-- A string in quotes. -/
def quoted (s : String) : List Char := '\x22' :: (s.toList.flatMap escape ++ ['\x22'])

mutual

/-- The written form of a value. -/
def write : Json → List Char
  | null => "null".toList
  | bool true => "true".toList
  | bool false => "false".toList
  | int n => intChars n
  | real significand exponent => intChars significand ++ 'e' :: intChars exponent
  | str s => quoted s
  | arr [] => ['[', ']']
  | arr (v :: vs) => '[' :: (write v ++ writeItems vs)
  | obj [] => ['{', '}']
  | obj ((key, v) :: fs) => '{' :: (quoted key ++ ':' :: (write v ++ writeFields fs))

/-- The rest of an array after its first item. -/
def writeItems : List Json → List Char
  | [] => [']']
  | v :: vs => ',' :: (write v ++ writeItems vs)

/-- The rest of an object after its first field. -/
def writeFields : List (String × Json) → List Char
  | [] => ['}']
  | (key, v) :: fs => ',' :: (quoted key ++ ':' :: (write v ++ writeFields fs))

end

/-- The text of a value. -/
def render (v : Json) : String := String.ofList (write v)

end DeclStyle.Json
