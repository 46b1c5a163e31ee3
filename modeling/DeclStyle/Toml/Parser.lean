import DeclStyle.Toml.Scalar
import DeclStyle.Toml.Table

/-!
# Reading TOML

Reads the text of a configuration file: statements on lines of their own, with blanks and comments
between them.  Arrays and inline tables may be nested to a given depth, and a dotted key has a
greatest number of parts.
-/

namespace DeclStyle.Toml

open Reader

/-! ## Blanks and comments -/

/-- A blank within a line. -/
def isBlank (c : Char) : Bool := c = ' ' || c = '\t'

/-- A character that may stand in a comment. -/
def isCommentChar (c : Char) : Bool :=
  c = '\t' || (0x20 ≤ c.toNat && c.toNat ≠ 0x7F)

/-- The text without the blanks in front. -/
def skipBlanks (cs : List Char) : List Char := cs.dropWhile isBlank

/-- The text after the end of a line. -/
def afterNewline? : List Char → Option (List Char)
  | '\n' :: rest => some rest
  | '\r' :: '\n' :: rest => some rest
  | _ => none

/-- The text without the blanks, line ends and comments in front. -/
def skipLines (inComment : Bool) : List Char → List Char
  | [] => []
  | '\n' :: rest => skipLines false rest
  | '\r' :: '\n' :: rest => skipLines false rest
  | c :: rest =>
    if inComment then if isCommentChar c then skipLines true rest else c :: rest
    else if isBlank c then skipLines false rest
    else if c = '#' then skipLines true rest
    else c :: rest

/-- The text after the rest of a line that holds at most blanks and a comment. -/
def afterLine? (cs : List Char) : Option (List Char) :=
  let rest :=
    match skipBlanks cs with
    | '#' :: comment => comment.dropWhile isCommentChar
    | cs' => cs'
  if rest.isEmpty then some [] else afterNewline? rest

/-! ## Strings -/

/-- A character that may stand in a quoted string as it is. -/
def isStringChar (c : Char) : Bool := isCommentChar c

/-- The character of a code, unless it is a surrogate or too large. -/
def charOf? (n : Nat) : Option Char := if n.isValidChar then some (Char.ofNat n) else none

/-- The character of an escape after its backslash. -/
def readEscape : Reader Char
  | 'b' :: rest => some ('\x08', rest)
  | 't' :: rest => some ('\t', rest)
  | 'n' :: rest => some ('\n', rest)
  | 'f' :: rest => some ('\x0c', rest)
  | 'r' :: rest => some ('\r', rest)
  | '\x22' :: rest => some ('\x22', rest)
  | '\\' :: rest => some ('\\', rest)
  | 'u' :: rest => code 4 rest
  | 'U' :: rest => code 8 rest
  | _ => none
where
  /-- The character of a code of the given number of hexadecimal digits. -/
  code (count : Nat) (cs : List Char) : Option (Char × List Char) := do
    if (cs.take count).length < count then none
    let c ← charOf? (← hexCode? (cs.take count))
    return (c, cs.drop count)

/-- Reads a string on one line after its opening double quote. -/
def readBasic : Nat → Reader (List Char)
  | 0, _ => none
  | bound + 1, cs =>
    match cs with
    | [] => none
    | c :: rest =>
      if c = '\x22' then some ([], rest)
      else if c = '\\' then do
        let (e, rest') ← readEscape rest
        let (s, end_) ← readBasic bound rest'
        return (e :: s, end_)
      else if isStringChar c then do
        let (s, end_) ← readBasic bound rest
        return (c :: s, end_)
      else none

/-- Reads a string on one line without escapes after its opening single quote. -/
def readLiteral : Reader (List Char)
  | [] => none
  | c :: rest =>
    if c = '\x27' then some ([], rest)
    else if isStringChar c then (readLiteral rest).map fun (s, end_) => (c :: s, end_)
    else none

/-- The text after the first line end of a string of several lines. -/
def skipFirstNewline (cs : List Char) : List Char := (afterNewline? cs).getD cs

/-- At three or more quotes a string of several lines ends; up to two more belong to it.  The
quotes that belong to it, and the rest. -/
def closing? (quote : Char) (cs : List Char) : Option (List Char × List Char) :=
  let count := (cs.takeWhile (· = quote)).length
  if count < 3 then none
  else
    let kept := min (count - 3) 2
    some (List.replicate kept quote, cs.drop (kept + 3))

/-- The text after blanks and line ends. -/
def skipToText : List Char → List Char
  | '\r' :: '\n' :: rest => skipToText rest
  | c :: rest => if isBlank c || c = '\n' then skipToText rest else c :: rest
  | [] => []

/-- Reads a string of several lines.  With escapes, a backslash at the end of a line joins it to the
text that follows. -/
def readLong (quote : Char) (escapes : Bool) : Nat → Reader (List Char)
  | 0, _ => none
  | bound + 1, cs =>
    match closing? quote cs with
    | some found => some found
    | none =>
      match cs with
      | [] => none
      | c :: rest =>
        if escapes && c = '\\' then
          match afterNewline? (skipBlanks rest) with
          | some rest' => readLong quote escapes bound (skipToText rest')
          | none => do
            let (e, rest') ← readEscape rest
            let (s, end_) ← readLong quote escapes bound rest'
            return (e :: s, end_)
        else
          match afterNewline? cs with
          | some rest' =>
            (readLong quote escapes bound rest').map fun (s, end_) => ('\n' :: s, end_)
          | none =>
            if isStringChar c then
              (readLong quote escapes bound rest).map fun (s, end_) => (c :: s, end_)
            else none

/-- Reads a string. -/
def readString : Reader String := fun cs =>
  (match cs with
    | '\x22' :: '\x22' :: '\x22' :: rest =>
      readLong '\x22' true (rest.length + 1) (skipFirstNewline rest)
    | '\x27' :: '\x27' :: '\x27' :: rest =>
      readLong '\x27' false (rest.length + 1) (skipFirstNewline rest)
    | '\x22' :: rest => readBasic (rest.length + 1) rest
    | '\x27' :: rest => readLiteral rest
    | _ => none).map fun (s, rest) => (String.ofList s, rest)

/-! ## Keys -/

/-- A character of a key without quotes. -/
def isBareKeyChar (c : Char) : Bool := c.isAlphanum || c = '_' || c = '-'

/-- Reads one part of a key. -/
def readSimpleKey : Reader String
  | '\x22' :: rest =>
    (readBasic (rest.length + 1) rest).map fun (s, end_) => (String.ofList s, end_)
  | '\x27' :: rest => (readLiteral rest).map fun (s, end_) => (String.ofList s, end_)
  | cs =>
    match cs.takeWhile isBareKeyChar with
    | [] => none
    | key => some (String.ofList key, cs.dropWhile isBareKeyChar)

/-- Reads the parts of a key, with the blanks around them. -/
def readKeyParts : Nat → Reader (List String)
  | 0, _ => none
  | bound + 1, cs => do
    let (key, rest) ← readSimpleKey (skipBlanks cs)
    match skipBlanks rest with
    | '.' :: rest' => do
      let (keys, end_) ← readKeyParts bound rest'
      return (key :: keys, end_)
    | rest' => return ([key], rest')

/-- A key has fewer parts than this, and arrays and inline tables are nested less deeply. -/
def depthLimit : Nat := 80

/-- Reads a key. -/
def readKey : Reader (List String) := fun cs =>
  match readKeyParts (cs.length + 1) cs with
  | some (keys, rest) => if keys.length < depthLimit then some (keys, rest) else none
  | none => none

/-! ## Values -/

/-- A character of an unquoted value. -/
def isWordChar (c : Char) : Bool :=
  c.isAlphanum || c = '_' || c = '-' || c = '+' || c = '.' || c = ':'

/-- Reads an unquoted value.  A date may be followed by a space and a time. -/
def readWord : Reader Toml := fun cs =>
  let word := cs.takeWhile isWordChar
  let rest := cs.dropWhile isWordChar
  match Scalar.isDate word, rest with
  | true, ' ' :: c :: rest' =>
    if c.isDigit then
      let time := (c :: rest').takeWhile isWordChar
      (Scalar.ofWord? (word ++ ' ' :: time)).map (·, (c :: rest').dropWhile isWordChar)
    else (Scalar.ofWord? word).map (·, rest)
  | _, _ => (Scalar.ofWord? word).map (·, rest)

/-- Reads the items of an array.  After the last one may come a comma. -/
def readItems (value : Reader Toml) : Nat → Reader (List Toml)
  | 0, _ => none
  | bound + 1, cs =>
    match skipLines false cs with
    | ']' :: rest => some ([], rest)
    | cs' => do
      let (v, rest) ← value cs'
      match skipLines false rest with
      | ']' :: rest' => return ([v], rest')
      | ',' :: rest' => do
        let (vs, end_) ← readItems value bound rest'
        return (v :: vs, end_)
      | _ => none

/-- Reads the keys and values of an inline table. -/
def readPairs (value : Reader Toml) : Nat → Reader (List (List String × Toml))
  | 0, _ => none
  | bound + 1, cs => do
    let (key, rest) ← readKey cs
    match rest with
    | '=' :: rest' => do
      let (v, rest'') ← value (skipBlanks rest')
      match skipBlanks rest'' with
      | '}' :: end_ => return ([(key, v)], end_)
      | ',' :: more => do
        let (pairs, end_) ← readPairs value bound more
        return ((key, v) :: pairs, end_)
      | _ => none
    | _ => none

/-- Reads a value, arrays and inline tables nested less deeply than the given depth. -/
def readValue : Nat → Reader Toml
  | 0, _ => none
  | depth + 1, cs =>
    match cs with
    | '[' :: rest =>
      if depth = 0 then none
      else
        (readItems (readValue depth) (rest.length + 1) rest).map fun (vs, end_) => (.arr vs, end_)
    | '{' :: rest =>
      if depth = 0 then none
      else
        match skipBlanks rest with
        | '}' :: end_ => some (.table [], end_)
        | rest' => do
          let (pairs, end_) ← readPairs (readValue depth) (rest'.length + 1) rest'
          let entries ← Entries.ofPairs? pairs
          return (.table entries, end_)
    | '\x22' :: _ => (readString cs).map fun (s, end_) => (.str s, end_)
    | '\x27' :: _ => (readString cs).map fun (s, end_) => (.str s, end_)
    | _ => readWord cs

/-! ## Statements -/

/-- Reads a header after its opening bracket. -/
def readHeader (make : List String → String → Statement) : Reader Statement := fun cs =>
  match readKey cs with
  | some (keys, ']' :: rest) => keys.getLast?.map fun key => (make keys.dropLast key, rest)
  | _ => none

/-- Reads a statement, with the bracket that closes a header of an element. -/
def readStatement : Reader Statement
  | '[' :: '[' :: rest =>
    match readHeader .elementHeader rest with
    | some (s, ']' :: rest') => some (s, rest')
    | _ => none
  | '[' :: rest => readHeader .header rest
  | cs => do
    let (key, rest) ← readKey cs
    match rest with
    | '=' :: rest' => do
      let (v, end_) ← readValue depthLimit (skipBlanks rest')
      return (.assign key v, end_)
    | _ => none

/-- Reads the statements of a file, of which it has at most the given number. -/
def readStatements : Nat → List Char → Option (List Statement)
  | 0, _ => none
  | bound + 1, cs =>
    match skipLines false cs with
    | [] => some []
    | cs' => do
      let (s, rest) ← readStatement cs'
      let rest' ← afterLine? rest
      let more ← readStatements bound rest'
      return s :: more

/-- The text without a byte order mark in front. -/
def skipMark : List Char → List Char
  | c :: rest => if c.toNat = 0xFEFF then rest else c :: rest
  | [] => []

/-- The table that a text describes. -/
def parse? (text : String) : Option (List (String × Toml)) :=
  let cs := skipMark text.toList
  (readStatements (cs.length + 1) cs).bind Document.ofStatements?

end DeclStyle.Toml
