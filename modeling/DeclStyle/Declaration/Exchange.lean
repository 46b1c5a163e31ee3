import DeclStyle.Declaration.Basic
import DeclStyle.Json.Parser
import DeclStyle.Json.Printer

/-!
# The exchange format of declarations

Declarations as JSON values.  Writing gives every field.  Reading is tolerant: fields may come in
any order, those that hold their default may be left out, and fields that the shape does not know
are ignored.  A known field that is given twice is an error, and so is `null` for anything but a
name.  The parts of a declaration, a token or a piece of trivia may also be given by position, as an
array.
-/

namespace DeclStyle

/-! ## Writing -/

/-- A piece of trivia as a JSON value. -/
def Trivia.toJson (t : Trivia) : Json :=
  .obj [("kind", .str t.kind.identifier), ("text", .str t.text)]

/-- A run of trivia as a JSON value. -/
def TriviaRun.toJson (run : TriviaRun) : Json := .arr (run.map Trivia.toJson)

/-- A token kind as a JSON value. -/
def TokenKind.toJson : TokenKind → Json
  | modifier kind => .obj [("modifier", .str kind.identifier)]
  | keyword => .str "keyword"
  | identifier => .str "identifier"
  | punctuation => .str "punctuation"
  | literal => .str "literal"

namespace Token

/-- A token as a JSON value. -/
def toJson (t : Token) : Json :=
  .obj
    [("kind", t.kind.toJson), ("text", .str t.text), ("leading", t.leading.toJson),
      ("trailing", t.trailing.toJson)]

/-- A list of tokens as a JSON value. -/
def listToJson (ts : List Token) : Json := .arr (ts.map toJson)

end Token

/-- The position of a name as a JSON value. -/
def Signature.nameToJson : Option UInt64 → Json
  | some i => .int i.toNat
  | none => .null

namespace Declaration

mutual

/-- A declaration as a JSON value. -/
def toJson : Declaration → Json
  | plain k s =>
    .obj
      [("kind", .str (DeclarationKind.plain k).identifier),
        ("modifiers", Token.listToJson s.modifiers), ("tokens", Token.listToJson s.tokens),
        ("name", Signature.nameToJson s.name)]
  | type k s ms tl =>
    .obj
      [("kind", .str (DeclarationKind.type k).identifier),
        ("modifiers", Token.listToJson s.modifiers), ("head", Token.listToJson s.tokens),
        ("name", Signature.nameToJson s.name), ("members", .arr (listToJson ms)),
        ("tail", Token.listToJson tl)]
  | space hd ms tl =>
    .obj
      [("kind", .str DeclarationKind.space.identifier), ("head", Token.listToJson hd),
        ("members", .arr (listToJson ms)), ("tail", Token.listToJson tl)]

/-- Declarations as JSON values. -/
def listToJson : List Declaration → List Json
  | [] => []
  | d :: ds => toJson d :: listToJson ds

end

end Declaration

/-! ## Reading -/

namespace Exchange

/-- The value of a field, given at most once. -/
def field? (fields : List (String × Json)) (key : String) : Option (Option Json) :=
  match Json.valuesOf key fields with
  | [] => some none
  | [v] => some (some v)
  | _ => none

/-- The parts of a value that are named by the given keys: the fields of those names, or the items
of an array in that order, of which the last may be missing. -/
def parts? (keys : List String) : Json → Option (List (Option Json))
  | .obj fields => keys.mapM (field? fields)
  | .arr items =>
    if items.length ≤ keys.length then
      some (items.map some ++ List.replicate (keys.length - items.length) none)
    else none
  | _ => none

/-- The name of a choice without further content: a string, or an object of one field that holds
nothing. -/
def choice? : Json → Option String
  | .str s => some s
  | .obj [(key, .null)] => some key
  | .obj [(key, .obj [])] => some key
  | _ => none

/-- A list that is empty if it is not given. -/
def listOf? {α : Type} (item : Json → Option α) : Option Json → Option (List α)
  | none => some []
  | some (.arr items) => items.mapM item
  | some _ => none

/-- A list that has to be given. -/
def requiredListOf? {α : Type} (item : Json → Option α) : Option Json → Option (List α)
  | none => none
  | some v => listOf? item (some v)

/-- Reads a piece of trivia. -/
def trivia? (v : Json) : Option Trivia :=
  match parts? ["kind", "text"] v with
  | some [some kind, text] => do
    let kind ← TriviaKind.ofIdentifier? (← choice? kind)
    let text ← (text.getD (.str "")).str?
    return ⟨kind, text⟩
  | _ => none

/-- The token kinds other than modifiers, by name. -/
def plainTokenKind? (s : String) : Option TokenKind :=
  if s == "keyword" then some .keyword
  else if s == "identifier" then some .identifier
  else if s == "punctuation" then some .punctuation
  else if s == "literal" then some .literal
  else none

/-- Reads a modifier kind. -/
def modifierKind? (v : Json) : Option ModifierKind := do
  ModifierKind.ofIdentifier? (← choice? v)

/-- Reads a token kind. -/
def tokenKind? : Json → Option TokenKind
  | .obj [("modifier", v)] => (modifierKind? v).map .modifier
  | v => do plainTokenKind? (← choice? v)

/-- Reads a token. -/
def token? (v : Json) : Option Token :=
  match parts? ["kind", "text", "leading", "trailing"] v with
  | some [some kind, some text, leading, trailing] => do
    let kind ← tokenKind? kind
    let text ← text.str?
    let leading ← listOf? trivia? leading
    let trailing ← listOf? trivia? trailing
    return ⟨kind, text, leading, trailing⟩
  | _ => none

/-- Reads the position of a name. -/
def name? : Option Json → Option (Option UInt64)
  | none => some none
  | some .null => some none
  | some v => do
    let n ← v.nat?
    if n < Nat.pow 2 64 then return some (UInt64.ofNat n) else none

/-- The value that tells the kind of a declaration. -/
def tag? : Json → Option Json
  | .obj fields => (field? fields "kind").join
  | .arr items => items.head?
  | _ => none

/-- Reads the kind of a declaration.  A member may also give the number of its kind. -/
def declarationKind? (isMember : Bool) : Json → Option DeclarationKind
  | .str s => DeclarationKind.ofIdentifier? s
  | .int (.ofNat n) => if isMember then DeclarationKind.ofNumber? n else none
  | _ => none

/-- Reads a declaration of at most the given depth. -/
def declaration? (isMember : Bool) : Nat → Json → Option Declaration
  | 0, _ => none
  | depth + 1, v => do
    match ← declarationKind? isMember (← tag? v) with
    | .plain k =>
      match ← parts? ["kind", "modifiers", "tokens", "name"] v with
      | [_, modifiers, tokens, name] =>
        return .plain k ⟨← listOf? token? modifiers, ← listOf? token? tokens, ← name? name⟩
      | _ => none
    | .type k =>
      match ← parts? ["kind", "modifiers", "head", "name", "members", "tail"] v with
      | [_, modifiers, head, name, members, tail] =>
        return .type k
          ⟨← listOf? token? modifiers, ← requiredListOf? token? head, ← name? name⟩
          (← listOf? (declaration? true depth) members) (← listOf? token? tail)
      | _ => none
    | .space =>
      match ← parts? ["kind", "head", "members", "tail"] v with
      | [_, head, members, tail] =>
        return .space (← requiredListOf? token? head)
          (← listOf? (declaration? true depth) members) (← listOf? token? tail)
      | _ => none

/-- How deeply arrays and objects may be nested in the text of a declaration. -/
def nestingLimit : Nat := 127

end Exchange

namespace Declaration

/-- The declaration that a JSON value describes. -/
def ofJson? (v : Json) : Option Declaration := Exchange.declaration? false (v.depth + 1) v

/-- The declaration that a JSON text describes. -/
def parse? (text : String) : Option Declaration := do
  ofJson? (← Json.parse? Exchange.nestingLimit text)

end Declaration

end DeclStyle
