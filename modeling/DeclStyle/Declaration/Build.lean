import DeclStyle.Declaration.Basic

/-!
# Building declarations

Declarations in the conventional layout: one space between tokens, and each member on a line of its
own, indented by four spaces.
-/

namespace DeclStyle.Declaration.Build

/-- The token with a space behind it. -/
def spaced (t : Token) : Token := { t with trailing := .space }

/-- The token on a new line. -/
def onNewLine (t : Token) : Token := { t with leading := [.lineFeed] }

/-- A keyword. -/
def keyword (text : String) : Token := .bare .keyword text

/-- An identifier. -/
def identifier (text : String) : Token := .bare .identifier text

/-- A punctuation mark. -/
def mark (text : String) : Token := .bare .punctuation text

/-- Modifiers as they stand in source text, each followed by a space. -/
def modifiers (kinds : List ModifierKind) : List Token :=
  kinds.map fun kind => spaced (.bare (.modifier kind) kind.keyword)

/-- A plain declaration of the given tokens. -/
def simple (kind : PlainKind) (kinds : List ModifierKind) (tokens : List Token)
    (name : Option UInt64) : Declaration :=
  .plain kind ⟨modifiers kinds, tokens, name⟩

/-- The opening brace. -/
def openBrace : Token := mark "\x7b"

/-- The closing brace. -/
def closeBrace : Token := mark "\x7d"

/-- An empty body in braces. -/
def emptyBody : List Token := [spaced openBrace, closeBrace]

/-- An empty parameter list. -/
def parameters : List Token := [mark "(", spaced (mark ")")]

/-- A field. -/
def field (kinds : List ModifierKind) (type name : String) : Declaration :=
  simple .field kinds [spaced (identifier type), identifier name, mark ";"] (some 1)

/-- An event field. -/
def eventField (kinds : List ModifierKind) (type name : String) : Declaration :=
  simple .eventField kinds
    [spaced (keyword "event"), spaced (identifier type), identifier name, mark ";"] (some 2)

/-- An event with an empty body. -/
def event (kinds : List ModifierKind) (type name : String) : Declaration :=
  simple .event kinds
    ([spaced (keyword "event"), spaced (identifier type), spaced (identifier name)] ++ emptyBody)
    (some 2)

/-- A constructor without parameters. -/
def constructor (kinds : List ModifierKind) (name : String) : Declaration :=
  simple .constructor kinds (identifier name :: parameters ++ emptyBody) (some 0)

/-- A destructor. -/
def destructor (name : String) : Declaration :=
  simple .destructor [] ([mark "~", identifier name] ++ parameters ++ emptyBody) (some 1)

/-- A delegate without parameters. -/
def delegate (kinds : List ModifierKind) (returnType name : String) : Declaration :=
  simple .delegate kinds
    [spaced (keyword "delegate"), spaced (identifier returnType), identifier name, mark "(",
      mark ")", mark ";"]
    (some 2)

/-- A property with a reading accessor. -/
def property (kinds : List ModifierKind) (type name : String) : Declaration :=
  simple .property kinds
    [spaced (identifier type), spaced (identifier name), spaced openBrace, keyword "get",
      spaced (mark ";"), closeBrace]
    (some 1)

/-- An indexer with an empty body. -/
def indexer (kinds : List ModifierKind) (type : String) : Declaration :=
  simple .indexer kinds
    ([spaced (identifier type), keyword "this", mark "[", spaced (mark "]")] ++ emptyBody) none

/-- A method without parameters. -/
def method (kinds : List ModifierKind) (returnType name : String) : Declaration :=
  simple .method kinds
    ([spaced (identifier returnType), identifier name] ++ parameters ++ emptyBody) (some 1)

/-- An implicit conversion operator. -/
def conversionOperator (kinds : List ModifierKind) (type : String) : Declaration :=
  simple .conversionOperator kinds
    ([spaced (keyword "implicit"), spaced (keyword "operator"), identifier type] ++ parameters
      ++ emptyBody)
    none

/-- An operator. -/
def operator (kinds : List ModifierKind) (returnType symbol : String) : Declaration :=
  simple .operator kinds
    ([spaced (identifier returnType), spaced (keyword "operator"), mark symbol] ++ parameters
      ++ emptyBody)
    none

/-- An enumeration without values. -/
def enumeration (kinds : List ModifierKind) (name : String) : Declaration :=
  simple .enum kinds ([spaced (keyword "enum"), spaced (identifier name)] ++ emptyBody) (some 1)

/-- A member of modifiers only. -/
def incompleteMember (kinds : List ModifierKind) : Declaration :=
  simple .incompleteMember kinds [] none

/-- An accessor without a body. -/
def accessor (kinds : List ModifierKind) (word : String) : Declaration :=
  simple .accessor kinds [keyword word, mark ";"] none

/-- A parameter. -/
def parameter (kinds : List ModifierKind) (type name : String) : Declaration :=
  simple .parameter kinds [spaced (identifier type), identifier name] (some 1)

/-- The trivia that put a member on an indented line of its own. -/
def indentation : TriviaRun := [.lineFeed, ⟨.whitespace, "    "⟩]

/-- The token with the indentation of a member in front of its own trivia. -/
def indentToken (t : Token) : Token := { t with leading := indentation ++ t.leading }

/-- The signature with its first token on an indented line of its own. -/
def indentSignature (s : Signature) : Signature :=
  match s.modifiers with
  | [] => { s with tokens := s.tokens.modifyHead indentToken }
  | t :: ts => { s with modifiers := indentToken t :: ts }

/-- The declaration with its own first token on an indented line of its own. -/
def indented : Declaration → Declaration
  | .plain k s => .plain k (indentSignature s)
  | .type k s ms tl => .type k (indentSignature s) ms tl
  | .space hd ms tl => .space (hd.modifyHead indentToken) ms tl

/-- A type with each member on a line of its own. -/
def typeOf (kind : TypeKind) (kinds : List ModifierKind) (name : String)
    (members : List Declaration) : Declaration :=
  .type kind
    ⟨modifiers kinds,
      [spaced (keyword (DeclarationKind.type kind).display), identifier name,
        onNewLine openBrace],
      some 1⟩
    (members.map indented) [onNewLine closeBrace]

/-- A namespace with each member on a line of its own. -/
def space (name : String) (members : List Declaration) : Declaration :=
  .space [spaced (keyword "namespace"), identifier name, onNewLine openBrace]
    (members.map indented) [onNewLine closeBrace]

end DeclStyle.Declaration.Build
