import DeclStyle.Modifier
import DeclStyle.Trivia

/-!
# Tokens

A token is a word of source text with the trivia on both sides of it.  A modifier token names its
keyword in its kind; the text is what is printed and need not agree with the kind.  The document
text of a token list is the text of its tokens, trivia included, one after another.
-/

namespace DeclStyle

/-- The sorts of tokens that editing tells apart. -/
inductive TokenKind where
  | modifier (kind : ModifierKind)
  | keyword
  | identifier
  | punctuation
  | literal
  deriving DecidableEq, Repr, Inhabited

namespace TokenKind

/-- The label of a token kind in messages. -/
def label : TokenKind → String
  | modifier kind => "Modifier(" ++ kind.label ++ ")"
  | keyword => "Keyword"
  | identifier => "Identifier"
  | punctuation => "Punctuation"
  | literal => "Literal"

end TokenKind

/-- A word of source text with the trivia in front of it and behind it. -/
structure Token where
  kind : TokenKind
  text : String
  leading : TriviaRun
  trailing : TriviaRun
  deriving DecidableEq, Repr, Inhabited

namespace Token

/-- A token without trivia. -/
def bare (kind : TokenKind) (text : String) : Token := ⟨kind, text, [], []⟩

/-- A newly made modifier: its keyword, with the spacing left open on both sides. -/
def fresh (kind : ModifierKind) : Token :=
  ⟨.modifier kind, kind.keyword, .elastic, .elastic⟩

/-- The modifier keyword of a modifier token. -/
def modifierKind? (t : Token) : Option ModifierKind :=
  match t.kind with
  | .modifier kind => some kind
  | _ => none

/-- Whether the token is the given modifier. -/
def isModifier (t : Token) (kind : ModifierKind) : Bool := t.kind == .modifier kind

/-- Whether the token is a modifier that declares accessibility. -/
def isAccessibility (t : Token) : Bool :=
  match t.modifierKind? with
  | some kind => kind.isAccessibility
  | none => false

/-- The texts of the comments at a token, those in front of it first. -/
def comments (t : Token) : List String := t.leading.comments ++ t.trailing.comments

/-- The document text of a token. -/
def render (t : Token) : String := t.leading.render ++ t.text ++ t.trailing.render

/-- The document text of a list of tokens. -/
def renderAll (ts : List Token) : String := String.join (ts.map render)

/-- The texts of the comments of a list of tokens, in document order. -/
def commentsOfAll (ts : List Token) : List String := ts.flatMap comments

@[simp] theorem renderAll_nil : renderAll [] = "" := rfl

@[simp] theorem renderAll_cons (t : Token) (ts : List Token) :
    renderAll (t :: ts) = t.render ++ renderAll ts := by
  simp [renderAll]

@[simp] theorem renderAll_append (xs ys : List Token) :
    renderAll (xs ++ ys) = renderAll xs ++ renderAll ys := by
  simp [renderAll, String.join_append]

theorem modifierKind?_eq_some_iff (t : Token) (k : ModifierKind) :
    t.modifierKind? = some k ↔ t.isModifier k := by
  obtain ⟨kind, text, leading, trailing⟩ := t
  cases kind <;> simp [modifierKind?, isModifier]

end Token

end DeclStyle
