import DeclStyle.EditError

/-!
# Stretches of tokens

A stretch is a run of tokens that an edit may change, together with the tokens right before and
right after it in the document, where there are such.  Tokens are inserted into a stretch and
removed from it; the trivia around them moves so that no comment is lost and no two words run
together.

* An inserted token takes over the trivia in front of the token that follows it, so that
  indentation and comments stay in front; behind it comes a space unless it brings its own trivia.
* The comments around a removed token go to a neighbour: in front of the token that follows it when
  the removed one stood first, else behind the token before it.  The run in front of a token that
  stood first is kept whole.  Only blanks are ever dropped.
-/

namespace DeclStyle

namespace Token

/-- The token without the trivia in front of it. -/
def strip (t : Token) : Token := { t with leading := [] }

/-- The token behind the trivia that the following token gives up.  A single elastic marker of its
own gives way to them. -/
def receive (t : Token) (donated : TriviaRun) : Token :=
  if donated.isEmpty then t
  else if t.leading.isSingleElastic then { t with leading := donated }
  else { t with leading := donated ++ t.leading }

/-- The token with a space behind it where its own trivia leave the spacing open. -/
def separated (t : Token) : Token :=
  if t.trailing.isEmpty || t.trailing.isSingleElastic then { t with trailing := .space } else t

/-- The token with a run put in front of it; its own run stays if it holds a comment. -/
def withInFront (t : Token) (run : TriviaRun) : Token :=
  { t with leading := run ++ t.leading.keepCommented }

/-- The token with a run put behind its own trivia. -/
def withBehind (t : Token) (run : TriviaRun) : Token :=
  { t with trailing := t.trailing ++ run }

/-- What is left of a removed token that stood first: the run in front of it, and the run behind it
if it holds a comment. -/
def leftBehindFirst (t : Token) : TriviaRun := t.leading ++ t.trailing.keepCommented

/-- What is left of a removed token that stood behind another: each of its runs if it holds a
comment. -/
def leftBehind (t : Token) : TriviaRun := t.leading.keepCommented ++ t.trailing.keepCommented

end Token

/-- A run of tokens between two neighbours. -/
structure Stretch where
  previous : Option Token
  tokens : List Token
  next : Option Token
  deriving DecidableEq, Repr, Inhabited

namespace Stretch

/-- All tokens of a stretch and its neighbours in document order. -/
def allTokens (s : Stretch) : List Token := s.previous.toList ++ s.tokens ++ s.next.toList

/-- The document text of a stretch and its neighbours. -/
def render (s : Stretch) : String := Token.renderAll s.allTokens

/-! ## Insertion -/

/-- The token that will follow a token inserted at a position. -/
def follower? (s : Stretch) (index : Nat) : Option Token :=
  if index < s.tokens.length then s.tokens[index]? else s.next

/-- The token as it stands once it is inserted at a position. -/
def settled (s : Stretch) (t : Token) (index : Nat) : Token :=
  match s.follower? index with
  | some f => (t.receive f.leading).separated
  | none => t.separated

/-- Inserts a token at a position. -/
def insert (s : Stretch) (t : Token) (index : Nat) : Except EditError Stretch :=
  if index < s.tokens.length then
    .ok { s with tokens := (s.tokens.modify index Token.strip).insertIdx index (s.settled t index) }
  else if index = s.tokens.length then
    .ok { s with tokens := s.tokens ++ [s.settled t index], next := s.next.map Token.strip }
  else .error (.indexOutOfBounds index s.tokens.length)

/-! ## Removal -/

/-- The stretch without its only token. -/
def removeSole (s : Stretch) (t : Token) : Except EditError Stretch :=
  match s.next, s.previous with
  | some n, _ => .ok { s with tokens := [], next := some (n.withInFront t.leftBehindFirst) }
  | none, some p => .ok { s with tokens := [], previous := some (p.withBehind t.leftBehind) }
  | none, none =>
    if t.leftBehind.isEmpty then .ok { s with tokens := [] } else .error (.noAnchorToken t.kind)

/-- Removes the token at a position. -/
def remove (s : Stretch) (index : Nat) : Except EditError Stretch :=
  match s.tokens[index]? with
  | none => .error (.indexOutOfBounds index s.tokens.length)
  | some t =>
    if s.tokens.length = 1 then s.removeSole t
    else if index = 0 then
      .ok { s with tokens := s.tokens.tail.modifyHead (·.withInFront t.leftBehindFirst) }
    else
      .ok { s with
        tokens := (s.tokens.eraseIdx index).modify (index - 1) (·.withBehind t.leftBehind) }

/-- What is left of all tokens of a list that stands first. -/
def leftBehindAll : List Token → TriviaRun
  | [] => []
  | t :: ts => t.leftBehindFirst ++ ts.flatMap Token.leftBehind

/-- Removes every token.  The run in front of the first is kept whole, every other run if it holds
a comment. -/
def removeAll (s : Stretch) : Except EditError Stretch :=
  match s.tokens with
  | [] => .ok s
  | [_] => s.remove 0
  | first :: rest =>
    let left := leftBehindAll (first :: rest)
    match s.next, s.previous with
    | some n, _ => .ok { s with tokens := [], next := some (n.withInFront left) }
    | none, some p => .ok { s with tokens := [], previous := some (p.withBehind left) }
    | none, none =>
      if left.isBlank then .ok { s with tokens := [] } else .error (.noAnchorToken first.kind)

/-- Removes the tokens before position `count` that pass a test, the last one first, each judged
as it stands when its turn comes. -/
def removeMatchingBefore (p : Token → Bool) : Nat → Stretch → Except EditError Stretch
  | 0, s => .ok s
  | count + 1, s => do
    let s' ← if s.tokens[count]?.any p then s.remove count else .ok s
    removeMatchingBefore p count s'

/-- Removes every token that passes a test, the last one first. -/
def removeMatching (p : Token → Bool) (s : Stretch) : Except EditError Stretch :=
  removeMatchingBefore p s.tokens.length s

end Stretch

end DeclStyle
