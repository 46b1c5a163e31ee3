/-!
# Trivia

The pieces of source text between tokens: blanks, line ends, comments, and the zero-width elastic
marker that leaves the spacing to a formatter.  A piece is judged by its kind alone, never by its
text.  Each token carries one run of trivia in front and one behind.

The operations on runs are the ones that editing needs: whether a run is blank, the run less its
blanks when nothing else is in it, and its text.
-/

namespace DeclStyle

/-- The sorts of text that may stand between two tokens. -/
inductive TriviaKind where
  | whitespace
  | endOfLine
  | singleLineComment
  | multiLineComment
  | documentationComment
  /-- A zero-width mark: a formatter decides the spacing here. -/
  | elasticMarker
  deriving DecidableEq, Repr, Inhabited

namespace TriviaKind

/-- Every kind of trivia. -/
def all : List TriviaKind :=
  [whitespace, endOfLine, singleLineComment, multiLineComment, documentationComment, elasticMarker]

/-- The name of a trivia kind in the exchange format. -/
def identifier : TriviaKind → String
  | whitespace => "whitespace"
  | endOfLine => "end_of_line"
  | singleLineComment => "single_line_comment"
  | multiLineComment => "multi_line_comment"
  | documentationComment => "documentation_comment"
  | elasticMarker => "elastic_marker"

/-- The trivia kind of a given name. -/
def ofIdentifier? (s : String) : Option TriviaKind :=
  all.find? (·.identifier == s)

/-- Blanks carry no content: an edit may drop them. -/
def isBlank : TriviaKind → Bool
  | whitespace | endOfLine | elasticMarker => true
  | singleLineComment | multiLineComment | documentationComment => false

theorem ofIdentifier?_identifier (k : TriviaKind) : ofIdentifier? k.identifier = some k := by
  cases k <;> decide

end TriviaKind

/-- One piece of trivia. -/
structure Trivia where
  kind : TriviaKind
  text : String
  deriving DecidableEq, Repr, Inhabited

namespace Trivia

/-- One space. -/
def space : Trivia := ⟨.whitespace, " "⟩

/-- One line feed. -/
def lineFeed : Trivia := ⟨.endOfLine, "\n"⟩

/-- The elastic marker, which has no text. -/
def elastic : Trivia := ⟨.elasticMarker, ""⟩

/-- A comment, its kind read off its opening: three slashes open documentation, a slash and a star
open a comment that may span lines, and anything else is a comment to the end of the line. -/
def comment (text : String) : Trivia :=
  match text.toList with
  | '/' :: '/' :: '/' :: _ => ⟨.documentationComment, text⟩
  | '/' :: '*' :: _ => ⟨.multiLineComment, text⟩
  | _ => ⟨.singleLineComment, text⟩

/-- A piece that carries no content. -/
def isBlank (t : Trivia) : Bool := t.kind.isBlank

/-- A piece that carries content. -/
def isComment (t : Trivia) : Bool := !t.isBlank

end Trivia

/-- The trivia on one side of a token, in document order. -/
abbrev TriviaRun := List Trivia

namespace TriviaRun

/-- A run of one space. -/
def space : TriviaRun := [.space]

/-- A run of one elastic marker. -/
def elastic : TriviaRun := [.elastic]

/-- No piece of the run is a comment. -/
def isBlank (run : TriviaRun) : Bool := run.all Trivia.isBlank

/-- The run is exactly one elastic marker. -/
def isSingleElastic : TriviaRun → Bool
  | [t] => t.kind == .elasticMarker
  | _ => false

/-- The whole run, or nothing when it holds no comment. -/
def keepCommented (run : TriviaRun) : TriviaRun := if isBlank run then [] else run

/-- The texts of the comments of a run. -/
def comments (run : TriviaRun) : List String := (run.filter Trivia.isComment).map Trivia.text

/-- The comments of a run and nothing else. -/
def onlyComments (run : TriviaRun) : TriviaRun := run.filter Trivia.isComment

/-- The text of a run. -/
def render (run : TriviaRun) : String := String.join (run.map Trivia.text)

@[simp] theorem isBlank_nil : isBlank [] = true := rfl

@[simp] theorem keepCommented_nil : keepCommented [] = [] := rfl

theorem keepCommented_eq_nil_iff (run : TriviaRun) : keepCommented run = [] ↔ isBlank run := by
  unfold keepCommented
  split
  · simp [*]
  · rename_i h
    constructor
    · rintro rfl
      exact absurd isBlank_nil h
    · exact fun h' => absurd h' h

@[simp] theorem comments_append (a b : TriviaRun) :
    comments (a ++ b) = comments a ++ comments b := by
  simp [comments]

@[simp] theorem render_nil : render [] = "" := rfl

@[simp] theorem render_append (a b : TriviaRun) : render (a ++ b) = render a ++ render b := by
  simp [render, String.join_append]

end TriviaRun

end DeclStyle
