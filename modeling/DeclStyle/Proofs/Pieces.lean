import DeclStyle.Stretch

/-!
# The pieces of a document

A document is a sequence of pieces: the words of its tokens, each between the trivia in front of it
and behind it.  An edit of tokens moves trivia from one token to another, which changes every token
concerned and leaves the sequence of pieces as it is.  What an edit does to a document is therefore
said on pieces.

* `Token.renderAll_eq_join` — the text of a list of tokens is the text of its pieces, so that what
  is known of the pieces is known of the text;
* `Token.piecesKept` — the pieces of a list of tokens less the words of those that a mask gives up;
* `BlanksDropped` — one sequence of pieces is another one less some of its blank trivia.  Everything
  else stays, in its order (`BlanksDropped.contents_eq`, `BlanksDropped.sublist`);
* `commentTrivia` — the comments among pieces, with their kinds.
-/

namespace DeclStyle

/-- An item of a document: a word, or a piece of trivia. -/
inductive Piece where
  | word (kind : TokenKind) (text : String)
  | trivia (piece : Trivia)
  deriving DecidableEq, Repr

namespace Piece

/-- The text of a piece. -/
def text : Piece → String
  | word _ text => text
  | trivia piece => piece.text

/-- A piece that carries no content. -/
def isBlank : Piece → Bool
  | word _ _ => false
  | trivia piece => piece.isBlank

/-- The comment that a piece is. -/
def comment? : Piece → Option Trivia
  | word _ _ => none
  | trivia piece => if piece.isComment then some piece else none

/-- The pieces that carry content: words and comments. -/
def contents (ps : List Piece) : List Piece := ps.filter (!·.isBlank)

/-- The comments among pieces. -/
def commentTrivia (ps : List Piece) : List Trivia := ps.filterMap comment?

@[simp] theorem commentTrivia_append (a b : List Piece) :
    commentTrivia (a ++ b) = commentTrivia a ++ commentTrivia b := by
  simp [commentTrivia]

theorem comment?_eq_none_of_isBlank {p : Piece} (h : p.isBlank) : p.comment? = none := by
  cases p with
  | word kind text => rfl
  | trivia piece => simp_all [comment?, isBlank, Trivia.isComment]

/-- Blanks are no comments, so the comments are those of the contents. -/
theorem commentTrivia_contents (ps : List Piece) :
    commentTrivia (contents ps) = commentTrivia ps := by
  rw [contents, commentTrivia, List.filterMap_filter, commentTrivia]
  congr 1
  funext p
  by_cases hp : p.isBlank
  · simp [hp, comment?_eq_none_of_isBlank hp]
  · simp [hp]

end Piece

/-! ## The pieces of tokens -/

/-- The pieces of a run of trivia. -/
def TriviaRun.pieces (run : TriviaRun) : List Piece := run.map .trivia

namespace TriviaRun

@[simp] theorem pieces_nil : pieces [] = [] := rfl

@[simp] theorem pieces_append (a b : TriviaRun) : pieces (a ++ b) = pieces a ++ pieces b := by
  simp [pieces]

/-- The text of a run is the text of its pieces. -/
theorem render_eq_join (run : TriviaRun) : run.render = String.join (run.pieces.map Piece.text) := by
  simp [pieces, render, Function.comp_def, Piece.text]

end TriviaRun

namespace Token

/-- The word of a token: its kind and its text. -/
def word (t : Token) : Piece := .word t.kind t.text

/-- The pieces of a token in document order, its word being kept or given up. -/
def piecesIf (kept : Bool) (t : Token) : List Piece :=
  t.leading.pieces ++ (if kept then [t.word] else []) ++ t.trailing.pieces

/-- The pieces of a token in document order. -/
def pieces (t : Token) : List Piece := t.piecesIf true

/-- The pieces of a list of tokens in document order. -/
def piecesOfAll (ts : List Token) : List Piece := ts.flatMap pieces

/-- The pieces of a list of tokens, less the words of the tokens that a mask marks `false`. -/
def piecesKept (mask : List Bool) (ts : List Token) : List Piece :=
  (mask.zip ts).flatMap fun m => m.2.piecesIf m.1

/-- The words of the tokens that a mask marks `true`. -/
def wordsKept (mask : List Bool) (ts : List Token) : List Piece :=
  ((mask.zip ts).filter (·.1)).map (·.2.word)

@[simp] theorem piecesOfAll_nil : piecesOfAll [] = [] := rfl

@[simp] theorem piecesOfAll_cons (t : Token) (ts : List Token) :
    piecesOfAll (t :: ts) = t.pieces ++ piecesOfAll ts := rfl

@[simp] theorem piecesOfAll_append (xs ys : List Token) :
    piecesOfAll (xs ++ ys) = piecesOfAll xs ++ piecesOfAll ys := by
  simp [piecesOfAll]

/-- So is the text of a token. -/
theorem render_eq_join (t : Token) : t.render = String.join (t.pieces.map Piece.text) := by
  simp [render, pieces, piecesIf, word, Piece.text, TriviaRun.render_eq_join, String.join_append,
    String.append_assoc]

/-- The text of tokens is the text of their pieces. -/
theorem renderAll_eq_join (ts : List Token) :
    renderAll ts = String.join ((piecesOfAll ts).map Piece.text) := by
  induction ts with
  | nil => rfl
  | cons t ts ih =>
    rw [renderAll_cons, ih, piecesOfAll_cons, List.map_append, String.join_append, render_eq_join]

@[simp] theorem piecesKept_cons (kept : Bool) (mask : List Bool) (t : Token) (ts : List Token) :
    piecesKept (kept :: mask) (t :: ts) = t.piecesIf kept ++ piecesKept mask ts := rfl

@[simp] theorem wordsKept_cons (kept : Bool) (mask : List Bool) (t : Token) (ts : List Token) :
    wordsKept (kept :: mask) (t :: ts) = (if kept then [t.word] else []) ++ wordsKept mask ts := by
  cases kept <;> rfl

@[simp] theorem piecesKept_nil (ts : List Token) : piecesKept [] ts = [] := rfl

@[simp] theorem wordsKept_nil (ts : List Token) : wordsKept [] ts = [] := rfl

theorem piecesKept_append {mask mask' : List Bool} {ts ts' : List Token}
    (h : mask.length = ts.length) :
    piecesKept (mask ++ mask') (ts ++ ts') = piecesKept mask ts ++ piecesKept mask' ts' := by
  rw [piecesKept, List.zip_append h, List.flatMap_append, ← piecesKept, ← piecesKept]

theorem wordsKept_append {mask mask' : List Bool} {ts ts' : List Token}
    (h : mask.length = ts.length) :
    wordsKept (mask ++ mask') (ts ++ ts') = wordsKept mask ts ++ wordsKept mask' ts' := by
  simp [wordsKept, List.zip_append h]

/-- Where nothing is given up, the pieces are all there. -/
theorem piecesKept_replicate_true (ts : List Token) :
    piecesKept (List.replicate ts.length true) ts = piecesOfAll ts := by
  induction ts with
  | nil => rfl
  | cons t ts ih =>
    rw [List.length_cons, List.replicate_succ, piecesKept_cons, ih, piecesOfAll_cons, pieces]

theorem wordsKept_replicate_true (ts : List Token) :
    wordsKept (List.replicate ts.length true) ts = ts.map word := by
  induction ts with
  | nil => rfl
  | cons t ts ih =>
    rw [List.map_cons, ← ih]
    rfl

end Token

/-! ## Dropping blanks -/

/-- The second sequence of pieces is the first one less some of its blank trivia. -/
inductive BlanksDropped : List Piece → List Piece → Prop where
  | nil : BlanksDropped [] []
  | keep (p : Piece) {before after : List Piece} :
      BlanksDropped before after → BlanksDropped (p :: before) (p :: after)
  | drop {t : Trivia} {before after : List Piece} :
      t.isBlank → BlanksDropped before after → BlanksDropped (.trivia t :: before) after

namespace BlanksDropped

theorem refl (ps : List Piece) : BlanksDropped ps ps := by
  induction ps with
  | nil => exact nil
  | cons p ps ih => exact keep p ih

theorem append {a b c d : List Piece} (h : BlanksDropped a b) (h' : BlanksDropped c d) :
    BlanksDropped (a ++ c) (b ++ d) := by
  induction h with
  | nil => exact h'
  | keep p _ ih => exact keep p ih
  | drop ht _ ih => exact drop ht ih

theorem trans {a b c : List Piece} (h : BlanksDropped a b) (h' : BlanksDropped b c) :
    BlanksDropped a c := by
  induction h generalizing c with
  | nil => exact h'
  | keep p _ ih =>
    cases h' with
    | keep _ h' => exact keep p (ih h')
    | drop ht h' => exact drop ht (ih h')
  | drop ht _ ih => exact drop ht (ih h')

/-- Words and comments stay, in their order. -/
theorem contents_eq {a b : List Piece} (h : BlanksDropped a b) :
    Piece.contents b = Piece.contents a := by
  induction h with
  | nil => rfl
  | keep p _ ih =>
    simp only [Piece.contents, List.filter_cons] at ih ⊢
    rw [ih]
  | drop ht _ ih =>
    rw [ih, Piece.contents, Piece.contents, List.filter_cons_of_neg]
    simpa [Piece.isBlank] using ht

/-- Nothing is added, and nothing changes places. -/
theorem sublist {a b : List Piece} (h : BlanksDropped a b) : b.Sublist a := by
  induction h with
  | nil => exact .slnil
  | keep p _ ih => exact .cons_cons p ih
  | drop _ _ ih => exact .cons _ ih

/-- A blank run can go. -/
theorem of_isBlank {run : TriviaRun} (h : run.isBlank) : BlanksDropped run.pieces [] := by
  induction run with
  | nil => exact nil
  | cons t run ih =>
    simp only [TriviaRun.isBlank, List.all_cons, Bool.and_eq_true] at h
    exact drop h.1 (ih h.2)

/-- Keeping a run only if it holds a comment drops blanks and nothing else. -/
theorem keepCommented (run : TriviaRun) : BlanksDropped run.pieces run.keepCommented.pieces := by
  unfold TriviaRun.keepCommented
  split
  · rename_i h
    exact of_isBlank h
  · exact refl _

end BlanksDropped

end DeclStyle
