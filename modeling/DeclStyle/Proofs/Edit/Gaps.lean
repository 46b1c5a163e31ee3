import DeclStyle.Proofs.Edit.Insertion

/-!
# Words and gaps

What a reader sees of a document is its words with the text between them.  Which token the trivia of
a gap belong to cannot be seen, and an edit may change it.

* `Token.gappedWords` — the words of a list of tokens, each with the text up to the next word;
* `Token.renderAll_eq_gappedWords` — the document text is the text in front of the first word, and
  the words with their gaps;
* `Signature.gappedWords_insertKind` — a newly made modifier comes into a document as one word with
  a space behind it, and every other gap stays as it is.
-/

namespace DeclStyle

/-- A word with the text between it and the next word. -/
structure GappedWord where
  word : Piece
  gap : String

namespace GappedWord

/-- The document text of a word and the gap behind it. -/
def text (w : GappedWord) : String := w.word.text ++ w.gap

end GappedWord

namespace Token

/-- The document text in front of the first word. -/
def textInFront (ts : List Token) : String := (leadingOfAll ts).render

/-- The words of a list of tokens.  The gap behind a word is what follows it in its own token and
what comes first in the next one. -/
def gappedWords : List Token → List GappedWord
  | [] => []
  | t :: ts => ⟨t.word, t.trailing.render ++ textInFront ts⟩ :: gappedWords ts

/-- The document text of tokens is what stands in front of the first word, and the words with their
gaps. -/
theorem renderAll_eq_gappedWords (ts : List Token) :
    renderAll ts = textInFront ts ++ String.join ((gappedWords ts).map GappedWord.text) := by
  induction ts with
  | nil => rfl
  | cons t ts ih =>
    have hfront : textInFront (t :: ts) = t.leading.render := rfl
    have hword : t.word.text = t.text := rfl
    rw [renderAll_cons, ih, hfront, gappedWords, List.map_cons, String.join_cons, render,
      GappedWord.text, hword]
    simp only [String.append_assoc]

/-- To take the trivia in front of the first word away changes no gap. -/
theorem gappedWords_stripFirst (ts : List Token) :
    gappedWords (stripFirst ts) = gappedWords ts := by
  cases ts <;> rfl

/-- The words in front of a list of tokens do not depend on more of it than the text in front of its
first word. -/
theorem exists_gappedWords_append (before : List Token) {ts us : List Token}
    (h : textInFront us = textInFront ts) :
    ∃ ws : List GappedWord, ws.length = before.length ∧
      gappedWords (before ++ ts) = ws ++ gappedWords ts ∧
      gappedWords (before ++ us) = ws ++ gappedWords us ∧
      textInFront (before ++ us) = textInFront (before ++ ts) := by
  induction before with
  | nil => exact ⟨[], rfl, rfl, rfl, h⟩
  | cons b before ih =>
    obtain ⟨ws, hlength, hts, hus, hfront⟩ := ih
    refine ⟨⟨b.word, b.trailing.render ++ textInFront (before ++ ts)⟩ :: ws, ?_, ?_, ?_, rfl⟩
    · rw [List.length_cons, List.length_cons, hlength]
    · rw [List.cons_append, gappedWords, hts, List.cons_append]
    · rw [List.cons_append, gappedWords, hus, hfront, List.cons_append]

theorem length_gappedWords (ts : List Token) : (gappedWords ts).length = ts.length := by
  induction ts with
  | nil => rfl
  | cons t ts ih => rw [gappedWords, List.length_cons, List.length_cons, ih]

/-- A token that stands behind the trivia given up by its follower and has no text of its own in
front comes into a document as one word, with the text behind it for a gap. -/
theorem gappedWords_insert (before ts : List Token) {new : Token} (h : new.leading.render = "") :
    gappedWords (before ++ new.behind (leadingOfAll ts) :: stripFirst ts) =
        (gappedWords (before ++ ts)).insertIdx before.length ⟨new.word, new.trailing.render⟩ ∧
      textInFront (before ++ new.behind (leadingOfAll ts) :: stripFirst ts) =
        textInFront (before ++ ts) := by
  have hfront : textInFront (new.behind (leadingOfAll ts) :: stripFirst ts) = textInFront ts := by
    simp [textInFront, leadingOfAll, behind, h]
  have hafter : textInFront (stripFirst ts) = "" := by cases ts <;> rfl
  have hgap : gappedWords (new.behind (leadingOfAll ts) :: stripFirst ts) =
      ⟨new.word, new.trailing.render⟩ :: gappedWords ts := by
    rw [gappedWords, gappedWords_stripFirst, hafter, String.append_empty]
    rfl
  obtain ⟨ws, hlength, hbefore, hnow, hsame⟩ := exists_gappedWords_append before hfront
  refine ⟨?_, hsame⟩
  rw [hnow, hgap, hbefore, ← hlength, insertIdx_append_length]

/-- Words whose tokens bring text behind them have no empty gap. -/
theorem gap_ne_empty_of_mem_take {ts us : List Token} (h : ∀ t ∈ ts, t.trailing.render ≠ "")
    {w : GappedWord} (hw : w ∈ (gappedWords (ts ++ us)).take ts.length) : w.gap ≠ "" := by
  induction ts with
  | nil => simp at hw
  | cons t ts ih =>
    rw [List.cons_append, gappedWords, List.length_cons, List.take_succ_cons, List.mem_cons] at hw
    rcases hw with rfl | hw
    · have ht := h t List.mem_cons_self
      simp [String.append_eq_empty_iff, ht]
    · exact ih (fun u hu => h u (List.mem_cons_of_mem t hu)) hw

end Token

namespace Signature

open Token

/-- **A newly made modifier comes as one word with a space behind it**, at its place among the words
of the signature.  The other words and gaps, and the text in front of the first word, stay. -/
theorem gappedWords_insertKind {s s' : Signature} {kind : ModifierKind}
    {order : Option (Comparer ModifierKind)} (h : s.insertKind kind order = .ok s') :
    gappedWords s'.allTokens = (gappedWords s.allTokens).insertIdx
        (placeOf s.modifiers (.fresh kind) (order.map ModifierOrder.onTokens))
        ⟨(fresh kind).word, " "⟩ ∧
      textInFront s'.allTokens = textInFront s.allTokens := by
  obtain ⟨s'', hs'', htokens⟩ := s.insert_eq_ok (.fresh kind) (order.map ModifierOrder.onTokens)
  obtain rfl := Except.ok.inj (hs''.symm.trans h)
  have hplace := placeOf_le_length s.modifiers (.fresh kind) (order.map ModifierOrder.onTokens)
  generalize placeOf s.modifiers (.fresh kind) (order.map ModifierOrder.onTokens) = index
    at htokens hplace ⊢
  have hleading : ((fresh kind).added (s.follower? index)).leading.render = "" := by
    simp only [added]
    split
    · rfl
    · rfl
  have hinsert := gappedWords_insert (s.modifiers.take index) (s.tokensFrom index) hleading
  rw [List.length_take_of_le hplace] at hinsert
  rw [htokens, s.allTokens_eq_take_append index]
  exact hinsert

end Signature

end DeclStyle
