import DeclStyle.Proofs.Lexical.Separation
import DeclStyle.Proofs.Lexical.Session

/-!
# Line comments around removed tokens

A comment that goes on to the end of its line needs a line end before the next word.  The line end
may stand in another run of trivia than the comment, and a removal of tokens judges run by run what
it keeps: a blank run goes although it may have been what ended a comment that stays.

* `TriviaRun.EndedBy` — the line comments of a run are ended, by the run itself or by what follows;
* `Stretch.Legible` — no line comment of a stretch or its neighbours swallows a word;
* `Stretch.legible_iff` — a stretch is legible if the run in front of its first word and every gap
  end the lines of their comments;
* `Stretch.closesLines_leftBehindAll_append_iff` — the one gap that comes of the gaps around several
  tokens that go;
* `Stretch.removal_legible_iff` — where removals leave a legible stretch legible;
* `Stretch.removal_swallows_word` — they do not do so everywhere.
-/

namespace DeclStyle

/-! ## Runs of trivia -/

theorem TriviaKind.isLineComment_of_isBlank {k : TriviaKind} (h : k.isBlank) :
    k.isLineComment = false := by
  cases k <;> simp_all [isBlank, isLineComment]

namespace TriviaRun

/-- There is a line end in the run. -/
def hasLineEnd (run : TriviaRun) : Bool := run.any (·.kind == .endOfLine)

theorem hasLineEnd_append (a b : TriviaRun) :
    hasLineEnd (a ++ b) = (hasLineEnd a || hasLineEnd b) := List.any_append

/-- Two runs end the lines of their comments if the second does so by itself, and the first does so
or is followed by a line end. -/
theorem closesLines_append_eq (a b : TriviaRun) :
    closesLines (a ++ b) = ((closesLines a || hasLineEnd b) && closesLines b) := by
  induction a with
  | nil => simp [closesLines]
  | cons t a ih =>
    have hends : (a ++ b).any (·.kind == .endOfLine) = (hasLineEnd a || hasLineEnd b) :=
      hasLineEnd_append a b
    have hends' : a.any (·.kind == .endOfLine) = hasLineEnd a := rfl
    rw [List.cons_append, closesLines, closesLines, ih, hends, hends']
    cases t.kind.isLineComment <;> cases hasLineEnd a <;> cases hasLineEnd b <;>
      cases closesLines a <;> rfl

theorem closesLines_of_append {a b : TriviaRun} (h : closesLines (a ++ b)) : closesLines b := by
  rw [closesLines_append_eq, Bool.and_eq_true] at h
  exact h.2

/-- A blank run has no line comment. -/
theorem closesLines_of_isBlank {run : TriviaRun} (h : run.isBlank) : closesLines run := by
  induction run with
  | nil => rfl
  | cons t run ih =>
    simp only [isBlank, List.all_cons, Bool.and_eq_true] at h
    rw [closesLines, TriviaKind.isLineComment_of_isBlank h.1, ih h.2]
    rfl

theorem closesLines_keepCommented_eq (run : TriviaRun) :
    closesLines run.keepCommented = closesLines run := by
  unfold keepCommented
  split
  · rename_i hblank
    exact (closesLines_of_isBlank hblank).symm
  · rfl

/-- The line comments of a run are ended, by the run itself or by what is kept behind it. -/
def EndedBy (run kept : TriviaRun) : Prop := run.closesLines ∨ kept.hasLineEnd

instance (run kept : TriviaRun) : Decidable (run.EndedBy kept) :=
  inferInstanceAs (Decidable (_ ∨ _))

/-- A run that is kept if it holds a comment, in front of one that ends its lines. -/
theorem closesLines_keepCommented_append_iff {run kept : TriviaRun} (h : kept.closesLines) :
    closesLines (run.keepCommented ++ kept) ↔ run.EndedBy kept := by
  rw [closesLines_append_eq, closesLines_keepCommented_eq, h, Bool.and_true, Bool.or_eq_true,
    EndedBy]

end TriviaRun

/-! ## Documents -/

namespace Piece

/-- Behind a run of trivia a comment is open if the run leaves one open, or ends no line and one was
open in front of it. -/
theorem swallowed_pieces_append_eq (run : TriviaRun) (isOpen : Bool) (ps : List Piece) :
    swallowed isOpen (run.pieces ++ ps) =
      swallowed (isOpen && !run.hasLineEnd || !run.closesLines) ps := by
  induction run generalizing isOpen with
  | nil => simp [TriviaRun.hasLineEnd, TriviaRun.closesLines]
  | cons t run ih =>
    have hstep : swallowed isOpen (TriviaRun.pieces (t :: run) ++ ps) =
        swallowed (isOpenBehind isOpen t) (TriviaRun.pieces run ++ ps) := rfl
    have hends : TriviaRun.hasLineEnd (t :: run) =
        (t.kind == .endOfLine || TriviaRun.hasLineEnd run) := rfl
    have hcloses : TriviaRun.closesLines (t :: run) =
        ((!t.kind.isLineComment || TriviaRun.hasLineEnd run) && TriviaRun.closesLines run) := rfl
    rw [hstep, ih, hends, hcloses, isOpenBehind]
    congr 1
    cases t.kind <;> cases isOpen <;> cases TriviaRun.hasLineEnd run <;>
      cases TriviaRun.closesLines run <;> rfl

/-- No word behind a token is swallowed if every gap from there on ends the lines of its
comments. -/
theorem swallowed_trailing_append_iff (t : Token) (ts : List Token) :
    swallowed false (t.trailing.pieces ++ Token.piecesOfAll ts) = [] ↔
      Token.EveryGap (·.closesLines) (t :: ts) := by
  induction ts generalizing t with
  | nil => exact iff_of_true (swallowed_pieces_append_eq t.trailing false []) (.singleton t)
  | cons u ts ih =>
    have hpieces : t.trailing.pieces ++ Token.piecesOfAll (u :: ts) =
        (t.trailing ++ u.leading).pieces ++
          (u.word :: (u.trailing.pieces ++ Token.piecesOfAll ts)) := by
      simp [Token.pieces, Token.piecesIf]
    have hword : ∀ isOpen ps, swallowed isOpen (u.word :: ps) =
        (if isOpen then [u.word] else []) ++ swallowed isOpen ps := fun _ _ => rfl
    have hgaps : Token.EveryGap (·.closesLines) (t :: u :: ts) ↔
        (t.trailing ++ u.leading).closesLines ∧ Token.EveryGap (·.closesLines) (u :: ts) :=
      List.isChain_cons_cons
    rw [hpieces, swallowed_pieces_append_eq, hword, hgaps, ← ih u]
    cases TriviaRun.closesLines (t.trailing ++ u.leading) <;> simp

end Piece

/-! ## Stretches -/

namespace Stretch

open Token TriviaRun

variable {s s' : Stretch}

/-- No word of a stretch and its neighbours is swallowed by a line comment in front of it. -/
def Legible (s : Stretch) : Prop := Piece.swallowed false s.pieces = []

instance (s : Stretch) : Decidable s.Legible := inferInstanceAs (Decidable (_ = _))

/-- What a document begins with: no trivia, and so no comment. -/
def start : Token := .bare .punctuation ""

/-- **A stretch is legible** if every gap ends the lines of its comments, the run in front of the
first word being one of them. -/
theorem legible_iff (s : Stretch) :
    s.Legible ↔ EveryGap (·.closesLines) (start :: s.previous.toList ++ s.withNext) := by
  rw [List.cons_append, ← allTokens_eq_withNext, ← Piece.swallowed_trailing_append_iff]
  rfl

/-- Where only the token before a stretch is left, the run in front of it decides. -/
theorem Legible.of_withNext_eq_nil (hs : s.Legible) (hnone : s'.withNext = [])
    (hprevious : s'.previous.map Token.leading = s.previous.map Token.leading) :
    s'.Legible := by
  rw [legible_iff] at hs ⊢
  rw [hnone, List.append_nil]
  have hfront : EveryGap (·.closesLines) (start :: s.previous.toList) := hs.left_of_append
  cases hs'p : s'.previous with
  | none => exact .singleton start
  | some p' =>
    rw [hs'p] at hprevious
    obtain ⟨p, hp, hleading⟩ := Option.map_eq_some_iff.1 hprevious.symm
    rw [hp] at hfront
    exact (everyGap_append_singleton p p' hleading.symm [start]).2 hfront

/-- A property of all ends of a list is one of the whole list and of the ends of its tail. -/
theorem forall_suffix_cons_iff {P : Token → List Token → Prop} {t : Token} {rest : List Token} :
    (∀ u after, u :: after <:+ t :: rest → P u after) ↔
      P t rest ∧ ∀ u after, u :: after <:+ rest → P u after := by
  simp only [List.suffix_cons_iff, List.cons.injEq]
  constructor
  · intro h
    exact ⟨h t rest (.inl ⟨rfl, rfl⟩), fun u after hsuffix => h u after (.inr hsuffix)⟩
  · rintro ⟨hfirst, hrest⟩ u after (⟨rfl, rfl⟩ | hsuffix)
    · exact hfirst
    · exact hrest u after hsuffix

/-- What is left of the gaps between tokens that go, up to the word behind them. -/
theorem closesLines_keepCommented_leftBehind_iff {t n : Token} {rest : List Token}
    (h : EveryGap (·.closesLines) (t :: rest ++ [n])) :
    (t.trailing.keepCommented ++
        (rest.flatMap leftBehind ++ n.leading.keepCommented)).closesLines ↔
      ∀ u after, u :: after <:+ t :: rest →
        u.trailing.EndedBy (after.flatMap leftBehind ++ n.leading.keepCommented) := by
  induction rest generalizing t with
  | nil =>
    have hgap : (t.trailing ++ n.leading).closesLines := h.rel
    have hn : n.leading.keepCommented.closesLines :=
      closesLines_keepCommented (closesLines_of_append hgap)
    rw [forall_suffix_cons_iff]
    simpa using closesLines_keepCommented_append_iff hn
  | cons u rest ih =>
    obtain ⟨hgap, hrest⟩ := List.isChain_cons_cons.1 h
    have hu : u.leading.keepCommented.closesLines :=
      closesLines_keepCommented (closesLines_of_append hgap)
    rw [forall_suffix_cons_iff, ← ih hrest]
    set later := u.trailing.keepCommented ++
      (rest.flatMap leftBehind ++ n.leading.keepCommented) with hlater
    have hsplit : (u :: rest).flatMap leftBehind ++ n.leading.keepCommented =
        u.leading.keepCommented ++ later := by
      simp [hlater, leftBehind]
    rw [hsplit]
    constructor
    · intro hclosed
      have hlast := closesLines_of_append hclosed
      exact ⟨(closesLines_keepCommented_append_iff hlast).1 hclosed, closesLines_of_append hlast⟩
    · rintro ⟨hended, hclosed⟩
      exact (closesLines_keepCommented_append_iff (closesLines_append hu hclosed)).2 hended

/-- **The gap that comes of all gaps around the first tokens** ends the lines of its comments, if
those behind each of the tokens are ended there or by what is kept later on. -/
theorem closesLines_leftBehindAll_append_iff {run : TriviaRun} {t n : Token} {rest : List Token}
    (hfront : (run ++ t.leading).closesLines)
    (h : EveryGap (·.closesLines) (t :: rest ++ [n])) :
    (run ++ (leftBehindAll (t :: rest) ++ n.leading.keepCommented)).closesLines ↔
      ∀ u after, u :: after <:+ t :: rest →
        u.trailing.EndedBy (after.flatMap leftBehind ++ n.leading.keepCommented) := by
  rw [← closesLines_keepCommented_leftBehind_iff h]
  have hsplit : run ++ (leftBehindAll (t :: rest) ++ n.leading.keepCommented) =
      (run ++ t.leading) ++ (t.trailing.keepCommented ++
        (rest.flatMap leftBehind ++ n.leading.keepCommented)) := by
    simp [leftBehindAll, leftBehindFirst]
  rw [hsplit]
  exact ⟨closesLines_of_append, closesLines_append hfront⟩

/-- Where the first tokens behind others have gone and what is left of them is put in front of the
next one. -/
theorem everyGap_leftBehindAll_iff {before rest after : List Token} {t n : Token}
    (hbefore : before ≠ []) (h : EveryGap (·.closesLines) (before ++ (t :: rest ++ n :: after))) :
    EveryGap (·.closesLines) (before ++ n.withInFront (leftBehindAll (t :: rest)) :: after) ↔
      ∀ u later, u :: later <:+ t :: rest →
        u.trailing.EndedBy (later.flatMap leftBehind ++ n.leading.keepCommented) := by
  obtain ⟨front, b, rfl⟩ := List.eq_nil_or_concat before |>.resolve_left hbefore
  obtain ⟨-, hgone, hfront⟩ := List.isChain_append.1 h
  have hleading : (b.trailing ++ t.leading).closesLines := hfront b (by simp) t rfl
  have hgaps : EveryGap (·.closesLines) (t :: rest ++ [n]) := by
    rw [List.append_cons] at hgone
    exact hgone.left_of_append
  rw [everyGap_withInFront h, ← closesLines_leftBehindAll_append_iff hleading hgaps]
  simp

/-- Where a token between two others has gone and what is left of it is put behind the first of
them. -/
theorem closesLines_leftBehind_append_iff {b t f : Token}
    (hfront : (b.trailing ++ t.leading).closesLines)
    (hback : (t.trailing ++ f.leading).closesLines) :
    (b.trailing ++ t.leftBehind ++ f.leading).closesLines ↔
      b.trailing.EndedBy (t.leftBehind ++ f.leading) := by
  have hleading : t.leading.keepCommented.closesLines :=
    closesLines_keepCommented (closesLines_of_append hfront)
  have htrailing : (t.trailing.keepCommented ++ f.leading).closesLines := by
    rw [closesLines_append_eq, closesLines_keepCommented_eq, ← closesLines_append_eq]
    exact hback
  have hkept : (t.leftBehind ++ f.leading).closesLines := by
    rw [leftBehind, List.append_assoc]
    exact closesLines_append hleading htrailing
  rw [List.append_assoc, closesLines_append_eq, hkept, Bool.and_true, Bool.or_eq_true, EndedBy]

/-- **A removal of one token leaves a stretch legible** if the line comments of the run behind the
token, where it stood first, or behind the one before it, are ended by what is kept up to the next
word. -/
theorem Removal.legible_iff {index : Nat} (h : Removal s index s') (hs : s.Legible) :
    s'.Legible ↔
      (index = 0 → ∀ t f after, s.withNext = t :: f :: after →
        t.trailing.EndedBy f.leading.keepCommented) ∧
      ∀ b t f, s.InARow index b t f → b.trailing.EndedBy (t.leftBehind ++ f.leading) := by
  rcases h.cases_withNext with
    ⟨t, rfl, hbefore, hnone, hprevious⟩ | ⟨t, f, after, rfl, hbefore, hafter, hprevious⟩ |
      ⟨before, b, t, after, rfl, hbefore, hafter, hprevious⟩
  · refine iff_of_true (hs.of_withNext_eq_nil hnone hprevious) ⟨fun _ t' f after hsplit => ?_, ?_⟩
    · rw [hbefore] at hsplit
      cases hsplit
    · exact fun b t f h => absurd h (not_inARow_zero b t f)
  · rw [Stretch.legible_iff, hbefore] at hs
    rw [Stretch.legible_iff, hafter, hprevious, hbefore]
    have hleft : t.leftBehindFirst = leftBehindAll [t] := (List.append_nil _).symm
    rw [hleft, everyGap_leftBehindAll_iff (List.cons_ne_nil _ _) hs, forall_suffix_cons_iff]
    constructor
    · rintro ⟨hended, -⟩
      refine ⟨fun _ t' f' after' hsplit => ?_, fun b t f h => absurd h (not_inARow_zero b t f)⟩
      obtain ⟨rfl, rfl, rfl⟩ : t = t' ∧ f = f' ∧ after = after' := by simpa using hsplit
      exact hended
    · rintro ⟨hended, -⟩
      exact ⟨hended rfl t f after rfl, by simp⟩
  · simp only [inARow_iff hbefore]
    rw [Stretch.legible_iff, hbefore, ← List.append_assoc] at hs
    rw [Stretch.legible_iff, hafter, hprevious, ← List.append_assoc, everyGap_withBehind hs]
    obtain ⟨-, hfront, htail⟩ := List.isChain_append_cons_cons.1 hs
    have hgap : ∀ f ∈ after.head?, (b.trailing ++ t.leftBehind ++ f.leading).closesLines ↔
        b.trailing.EndedBy (t.leftBehind ++ f.leading) := fun f hf =>
      closesLines_leftBehind_append_iff hfront ((List.isChain_cons.1 htail).1 f hf)
    constructor
    · intro hclosed
      refine ⟨fun hzero => absurd hzero (Nat.succ_ne_zero _), ?_⟩
      rintro b' t' f ⟨rfl, rfl, hf⟩
      exact (hgap f hf).1 (hclosed f hf)
    · rintro ⟨-, hended⟩ f hf
      exact (hgap f hf).2 (hended b t f ⟨rfl, rfl, hf⟩)

/-- **A removal of all tokens leaves a stretch legible** if the line comments of the runs behind the
tokens are ended by what is kept of the runs up to the next word. -/
theorem legible_iff_of_removeAll (h : s.removeAll = .ok s') (hs : s.Legible) :
    s'.Legible ↔ ∀ t after n, t :: after <:+ s.tokens → s.next = some n →
      t.trailing.EndedBy (after.flatMap leftBehind ++ n.leading.keepCommented) := by
  cases removalOfAll_of_removeAll h with
  | nothing previous next =>
    exact iff_of_true hs fun t after n hsuffix => nomatch List.eq_nil_of_suffix_nil hsuffix
  | ontoNext previous t rest n =>
    have hbefore : EveryGap (·.closesLines) (start :: previous.toList ++ (t :: rest ++ [n])) :=
      (Stretch.legible_iff _).1 hs
    refine (Stretch.legible_iff _).trans ?_
    refine (everyGap_leftBehindAll_iff (List.cons_ne_nil _ _) hbefore).trans ?_
    constructor
    · rintro hended u after n' hsuffix hn'
      obtain rfl := Option.some.inj hn'
      exact hended u after hsuffix
    · exact fun hended u after hsuffix => hended u after n hsuffix rfl
  | soleOntoPrevious p t =>
    exact iff_of_true (hs.of_withNext_eq_nil rfl rfl) fun _ _ _ _ hn => nomatch hn
  | ontoPrevious p t u rest =>
    exact iff_of_true (hs.of_withNext_eq_nil rfl rfl) fun _ _ _ _ hn => nomatch hn
  | vanish ts hblank =>
    exact iff_of_true (hs.of_withNext_eq_nil rfl rfl) fun _ _ _ _ hn => nomatch hn

/-- **What removals do to line comments.**  Let no word of a stretch and its neighbours be swallowed
by a line comment.  Where a removal of one token succeeds, none is in the outcome if a line end is
kept for each comment that needs it: if the token stood first, the run behind it ends its own lines
or the run in front of the next word, kept for a comment of its own, holds a line end; and if it
stood between two others, the run behind the first of them ends its own lines or a line end is kept
from there on to the second.  Where a removal of all tokens succeeds, the same is asked of the run
behind each of them and of all that is kept from there on to the next word. -/
theorem removal_legible_iff {s s' : Stretch} (hs : s.Legible) :
    (∀ index, s.remove index = .ok s' →
      (s'.Legible ↔
        (index = 0 → ∀ t f after, s.withNext = t :: f :: after →
          t.trailing.EndedBy f.leading.keepCommented) ∧
        ∀ b t f, s.InARow index b t f → b.trailing.EndedBy (t.leftBehind ++ f.leading))) ∧
    (s.removeAll = .ok s' →
      (s'.Legible ↔ ∀ t after n, t :: after <:+ s.tokens → s.next = some n →
        t.trailing.EndedBy (after.flatMap leftBehind ++ n.leading.keepCommented))) :=
  ⟨fun _ h => (remove_eq_ok_iff.1 h).legible_iff hs, fun h => legible_iff_of_removeAll h hs⟩

/-- The modifiers of `public // a`, `static // b` and `class` on three lines.  The line end after
`static` stands in front of `class`. -/
def notedModifiers : Stretch where
  previous := none
  tokens :=
    [⟨.modifier .publicKw, "public", [], [.space, ⟨.singleLineComment, "// a"⟩, .lineFeed]⟩,
      ⟨.modifier .staticKw, "static", [], [.space, ⟨.singleLineComment, "// b"⟩]⟩]
  next := some ⟨.keyword, "class", [.lineFeed], []⟩

/-- Either of the two modifiers may go, but without both of them `class` is in a comment. -/
theorem removal_legible_iff_notedModifiers : notedModifiers.Legible ∧
    (∃ s', notedModifiers.remove 0 = .ok s' ∧ s'.Legible) ∧
    (∃ s', notedModifiers.remove 1 = .ok s' ∧ s'.Legible) ∧
    ∃ s', notedModifiers.removeAll = .ok s' ∧ ¬ s'.Legible := by
  have hs : notedModifiers.Legible := by decide
  refine ⟨hs, ⟨_, rfl, ?_⟩, ⟨_, rfl, ?_⟩, _, rfl, fun h => ?_⟩
  · refine ((removal_legible_iff hs).1 0 rfl).2 ⟨?_, fun b t f h => ?_⟩
    · rintro - t f after hsplit
      cases hsplit
      exact .inl rfl
    · exact absurd h (not_inARow_zero b t f)
  · refine ((removal_legible_iff hs).1 1 rfl).2 ⟨nofun, ?_⟩
    rintro b t f ⟨k, hk, hb, -⟩
    obtain rfl := Nat.succ.inj hk
    cases hb
    exact .inl rfl
  · have hended := ((removal_legible_iff hs).2 rfl).1 h _ [] _ ⟨[_], rfl⟩ rfl
    revert hended
    decide

/-- The modifier of `static // b` with `class` on the next line. -/
def notedStatic : Stretch := { notedModifiers with tokens := notedModifiers.tokens.tail }

/-- A removal may let a line comment swallow a word, of one token and of all. -/
theorem removal_swallows_word :
    (¬ ∀ (s s' : Stretch) (index : Nat), s.Legible → s.remove index = .ok s' → s'.Legible) ∧
    ¬ ∀ s s' : Stretch, s.Legible → s.removeAll = .ok s' → s'.Legible := by
  have hs : notedStatic.Legible := by decide
  refine ⟨fun h => ?_, fun h => ?_⟩
  · have hswallowed := h notedStatic _ 0 hs rfl
    revert hswallowed
    decide
  · have hswallowed := h notedStatic _ hs rfl
    revert hswallowed
    decide

end Stretch

end DeclStyle
