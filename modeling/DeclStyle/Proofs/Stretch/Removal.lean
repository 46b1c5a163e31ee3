import DeclStyle.Proofs.Edit.Document

/-!
# Removing tokens

What becomes of a stretch and its neighbours when tokens are removed from it.

* `Stretch.Removal` — the five things that the removal of one token can do, each with the token that
  takes over what is left behind.  It says of `Stretch.remove` exactly when it succeeds and with
  what result (`remove_eq_ok_iff`);
* `Stretch.RemovalOfAll` — the same for the removal of all tokens (`removalOfAll_of_removeAll`);
* `Stretch.RemovesOnly` — the tokens that a mask marks `true` remain, and of the rest of the
  document only blank trivia go.  The removal of one token and that of all tokens do no more than
  that (`removesOnly_of_remove`, `removesOnly_of_removeAll`);
* `Stretch.removeMatching_induction` — induction over the removal of the tokens that pass a test,
  with one case for the removal of one token.
-/

namespace DeclStyle

/-! ## The pieces around a removed token -/

namespace Token

@[simp] theorem word_withInFront (t : Token) (run : TriviaRun) :
    (t.withInFront run).word = t.word := rfl

@[simp] theorem word_withBehind (t : Token) (run : TriviaRun) :
    (t.withBehind run).word = t.word := rfl

/-- What is left of a token that stood first is the token less its word and some blanks. -/
theorem blanksDropped_leftBehindFirst (t : Token) :
    BlanksDropped (t.piecesIf false) t.leftBehindFirst.pieces := by
  simp only [piecesIf, leftBehindFirst, TriviaRun.pieces_append, Bool.false_eq_true, if_false,
    List.append_nil]
  exact (BlanksDropped.refl _).append (.keepCommented _)

/-- What is left of a token that stood behind another is the token less its word and some
blanks. -/
theorem blanksDropped_leftBehind (t : Token) :
    BlanksDropped (t.piecesIf false) t.leftBehind.pieces := by
  simp only [piecesIf, leftBehind, TriviaRun.pieces_append, Bool.false_eq_true, if_false,
    List.append_nil]
  exact (BlanksDropped.keepCommented _).append (.keepCommented _)

/-- Pieces that end up in a run put in front of a token cost no more than blanks. -/
theorem blanksDropped_withInFront {ps : List Piece} {run : TriviaRun}
    (h : BlanksDropped ps run.pieces) (n : Token) (kept : Bool) :
    BlanksDropped (ps ++ n.piecesIf kept) ((n.withInFront run).piecesIf kept) := by
  simp only [piecesIf, withInFront, word, TriviaRun.pieces_append, List.append_assoc]
  exact h.append ((BlanksDropped.keepCommented _).append (.refl _))

/-- Pieces that end up in a run put behind a token cost no more than blanks. -/
theorem blanksDropped_withBehind {ps : List Piece} {run : TriviaRun}
    (h : BlanksDropped ps run.pieces) (p : Token) (kept : Bool) :
    BlanksDropped (p.piecesIf kept ++ ps) ((p.withBehind run).piecesIf kept) := by
  simp only [piecesIf, withBehind, word, TriviaRun.pieces_append, List.append_assoc]
  exact (BlanksDropped.refl _).append
    ((BlanksDropped.refl _).append ((BlanksDropped.refl _).append h))

end Token

namespace Stretch

/-! ## The removal of one token -/

/-- What the removal of the token at a position makes of a stretch. -/
inductive Removal : Stretch → Nat → Stretch → Prop where
  /-- What is left of the only token goes in front of the token after the stretch. -/
  | ontoNext (previous : Option Token) (t n : Token) :
      Removal ⟨previous, [t], some n⟩ 0 ⟨previous, [], some (n.withInFront t.leftBehindFirst)⟩
  /-- With no token after the stretch, it goes behind the token before. -/
  | ontoPrevious (p t : Token) :
      Removal ⟨some p, [t], none⟩ 0 ⟨some (p.withBehind t.leftBehind), [], none⟩
  /-- With no neighbour at all, there must be nothing left. -/
  | vanish (t : Token) (h : t.leftBehind = []) : Removal ⟨none, [t], none⟩ 0 ⟨none, [], none⟩
  /-- What is left of the first of several tokens goes in front of the second. -/
  | ontoFollower (previous : Option Token) (t f : Token) (rest : List Token) (next : Option Token) :
      Removal ⟨previous, t :: f :: rest, next⟩ 0
        ⟨previous, f.withInFront t.leftBehindFirst :: rest, next⟩
  /-- What is left of a later token goes behind the one before it. -/
  | ontoPreceding (previous : Option Token) (before : List Token) (b t : Token)
      (after : List Token) (next : Option Token) :
      Removal ⟨previous, before ++ b :: t :: after, next⟩ (before.length + 1)
        ⟨previous, before ++ b.withBehind t.leftBehind :: after, next⟩

/-- A position behind the first one has a token right before it. -/
theorem exists_append_cons_cons {tokens : List Token} {k : Nat} (h : k + 1 < tokens.length) :
    ∃ before b t after, tokens = before ++ b :: t :: after ∧ before.length = k := by
  refine ⟨tokens.take k, tokens[k], tokens[k + 1], tokens.drop (k + 2), ?_, ?_⟩
  · rw [List.getElem_cons_drop, List.getElem_cons_drop, List.take_append_drop]
  · exact List.length_take_of_le (by omega)

theorem remove_of_removal {s s' : Stretch} {index : Nat} (h : Removal s index s') :
    s.remove index = .ok s' := by
  cases h with
  | ontoNext previous t n => rfl
  | ontoPrevious p t => rfl
  | vanish t h => simp [remove, removeSole, h]
  | ontoFollower previous t f rest next => simp [remove]
  | ontoPreceding previous before b t after next =>
    have hget : (before ++ b :: t :: after)[before.length + 1]? = some t := by
      rw [List.getElem?_append_right (Nat.le_succ _)]
      simp
    have herase :
        (before ++ b :: t :: after).eraseIdx (before.length + 1) = before ++ b :: after := by
      rw [List.eraseIdx_append_of_length_le (Nat.le_succ _)]
      simp
    have hmodify : (before ++ b :: after).modify before.length (·.withBehind t.leftBehind) =
        before ++ b.withBehind t.leftBehind :: after := by
      rw [List.modify_eq_take_cons_drop (by simp)]
      simp
    simp only [remove, hget, herase, Nat.add_sub_cancel, hmodify]
    rw [if_neg (by simp; omega), if_neg (Nat.succ_ne_zero _)]

theorem removal_of_remove {s s' : Stretch} {index : Nat} (h : s.remove index = .ok s') :
    Removal s index s' := by
  -- it is enough to find some removal, since there is only one result
  suffices hr : ∃ r, Removal s index r by
    obtain ⟨r, hr⟩ := hr
    obtain rfl := Except.ok.inj ((remove_of_removal hr).symm.trans h)
    exact hr
  obtain ⟨previous, tokens, next⟩ := s
  cases ht : tokens[index]? with
  | none => simp [remove, ht] at h
  | some t =>
    obtain ⟨hlt, -⟩ := List.getElem?_eq_some_iff.1 ht
    cases index with
    | succ k =>
      obtain ⟨before, b, t, after, rfl, rfl⟩ := exists_append_cons_cons hlt
      exact ⟨_, .ontoPreceding previous before b t after next⟩
    | zero =>
      obtain ⟨t, rest, rfl⟩ := List.exists_cons_of_length_pos hlt
      cases rest with
      | cons f rest => exact ⟨_, .ontoFollower previous t f rest next⟩
      | nil =>
        cases next with
        | some n => exact ⟨_, .ontoNext previous t n⟩
        | none =>
          cases previous with
          | some p => exact ⟨_, .ontoPrevious p t⟩
          | none =>
            by_cases hleft : t.leftBehind = []
            · exact ⟨_, .vanish t hleft⟩
            · simp [remove, removeSole, hleft] at h

/-- **Removing one token** succeeds exactly in the five cases, with exactly their results. -/
theorem remove_eq_ok_iff {s s' : Stretch} {index : Nat} :
    s.remove index = .ok s' ↔ Removal s index s' :=
  ⟨removal_of_remove, remove_of_removal⟩

/-! ## What a removal keeps -/

/-- The pieces of a stretch and its neighbours in document order. -/
def pieces (s : Stretch) : List Piece := Token.piecesOfAll s.allTokens

/-- The pieces of a stretch and its neighbours, less the words of the tokens of the stretch that a
mask marks `false`. -/
def piecesKept (mask : List Bool) (s : Stretch) : List Piece :=
  Token.piecesOfAll s.previous.toList ++ Token.piecesKept mask s.tokens ++
    Token.piecesOfAll s.next.toList

/-- Of the tokens of a stretch those marked `true` remain, the neighbours remain, and the document
loses the words of the other tokens and some blank trivia. -/
structure RemovesOnly (mask : List Bool) (s s' : Stretch) : Prop where
  length_mask : mask.length = s.tokens.length
  words : s'.tokens.map Token.word = Token.wordsKept mask s.tokens
  previous : s'.previous.map Token.word = s.previous.map Token.word
  next : s'.next.map Token.word = s.next.map Token.word
  pieces : BlanksDropped (s.piecesKept mask) s'.pieces

theorem piecesKept_replicate_true (s : Stretch) :
    s.piecesKept (List.replicate s.tokens.length true) = s.pieces := by
  simp [piecesKept, pieces, allTokens, Token.piecesKept_replicate_true]

theorem RemovesOnly.refl (s : Stretch) :
    RemovesOnly (List.replicate s.tokens.length true) s s where
  length_mask := List.length_replicate
  words := (Token.wordsKept_replicate_true s.tokens).symm
  previous := rfl
  next := rfl
  pieces := s.piecesKept_replicate_true ▸ BlanksDropped.refl _

/-- Words and comments stay where they are, those of the given-up tokens aside. -/
theorem RemovesOnly.contents_eq {mask : List Bool} {s s' : Stretch} (h : RemovesOnly mask s s') :
    Piece.contents s'.pieces = Piece.contents (s.piecesKept mask) :=
  h.pieces.contents_eq

/-- A removal gives a stretch no neighbour that it had not. -/
theorem RemovesOnly.previous_eq_none {mask : List Bool} {s s' : Stretch}
    (h : RemovesOnly mask s s') (hs : s.previous = none) : s'.previous = none := by
  simpa [hs] using h.previous

theorem RemovesOnly.isSome_next {mask : List Bool} {s s' : Stretch} (h : RemovesOnly mask s s') :
    s'.next.isSome = s.next.isSome := by
  simpa using congrArg Option.isSome h.next

namespace Removal

variable {s s' : Stretch} {index : Nat}

theorem length_eq (h : Removal s index s') : s.tokens.length = s'.tokens.length + 1 := by
  cases h <;> simp
  omega

theorem index_lt (h : Removal s index s') : index < s.tokens.length := by
  cases h <;> simp

theorem previous_eq (h : Removal s index s') :
    s'.previous.map Token.word = s.previous.map Token.word := by
  cases h <;> rfl

theorem next_eq (h : Removal s index s') : s'.next.map Token.word = s.next.map Token.word := by
  cases h <;> rfl

/-- The other tokens keep their words, whichever of them are given up later. -/
theorem wordsKept_eq (h : Removal s index s') {low high : List Bool} (hlow : low.length = index)
    (hhigh : low.length + high.length = s'.tokens.length) :
    Token.wordsKept (low ++ high) s'.tokens =
      Token.wordsKept (low ++ false :: high) s.tokens := by
  cases h with
  | ontoPreceding previous before b t after next =>
    obtain rfl | ⟨low, kept, rfl⟩ := List.eq_nil_or_concat low
    · simp at hlow
    · have hlow' : low.length = before.length := by simpa using hlow
      simp only [List.concat_eq_append, List.append_assoc, List.singleton_append]
      rw [Token.wordsKept_append hlow', Token.wordsKept_append hlow']
      simp
  | ontoFollower previous t f rest next =>
    obtain rfl := List.length_eq_zero_iff.1 hlow
    cases high with
    | nil => simp at hhigh
    | cons kept high => simp
  | _ =>
    obtain rfl := List.length_eq_zero_iff.1 hlow
    obtain rfl := List.length_eq_zero_iff.1 (by simpa using hhigh : high.length = 0)
    simp

/-- The document loses the word of the token and some blanks, whichever of the other words are
given up later. -/
theorem blanksDropped (h : Removal s index s') {low high : List Bool} (hlow : low.length = index)
    (hhigh : low.length + high.length = s'.tokens.length) :
    BlanksDropped (s.piecesKept (low ++ false :: high)) (s'.piecesKept (low ++ high)) := by
  cases h with
  | ontoPreceding previous before b t after next =>
    obtain rfl | ⟨low, kept, rfl⟩ := List.eq_nil_or_concat low
    · simp at hlow
    · have hlow' : low.length = before.length := by simpa using hlow
      have hmoved := Token.blanksDropped_withBehind t.blanksDropped_leftBehind b kept
      simp only [piecesKept, List.concat_eq_append, List.append_assoc, List.singleton_append]
      rw [Token.piecesKept_append hlow', Token.piecesKept_append hlow']
      simp only [Token.piecesKept_cons, List.append_assoc]
      refine (BlanksDropped.refl _).append ((BlanksDropped.refl _).append ?_)
      rw [← List.append_assoc]
      exact hmoved.append (.refl _)
  | ontoFollower previous t f rest next =>
    obtain rfl := List.length_eq_zero_iff.1 hlow
    cases high with
    | nil => simp at hhigh
    | cons kept high =>
      have hmoved := Token.blanksDropped_withInFront t.blanksDropped_leftBehindFirst f kept
      simp only [piecesKept, List.nil_append, Token.piecesKept_cons, ← List.append_assoc]
      rw [List.append_assoc _ (t.piecesIf false)]
      exact (((BlanksDropped.refl _).append hmoved).append (.refl _)).append (.refl _)
  | ontoNext previous t n =>
    obtain rfl := List.length_eq_zero_iff.1 hlow
    obtain rfl := List.length_eq_zero_iff.1 (by simpa using hhigh : high.length = 0)
    have hmoved := Token.blanksDropped_withInFront t.blanksDropped_leftBehindFirst n true
    have hall := (BlanksDropped.refl (Token.piecesOfAll previous.toList)).append hmoved
    simpa [piecesKept, Token.pieces] using hall
  | ontoPrevious p t =>
    obtain rfl := List.length_eq_zero_iff.1 hlow
    obtain rfl := List.length_eq_zero_iff.1 (by simpa using hhigh : high.length = 0)
    have hmoved := Token.blanksDropped_withBehind t.blanksDropped_leftBehind p true
    simpa [piecesKept, Token.pieces] using hmoved
  | vanish t hleft =>
    obtain rfl := List.length_eq_zero_iff.1 hlow
    obtain rfl := List.length_eq_zero_iff.1 (by simpa using hhigh : high.length = 0)
    simpa [piecesKept, hleft] using t.blanksDropped_leftBehind

end Removal

/-- A removal followed by others that keep to a mask. -/
theorem RemovesOnly.of_removal {s s₁ s' : Stretch} {low high : List Bool}
    (h : Removal s low.length s₁) (h' : RemovesOnly (low ++ high) s₁ s') :
    RemovesOnly (low ++ false :: high) s s' := by
  have hlength : low.length + high.length = s₁.tokens.length := by
    simpa using h'.length_mask
  refine ⟨?_, ?_, ?_, ?_, ?_⟩
  · rw [List.length_append, List.length_cons, h.length_eq]
    omega
  · rw [h'.words, h.wordsKept_eq rfl hlength]
  · rw [h'.previous, h.previous_eq]
  · rw [h'.next, h.next_eq]
  · exact (h.blanksDropped rfl hlength).trans h'.pieces

/-- The mask that gives up one of a number of tokens. -/
theorem set_replicate_eq {n i : Nat} (h : i < n) :
    (List.replicate n true).set i false =
      List.replicate i true ++ false :: List.replicate (n - (i + 1)) true := by
  rw [List.set_eq_take_append_cons_drop, if_pos (by simpa using h), List.take_replicate,
    List.drop_replicate, Nat.min_eq_left (Nat.le_of_lt h)]

/-- The removal of one token gives up its word and some blanks. -/
theorem removesOnly_of_remove {s s' : Stretch} {index : Nat} (h : s.remove index = .ok s') :
    RemovesOnly ((List.replicate s.tokens.length true).set index false) s s' := by
  have hr := remove_eq_ok_iff.1 h
  have hlt := hr.index_lt
  rw [set_replicate_eq hlt]
  refine RemovesOnly.of_removal (by simpa using hr) ?_
  have hlength : index + (s.tokens.length - (index + 1)) = s'.tokens.length := by
    have := hr.length_eq
    omega
  rw [List.replicate_append_replicate, hlength]
  exact RemovesOnly.refl s'

/-! ## Removing all tokens -/

/-- Induction over what is left of all tokens: it is what is left of each, in their order, and the
first one leaves more than a later one would. -/
theorem leftBehindAll_induction {P : List Token → TriviaRun → Prop} (hnil : P [] [])
    (hfirst : ∀ t ts run, P ts run → P (t :: ts) (t.leftBehindFirst ++ run))
    (hlater : ∀ t ts run, P ts run → P (t :: ts) (t.leftBehind ++ run)) (ts : List Token) :
    P ts (leftBehindAll ts) := by
  have hrest : ∀ ts : List Token, P ts (ts.flatMap Token.leftBehind) := by
    intro ts
    induction ts with
    | nil => exact hnil
    | cons t ts ih => exact hlater t ts _ ih
  cases ts with
  | nil => exact hnil
  | cons t ts => exact hfirst t ts _ (hrest ts)

/-- What is left of all tokens are the tokens less their words and some blanks. -/
theorem blanksDropped_leftBehindAll (ts : List Token) :
    BlanksDropped (Token.piecesKept (List.replicate ts.length false) ts)
      (leftBehindAll ts).pieces := by
  refine leftBehindAll_induction
    (P := fun ts run => BlanksDropped (Token.piecesKept (List.replicate ts.length false) ts)
      run.pieces) .nil ?_ ?_ ts
  · intro t ts run ih
    rw [List.length_cons, List.replicate_succ, Token.piecesKept_cons, TriviaRun.pieces_append]
    exact t.blanksDropped_leftBehindFirst.append ih
  · intro t ts run ih
    rw [List.length_cons, List.replicate_succ, Token.piecesKept_cons, TriviaRun.pieces_append]
    exact t.blanksDropped_leftBehind.append ih

theorem wordsKept_replicate_false (ts : List Token) :
    Token.wordsKept (List.replicate ts.length false) ts = [] := by
  induction ts with
  | nil => rfl
  | cons t ts ih =>
    rw [List.length_cons, List.replicate_succ, Token.wordsKept_cons, ih]
    rfl

/-- What the removal of all tokens makes of a stretch. -/
inductive RemovalOfAll : Stretch → Stretch → Prop where
  /-- Where there are none, nothing changes. -/
  | nothing (previous next : Option Token) : RemovalOfAll ⟨previous, [], next⟩ ⟨previous, [], next⟩
  /-- What is left of the tokens goes in front of the token after the stretch. -/
  | ontoNext (previous : Option Token) (t : Token) (rest : List Token) (n : Token) :
      RemovalOfAll ⟨previous, t :: rest, some n⟩
        ⟨previous, [], some (n.withInFront (leftBehindAll (t :: rest)))⟩
  /-- With no token after the stretch, what is left of an only token goes behind the one before. -/
  | soleOntoPrevious (p t : Token) :
      RemovalOfAll ⟨some p, [t], none⟩ ⟨some (p.withBehind t.leftBehind), [], none⟩
  /-- So does what is left of several, the run in front of the first being kept whole. -/
  | ontoPrevious (p t u : Token) (rest : List Token) :
      RemovalOfAll ⟨some p, t :: u :: rest, none⟩
        ⟨some (p.withBehind (leftBehindAll (t :: u :: rest))), [], none⟩
  /-- With no neighbour at all, there must be no more left than blanks. -/
  | vanish (ts : List Token) (h : (leftBehindAll ts).isBlank) :
      RemovalOfAll ⟨none, ts, none⟩ ⟨none, [], none⟩

/-- A token that leaves nothing behind another leaves no more than blanks where it stood first. -/
theorem isBlank_leftBehindAll_singleton {t : Token} (h : t.leftBehind = []) :
    (leftBehindAll [t]).isBlank := by
  rw [Token.leftBehind, List.append_eq_nil_iff, TriviaRun.keepCommented_eq_nil_iff] at h
  obtain ⟨hleading, htrailing⟩ := h
  simp [leftBehindAll, Token.leftBehindFirst, hleading, htrailing]

/-- **Removing all tokens** succeeds in these cases only, with their results. -/
theorem removalOfAll_of_removeAll {s s' : Stretch} (h : s.removeAll = .ok s') :
    RemovalOfAll s s' := by
  obtain ⟨previous, tokens, next⟩ := s
  match tokens, next, previous with
  | [], next, previous =>
    obtain rfl := Except.ok.inj h
    exact .nothing previous next
  | [t], some n, previous =>
    have hleft : t.leftBehindFirst = leftBehindAll [t] := (List.append_nil _).symm
    obtain rfl := Except.ok.inj h
    rw [hleft]
    exact .ontoNext previous t [] n
  | [t], none, some p =>
    obtain rfl := Except.ok.inj h
    exact .soleOntoPrevious p t
  | [t], none, none =>
    have hsole : removeSole ⟨none, [t], none⟩ t = .ok s' := h
    simp only [removeSole] at hsole
    split at hsole
    · rename_i hleft
      obtain rfl := Except.ok.inj hsole
      exact .vanish [t] (isBlank_leftBehindAll_singleton (List.isEmpty_iff.1 hleft))
    · cases hsole
  | t :: u :: rest, some n, previous =>
    obtain rfl := Except.ok.inj h
    exact .ontoNext previous t (u :: rest) n
  | t :: u :: rest, none, some p =>
    obtain rfl := Except.ok.inj h
    exact .ontoPrevious p t u rest
  | t :: u :: rest, none, none =>
    simp only [removeAll] at h
    split at h
    · rename_i hblank
      obtain rfl := Except.ok.inj h
      exact .vanish (t :: u :: rest) hblank
    · cases h

/-- The removal of all tokens gives up their words and some blanks. -/
theorem removesOnly_of_removeAll {s s' : Stretch} (h : s.removeAll = .ok s') :
    RemovesOnly (List.replicate s.tokens.length false) s s' := by
  have hleft := blanksDropped_leftBehindAll s.tokens
  have hwords := (wordsKept_replicate_false s.tokens).symm
  cases removalOfAll_of_removeAll h with
  | nothing previous next => exact RemovesOnly.refl ⟨previous, [], next⟩
  | ontoNext previous t rest n =>
    refine ⟨List.length_replicate, hwords, rfl, rfl, ?_⟩
    have hmoved := Token.blanksDropped_withInFront hleft n true
    have hall := (BlanksDropped.refl (Token.piecesOfAll previous.toList)).append hmoved
    simpa [piecesKept, pieces, allTokens, Token.pieces] using hall
  | soleOntoPrevious p t => exact removesOnly_of_remove (remove_of_removal (.ontoPrevious p t))
  | ontoPrevious p t u rest =>
    refine ⟨List.length_replicate, hwords, rfl, rfl, ?_⟩
    have hmoved := Token.blanksDropped_withBehind hleft p true
    simpa [piecesKept, pieces, allTokens, Token.pieces] using hmoved
  | vanish ts hblank =>
    refine ⟨List.length_replicate, hwords, rfl, rfl, ?_⟩
    simpa [piecesKept, pieces, allTokens] using hleft.trans (.of_isBlank hblank)

/-! ## Removing the tokens that pass a test -/

/-- **Induction over a removal by a test.**  What holds of a stretch and itself, and goes back over
the removal of one token, holds of a stretch and what a removal by a test makes of it. -/
theorem removeMatching_induction {p : Token → Bool} {R : Stretch → Stretch → Prop}
    (hrefl : ∀ s, R s s)
    (hstep : ∀ s s₁ s' index, s.remove index = .ok s₁ → R s₁ s' → R s s')
    {s s' : Stretch} (h : s.removeMatching p = .ok s') : R s s' := by
  have hbefore : ∀ count s, removeMatchingBefore p count s = .ok s' → R s s' := by
    intro count
    induction count with
    | zero =>
      intro s h
      obtain rfl := Except.ok.inj h
      exact hrefl s
    | succ count ih =>
      intro s h
      rw [removeMatchingBefore] at h
      split at h
      · obtain ⟨s₁, hfirst, hrest⟩ := bind_eq_ok_iff.1 h
        exact hstep s s₁ s' count hfirst (ih s₁ hrest)
      · exact ih s h
  exact hbefore s.tokens.length s h

end Stretch

end DeclStyle
