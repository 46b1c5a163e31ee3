import DeclStyle.Proofs.Stretch.Failure

/-!
# Modifiers removed by a test

Each modifier is judged when its turn comes, the last one first.  By then it may bear a comment that
another one has left behind, so that a test of comments can take a modifier that had none.

* `Declaration.removeMatching_judges_in_turn` — which tokens of a stretch, or modifiers of a
  signature or of a declaration, remain, and when these are the ones that did not pass the test at
  first;
* `Declaration.removeMatching_misjudges_commentedStatic` — they are not always.
-/

namespace DeclStyle

namespace Signature

open Token

theorem words_of_removeMatching_inTurn {p : Token → Bool} {s s' : Signature}
    (h : s.removeMatching p = .ok s') :
    s'.modifiers.map word = (leftInTurn p s.modifiers).map word := by
  obtain ⟨edited, hedit, rfl⟩ := editStretch_eq_ok_iff.1 h
  rw [modifiers_store]
  exact Stretch.words_of_removeMatching_inTurn hedit

end Signature

namespace Declaration

open Token

/-- **A removal by a test judges each token when its turn comes.**  The tokens that do not pass it
then are the ones that remain, by their words and in order, be they tokens of a stretch, or the
modifiers of a signature or of a declaration.  Up to then nothing but the trivia of a token changes.
Where the verdicts are the same as they would have been at first, these are the tokens that did not
pass the test at first.  A verdict is another one only if the token right behind goes and has a
comment by then, and never if the test does not heed what is put behind a token. -/
theorem removeMatching_judges_in_turn (p : Token → Bool) :
    (∀ s s' : Stretch, s.removeMatching p = .ok s' →
      s'.tokens.map word = (leftInTurn p s.tokens).map word) ∧
    (∀ s s' : Signature, s.removeMatching p = .ok s' →
      s'.modifiers.map word = (leftInTurn p s.modifiers).map word) ∧
    (∀ d e : Declaration, d.removeMatching p = .ok e →
      e.modifiers.map word = (leftInTurn p d.modifiers).map word) ∧
    ∀ ts : List Token, (inTurn p ts).map word = ts.map word ∧
      ((inTurn p ts).map p = ts.map p →
        (leftInTurn p ts).map word = (ts.filter (!p ·)).map word) ∧
      (∀ (i : Nat) (t t' : Token), ts[i]? = some t → (inTurn p ts)[i]? = some t' → p t' ≠ p t →
        ∃ u, (inTurn p ts)[i + 1]? = some u ∧ p u ∧ u.comments ≠ []) ∧
      ((∀ t ∈ ts, ∀ run, p (t.withBehind run) = p t) → (inTurn p ts).map p = ts.map p) := by
  refine ⟨?_, ?_, ?_, fun ts => ⟨words_inTurn p ts, words_leftInTurn, ?_, ?_⟩⟩
  · intro s s' h
    exact Stretch.words_of_removeMatching_inTurn h
  · intro s s' h
    exact Signature.words_of_removeMatching_inTurn h
  · intro d e h
    obtain ⟨s, s', hs, hs', rfl⟩ := editSignature_eq_ok_iff.1 h
    rw [modifiers_withSignature (by simp [hs]), modifiers_eq hs]
    exact Signature.words_of_removeMatching_inTurn hs'
  · intro i t t' ht ht' hdiffer
    obtain ⟨u, hu, hgoes, hleft⟩ := exists_leftBehind_of_judged_differently ht ht' hdiffer
    exact ⟨u, hu, hgoes, fun hnone => hleft (u.leftBehind_eq_nil_iff.2 hnone)⟩
  · intro h
    exact verdicts_inTurn_of_heedless h

/-- The modifiers of `public static /* a */ int`, with that type behind them. -/
def commentedStatic : Signature :=
  ⟨[.bare (.modifier .publicKw) "public",
      ⟨.modifier .staticKw, "static", [.space], [.space, ⟨.multiLineComment, "/* a */"⟩]⟩],
    [.bare .identifier "int"], none⟩

/-- The comment behind `static` takes `public` along, which had none.  A test of what stands in
front of a token is safe from it. -/
theorem removeMatching_judges_in_turn_commentedStatic :
    (∃ s', commentedStatic.removeMatching (fun t => !t.comments.isEmpty) = .ok s' ∧
      s'.modifiers.map word = []) ∧
    (∃ s', commentedStatic.removeMatching (fun t => !t.leading.isEmpty) = .ok s' ∧
      s'.modifiers.map word = [.word (.modifier .publicKw) "public"]) ∧
    ∃ u, (inTurn (fun t => !t.comments.isEmpty) commentedStatic.modifiers)[1]? = some u ∧
      u.comments ≠ [] := by
  obtain ⟨-, hcomments, -, htokens⟩ := removeMatching_judges_in_turn fun t => !t.comments.isEmpty
  obtain ⟨-, hleading, -, hsafe⟩ := removeMatching_judges_in_turn fun t => !t.leading.isEmpty
  obtain ⟨-, hwords, -, hheedless⟩ := hsafe commentedStatic.modifiers
  obtain ⟨u, hu, -, hcomment⟩ :=
    (htokens commentedStatic.modifiers).2.2.1 0 _ _ rfl rfl (by decide)
  exact ⟨⟨_, rfl, hcomments commentedStatic _ rfl⟩,
    ⟨_, rfl, (hleading commentedStatic _ rfl).trans (hwords (hheedless fun _ _ _ => rfl))⟩,
    u, hu, hcomment⟩

/-- A removal by a test need not leave the tokens that did not pass it at first: not on a stretch,
nor on a signature, nor on a declaration. -/
theorem removeMatching_misjudges_commentedStatic :
    (¬ ∀ (p : Token → Bool) (s s' : Stretch), s.removeMatching p = .ok s' →
      s'.tokens.map word = (s.tokens.filter (!p ·)).map word) ∧
    (¬ ∀ (p : Token → Bool) (s s' : Signature), s.removeMatching p = .ok s' →
      s'.modifiers.map word = (s.modifiers.filter (!p ·)).map word) ∧
    (¬ ∀ (p : Token → Bool) (d e : Declaration), d.removeMatching p = .ok e →
      e.modifiers.map word = (d.modifiers.filter (!p ·)).map word) := by
  have hpublic : [Piece.word (.modifier .publicKw) "public"] ≠ [] := List.cons_ne_nil _ _
  refine ⟨fun h => hpublic ?_, fun h => hpublic ?_, fun h => hpublic ?_⟩
  · exact (h (fun t => !t.comments.isEmpty) commentedStatic.stretch _ rfl).symm
  · exact (h (fun t => !t.comments.isEmpty) commentedStatic _ rfl).symm
  · exact (h (fun t => !t.comments.isEmpty) (.plain .field commentedStatic) _ rfl).symm

end Declaration

end DeclStyle
