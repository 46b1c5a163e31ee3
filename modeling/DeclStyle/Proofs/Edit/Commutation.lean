import DeclStyle.Members
import DeclStyle.Proofs.Edit.Gaps
import DeclStyle.Proofs.Edit.Keywords

/-!
# Insertions by rank commute

Two newly made modifiers of different ranks, or two members of different ranks, may be inserted one
after the other in either order.  The first one may move the place of the second or become its
anchor, and it may take over trivia that the second would have got; none of this can be seen in the
end.  The list need not be in order.

* `Signature.insertKind_insertKind` — what two modifiers make of the words and gaps of a signature;
* `Signature.insertKind_comm`, `Members.insert_comm` — two modifiers, or two members, in either
  order;
* `Declaration.ranked_insertions_commute` — both, the modifiers being those of a declaration.
-/

namespace DeclStyle

/-! ## Modifiers -/

namespace Signature

open Token

variable {s s₁ s₂ : Signature} {k k' : ModifierKind}

/-- Two newly made modifiers come into a signature as two words, each with a space behind it, and
the text in front of the first word stays. -/
theorem insertKind_insertKind (h : s.insertKind k none = .ok s₁)
    (h' : s₁.insertKind k' none = .ok s₂) :
    s₂.modifiers.map word =
        ((s.modifiers.map word).insertIdx
          (Placement.byRank (s.modifiers.map Token.rank) k.rank) (fresh k).word).insertIdx
            (Placement.byRankAfter (s.modifiers.map Token.rank) k.rank k'.rank) (fresh k').word ∧
      gappedWords s₂.allTokens =
        ((gappedWords s.allTokens).insertIdx
          (Placement.byRank (s.modifiers.map Token.rank) k.rank) ⟨(fresh k).word, " "⟩).insertIdx
            (Placement.byRankAfter (s.modifiers.map Token.rank) k.rank k'.rank)
            ⟨(fresh k').word, " "⟩ ∧
      textInFront s₂.allTokens = textInFront s.allTokens := by
  have hranks : s₁.modifiers.map Token.rank = (s.modifiers.map Token.rank).insertIdx
      (Placement.byRank (s.modifiers.map Token.rank) k.rank) k.rank :=
    map_modifiers_insert ignoresTrivia_rank h
  have hplace : placeOf s₁.modifiers (fresh k') none =
      Placement.byRankAfter (s.modifiers.map Token.rank) k.rank k'.rank := by
    rw [Placement.byRankAfter, ← hranks]
    rfl
  obtain ⟨hgaps, hfront⟩ := gappedWords_insertKind h
  obtain ⟨hgaps', hfront'⟩ := gappedWords_insertKind h'
  refine ⟨?_, ?_, hfront'.trans hfront⟩
  · rw [map_modifiers_insert ignoresTrivia_word h', map_modifiers_insert ignoresTrivia_word h,
      Option.map_none, hplace]
    rfl
  · rw [hgaps', hgaps, Option.map_none, hplace]
    rfl

/-- **Two newly made modifiers** of different ranks may be inserted in either order: the words of
the modifiers and the text of the signature are the same in the end. -/
theorem insertKind_comm {s₁' s₂' : Signature} (hne : k.rank ≠ k'.rank)
    (h : s.insertKind k none = .ok s₁ ∧ s₁.insertKind k' none = .ok s₂)
    (h' : s.insertKind k' none = .ok s₁' ∧ s₁'.insertKind k none = .ok s₂') :
    s₂.modifiers.map word = s₂'.modifiers.map word ∧
      renderAll s₂.allTokens = renderAll s₂'.allTokens := by
  obtain ⟨hwords, hgaps, hfront⟩ := insertKind_insertKind h.1 h.2
  obtain ⟨hwords', hgaps', hfront'⟩ := insertKind_insertKind h'.1 h'.2
  have hlength : (s.modifiers.map Token.rank).length ≤ (gappedWords s.allTokens).length := by
    rw [List.length_map, length_gappedWords, allTokens, List.length_append]
    exact Nat.le_add_right _ _
  constructor
  · rw [hwords, hwords', Placement.insertIdx_byRank_comm hne (by simp)]
  · rw [renderAll_eq_gappedWords, renderAll_eq_gappedWords, hgaps, hgaps', hfront, hfront',
      Placement.insertIdx_byRank_comm hne hlength]

end Signature

/-! ## Members -/

namespace Members

/-- **Two members** of different ranks may be inserted in either order. -/
theorem insert_comm (members : List Declaration) {a b : Declaration} (hne : a.rank ≠ b.rank) :
    insert (insert members a) b = insert (insert members b) a := by
  simp only [insert, placeOf, placeOfRank, List.map_insertIdx]
  exact Placement.insertIdx_byRank_comm hne (Nat.le_of_eq (List.length_map _)) a b

end Members

/-! ## Declarations -/

namespace Declaration

open Token

/-- Two insertions into a declaration are two insertions into its signature. -/
theorem insertKind_bind_insertKind {d : Declaration} {s s₁ s₂ : Signature} {k k' : ModifierKind}
    (hs : d.signature? = some s)
    (h : s.insertKind k none = .ok s₁ ∧ s₁.insertKind k' none = .ok s₂) :
    (d.insertKind k none >>= (·.insertKind k' none)) = .ok (d.withSignature s₂) := by
  have hsome : d.signature?.isSome := by simp [hs]
  refine bind_eq_ok_iff.2 ⟨d.withSignature s₁, ?_, ?_⟩
  · exact editSignature_eq_ok_iff.2 ⟨s, s₁, hs, h.1, rfl⟩
  · exact editSignature_eq_ok_iff.2 ⟨s₁, s₂, signature?_withSignature hsome s₁, h.2, by simp⟩

/-- **Insertions by rank commute.**  On a declaration that carries modifiers, in whatever order, two
newly made modifiers of different ranks can be inserted one after the other in either order; the
modifiers then have the same words, and the declaration has the same text.  Two members of different
ranks give the same list in either order. -/
theorem ranked_insertions_commute :
    (∀ d : Declaration, d.signature?.isSome → ∀ k k' : ModifierKind, k.rank ≠ k'.rank →
      ∃ e e', (d.insertKind k none >>= (·.insertKind k' none)) = .ok e ∧
        (d.insertKind k' none >>= (·.insertKind k none)) = .ok e' ∧
        e.modifiers.map word = e'.modifiers.map word ∧ e.render = e'.render) ∧
    (∀ (members : List Declaration) (a b : Declaration), a.rank ≠ b.rank →
      Members.insert (Members.insert members a) b =
        Members.insert (Members.insert members b) a) := by
  refine ⟨fun d hd k k' hne => ?_, fun members a b hne => Members.insert_comm members hne⟩
  obtain ⟨s, hs⟩ := Option.isSome_iff_exists.1 hd
  have hpair : ∀ k k' : ModifierKind, ∃ s₁ s₂,
      s.insertKind k none = .ok s₁ ∧ s₁.insertKind k' none = .ok s₂ := by
    intro k k'
    obtain ⟨s₁, hs₁, -⟩ := s.insert_eq_ok (.fresh k) none
    obtain ⟨s₂, hs₂, -⟩ := s₁.insert_eq_ok (.fresh k') none
    exact ⟨s₁, s₂, hs₁, hs₂⟩
  obtain ⟨s₁, s₂, h⟩ := hpair k k'
  obtain ⟨s₁', s₂', h'⟩ := hpair k' k
  obtain ⟨hwords, hrender⟩ := Signature.insertKind_comm hne h h'
  refine ⟨d.withSignature s₂, d.withSignature s₂', insertKind_bind_insertKind hs h,
    insertKind_bind_insertKind hs h', ?_, ?_⟩
  · rw [modifiers_withSignature hd, modifiers_withSignature hd, hwords]
  · rw [render, render, tokens_withSignature hd, tokens_withSignature hd, renderAll_append,
      renderAll_append, hrender]

/-- The method `async public void M`, whose modifiers are out of order. -/
def unsortedMethod : Declaration :=
  .plain .method
    ⟨[⟨.modifier .asyncKw, "async", [⟨.singleLineComment, "// m"⟩, .lineFeed], [.space]⟩,
        ⟨.modifier .publicKw, "public", [], [.space]⟩],
      [⟨.keyword, "void", [], [.space]⟩, .bare .identifier "M"], some 1⟩

/-- Both `const` and `static` go behind `public`, and a constructor and a field go in front of a
method. -/
theorem ranked_insertions_commute_unsortedMethod :
    (∃ e e', (unsortedMethod.insertKind .staticKw none >>= (·.insertKind .constKw none)) = .ok e ∧
      (unsortedMethod.insertKind .constKw none >>= (·.insertKind .staticKw none)) = .ok e' ∧
      e.modifiers.map word = e'.modifiers.map word ∧ e.render = e'.render) ∧
    Members.insert (Members.insert [unsortedMethod] (.plain .constructor default))
        (.plain .field default) =
      Members.insert (Members.insert [unsortedMethod] (.plain .field default))
        (.plain .constructor default) :=
  ⟨ranked_insertions_commute.1 unsortedMethod rfl .staticKw .constKw (by decide),
    ranked_insertions_commute.2 [unsortedMethod] (.plain .constructor default)
      (.plain .field default) (by decide)⟩

end Declaration

end DeclStyle
