import DeclStyle.Proofs.Edit.Comments
import DeclStyle.Proofs.Edit.Keywords

/-!
# Insertions taken back

An insertion hands the trivia in front of the following token on to the new modifier; the removal of
that modifier hands on what it holds to a neighbour.  The two do not mirror each other: where the
modifier stands first, the run goes back to the token that it came from, else it goes to the token
before, and it does so only if it holds a comment.  So a blank run is lost there, and nothing else.

* `Stretch.remove_of_insert_fresh` — the stretch after the removal of what has been inserted;
* `Signature.removeKind_of_insertKind` — a newly made modifier comes in and goes;
* `Declaration.removeKind_undoes_insertKind` — what this leaves of a declaration.
-/

namespace DeclStyle

/-! ## The run that comes back -/

namespace Token

/-- What the removal of a newly made modifier leaves behind a token before it: the run that it has
taken over, if there is a comment in it. -/
theorem leftBehind_added_fresh (kind : ModifierKind) (follower : Option Token) :
    (((fresh kind).added follower).behind (leadingOfAll follower.toList)).leftBehind =
      (leadingOfAll follower.toList).keepCommented := by
  have hspace : TriviaRun.space.keepCommented = [] := rfl
  have helastic : TriviaRun.elastic.keepCommented = [] := rfl
  cases follower with
  | none => rfl
  | some f =>
    obtain ⟨kind', text, run, trailing⟩ := f
    cases run with
    | nil => rfl
    | cons x run =>
      show TriviaRun.keepCommented (x :: run ++ []) ++ TriviaRun.space.keepCommented = _
      rw [hspace, List.append_nil, List.append_nil]
      rfl

/-- What the removal of a newly made modifier leaves in front of the token after it: the run that
the modifier has taken over. -/
theorem render_leftBehindFirst_added_fresh (kind : ModifierKind) (follower : Option Token) :
    (((fresh kind).added follower).behind (leadingOfAll follower.toList)).leftBehindFirst.render =
      (leadingOfAll follower.toList).render := by
  cases follower with
  | none => rfl
  | some f =>
    obtain ⟨kind', text, run, trailing⟩ := f
    cases run with
    | nil => rfl
    | cons x run =>
      show TriviaRun.render (x :: run ++ [] ++ TriviaRun.space.keepCommented) = _
      rw [List.append_nil]
      exact congrArg TriviaRun.render (List.append_nil _)

theorem render_withBehind (t : Token) (run : TriviaRun) :
    (t.withBehind run).render = t.render ++ run.render := by
  simp [withBehind, render, String.append_assoc]

/-- A token that has given up the run in front of it has no other run there. -/
theorem render_strip_withInFront (t : Token) (run : TriviaRun) :
    (t.strip.withInFront run).render = run.render ++ t.strip.render := by
  simp [withInFront, strip, render, String.append_assoc]

end Token

namespace Stretch

open Token

/-- A run that was handed on to a token at a position, as the removal of that token hands it back:
as a whole at the front, else if it holds a comment. -/
def reclaimed (run : TriviaRun) (index : Nat) : TriviaRun :=
  if index = 0 then run else run.keepCommented

/-- **The removal of a newly made modifier that has just been inserted** succeeds, and this is the
text then. -/
theorem remove_of_insert_fresh {s s₁ : Stretch} {kind : ModifierKind} {index : Nat}
    (h : s.insert (.fresh kind) index = .ok s₁) :
    ∃ s₂, s₁.remove index = .ok s₂ ∧
      renderAll s₂.allTokens = renderAll (s.previous.toList ++ s.tokens.take index) ++
        (reclaimed (leadingOfAll (s.follower? index).toList) index).render ++
          renderAll (stripFirst (s.tokens.drop index ++ s.next.toList)) := by
  obtain ⟨before, after, htokens, rfl, rfl⟩ := exists_append_of_insert h
  obtain ⟨previous, tokens, next⟩ := s
  obtain rfl : tokens = before ++ after := htokens
  generalize hfollower : follower? _ before.length = follower
  have hbehind := leftBehind_added_fresh kind follower
  have hfront := render_leftBehindFirst_added_fresh kind follower
  generalize ((fresh kind).added follower).behind (leadingOfAll follower.toList) = new
    at hbehind hfront
  generalize hrun : leadingOfAll follower.toList = run at hbehind hfront ⊢
  rw [List.take_left, List.drop_left]
  obtain rfl | ⟨init, b, rfl⟩ := List.eq_nil_or_concat before
  · -- the new token stands first: the run goes to what follows, if anything does
    cases after with
    | cons f rest =>
      refine ⟨_, remove_of_removal (.ontoFollower previous new f.strip rest next), ?_⟩
      simp [allTokens, reclaimed, stripFirst, render_strip_withInFront, hfront, String.append_assoc]
    | nil =>
      cases next with
      | some n =>
        refine ⟨_, remove_of_removal (.ontoNext previous new n.strip), ?_⟩
        simp [allTokens, reclaimed, stripFirst, render_strip_withInFront, hfront,
          String.append_assoc]
      | none =>
        obtain rfl : none = follower := hfollower
        obtain rfl : [] = run := hrun
        have hleft : new.leftBehind = [] := hbehind
        cases previous with
        | some p =>
          refine ⟨_, remove_of_removal (.ontoPrevious p new), ?_⟩
          simp [allTokens, reclaimed, stripFirst, render_withBehind, hleft]
        | none =>
          refine ⟨_, remove_of_removal (.vanish new hleft), ?_⟩
          simp [allTokens, reclaimed, stripFirst]
  · -- it stands behind another token, which takes over what is commented
    have hplace : (init.concat b).length = init.length + 1 := List.length_concat
    have hremoval := Removal.ontoPreceding previous init b new (stripFirst after)
      (if after.isEmpty then next.map strip else next)
    refine ⟨_, remove_of_removal (by simpa using hremoval), ?_⟩
    have hafter : stripFirst after ++ (if after.isEmpty then next.map strip else next).toList =
        stripFirst (after ++ next.toList) := by
      cases after <;> cases next <;> rfl
    rw [reclaimed, hplace, if_neg (Nat.succ_ne_zero _), ← hafter, ← hbehind]
    simp [allTokens, render_withBehind, String.append_assoc]

/-- A newly made modifier is found where it has been inserted. -/
theorem findIdx?_of_insert_fresh {s s₁ : Stretch} {kind : ModifierKind} {index : Nat}
    (h : s.insert (.fresh kind) index = .ok s₁)
    (hnone : ∀ t ∈ s.tokens, t.isModifier kind = false) :
    s₁.tokens.findIdx? (·.isModifier kind) = some index := by
  obtain ⟨before, after, htokens, rfl, rfl⟩ := exists_append_of_insert h
  have hbefore : before.findIdx? (·.isModifier kind) = none := by
    rw [List.findIdx?_eq_none_iff]
    intro t ht
    exact hnone t (htokens ▸ List.mem_append_left after ht)
  have hnew : ∀ follower run, (((fresh kind).added follower).behind run).isModifier kind := by
    intro follower run
    simp [isModifier, added, behind, fresh]
  rw [List.findIdx?_append, hbefore, List.findIdx?_cons, if_pos (hnew _ _)]
  simp

end Stretch

/-! ## Signatures -/

namespace Signature

open Token

/-- **A newly made modifier comes in and goes**, where there has been none of its kind: both edits
succeed, and this is the signature then. -/
theorem removeKind_of_insertKind {s : Signature} {kind : ModifierKind}
    (hnone : s.hasModifier kind = false) (order : Option (Comparer ModifierKind)) :
    ∃ s₁ s₂, s.insertKind kind order = .ok s₁ ∧ s₁.removeKind kind = .ok s₂ ∧
      s₂.modifiers.map word = s.modifiers.map word ∧ s₂.nameText? = s.nameText? ∧
      renderAll s₂.allTokens =
        renderAll (s.modifiers.take (Declaration.placeOfKind s kind order)) ++
          (Stretch.reclaimed
            (leadingOfAll (s.follower? (Declaration.placeOfKind s kind order)).toList)
            (Declaration.placeOfKind s kind order)).render ++
          s.textFrom (Declaration.placeOfKind s kind order) := by
  have hplace : Declaration.placeOfKind s kind order ≤ s.stretch.tokens.length :=
    placeOf_le_length s.modifiers (.fresh kind) (order.map ModifierOrder.onTokens)
  obtain ⟨edited, hinsert, hprevious, hnext, -⟩ := s.stretch.insert_eq_ok (.fresh kind) hplace
  obtain ⟨edited', hremove, htext⟩ := Stretch.remove_of_insert_fresh hinsert
  have hstretch : (s.store edited).stretch = edited := stretch_store hprevious hnext
  have hfind : (s.store edited).modifiers.findIdx? (·.isModifier kind) =
      some (Declaration.placeOfKind s kind order) := by
    rw [modifiers_store]
    refine Stretch.findIdx?_of_insert_fresh hinsert ?_
    intro t ht
    exact Bool.eq_false_iff.2 (List.any_eq_false.1 hnone t ht)
  have hremoved := Stretch.removesOnly_of_remove hremove
  have hprevious' : edited'.previous = none := hremoved.previous_eq_none hprevious
  have hfront : (s.store edited).next? = edited.next := congrArg Stretch.next hstretch
  have hnext' : edited'.next.isSome = (s.store edited).next?.isSome := by
    rw [hfront, hremoved.isSome_next]
  refine ⟨s.store edited, (s.store edited).store edited', ?_, ?_, ?_, ?_, ?_⟩
  · rw [insertKind, insert]
    exact editStretch_eq_ok_iff.2 ⟨edited, hinsert, rfl⟩
  · rw [removeKind, removeFirst, hfind]
    exact editStretch_eq_ok_iff.2 ⟨edited', by rw [hstretch]; exact hremove, rfl⟩
  · rw [modifiers_store, Stretch.map_tokens_remove ignoresTrivia_word hremove,
      Stretch.map_tokens_insert ignoresTrivia_word hinsert, List.eraseIdx_insertIdx_self]
    rfl
  · have hword : edited'.next.map word = (s.store edited).next?.map word := by
      rw [hfront, hremoved.next]
    rw [nameText?_store hword, nameText?_store (Stretch.next_eq_of_insert hinsert)]
  · rw [allTokens_store hprevious' hnext', renderAll_append, htext, tail_tokens_store, textFrom,
      stripFirst_tokensFrom, renderAll_append, follower?_stretch]
    simp [stretch, String.append_assoc]

end Signature

/-! ## Declarations -/

namespace Declaration

open Token Signature

/-- One declaration is another one less the run in front of a token that stands at a position among
its modifiers. -/
def RunDropped (s : Signature) (index : Nat) (f : Token) (d e : Declaration) : Prop :=
  ∃ rest, d.render = renderAll (s.modifiers.take index) ++ f.leading.render ++ (f.text ++ rest) ∧
    e.render = renderAll (s.modifiers.take index) ++ (f.text ++ rest)

/-- **The removal of a modifier undoes its insertion.**  On a declaration that carries modifiers,
but none of a kind, a modifier of that kind can be inserted under any order and removed again.  The
modifiers have the same words then, and the declaration has the same name and the same comments in
the same order.  Its text is the same, unless the modifier stood behind another one and the run in
front of the token after it was blank.  Then exactly that run is gone. -/
theorem removeKind_undoes_insertKind (d : Declaration) (s : Signature) (h : d.signature? = some s)
    (kind : ModifierKind) (hnone : d.hasModifier kind = false)
    (order : Option (Comparer ModifierKind)) :
    ∃ d₁ e, d.insertKind kind order = .ok d₁ ∧ d₁.removeKind kind = .ok e ∧
      e.modifiers.map word = d.modifiers.map word ∧ e.name = d.name ∧
      e.commentTrivia = d.commentTrivia ∧
      (∀ f, 0 < placeOfKind s kind order → s.follower? (placeOfKind s kind order) = some f →
        f.leading.isBlank → RunDropped s (placeOfKind s kind order) f d e) ∧
      ((∀ f, 0 < placeOfKind s kind order → s.follower? (placeOfKind s kind order) = some f →
        f.leading.isBlank = false) → e.render = d.render) := by
  have hsome : d.signature?.isSome := by simp [h]
  have hnone' : s.hasModifier kind = false := by
    rw [← hnone, Declaration.hasModifier, modifiers_eq h]
    rfl
  obtain ⟨s₁, s₂, hinsert, hremove, hwords, hname, htext⟩ := removeKind_of_insertKind hnone' order
  have hcomments : commentTriviaOfAll s₂.allTokens = commentTriviaOfAll s.allTokens :=
    (commentTrivia_of_removeKind hremove).trans (commentTrivia_of_insertKind hinsert)
  generalize placeOfKind s kind order = index at htext ⊢
  have hbefore : d.render = renderAll (s.modifiers.take index) ++
      (leadingOfAll (s.follower? index).toList).render ++
        (s.textFrom index ++ renderAll d.body) := by
    rw [render, tokens_eq, opening_eq_allTokens h, renderAll_append, s.renderAll_allTokens index,
      textBefore, ← render_leadingOfAll_tokensFrom, leadingOfAll_tokensFrom, String.append_assoc]
  have hafter : (d.withSignature s₂).render = renderAll (s.modifiers.take index) ++
      (Stretch.reclaimed (leadingOfAll (s.follower? index).toList) index).render ++
        (s.textFrom index ++ renderAll d.body) := by
    rw [render, tokens_withSignature hsome, renderAll_append, htext, String.append_assoc]
  refine ⟨d.withSignature s₁, d.withSignature s₂, ?_, ?_, ?_, ?_, ?_, ?_, ?_⟩
  · exact editSignature_eq_ok_iff.2 ⟨s, s₁, h, hinsert, rfl⟩
  · exact editSignature_eq_ok_iff.2
      ⟨s₁, s₂, signature?_withSignature hsome s₁, hremove, by rw [withSignature_withSignature]⟩
  · rw [modifiers_withSignature hsome, hwords, modifiers_eq h]
  · exact name_withSignature h hname
  · exact (CommentRelation.eq.withSignature h hcomments.symm).symm
  · intro f hpos hf hblank
    obtain ⟨rest, hrest⟩ := exists_textFrom_eq hf
    have hrun : leadingOfAll (s.follower? index).toList = f.leading := by rw [hf]; rfl
    have hdropped : Stretch.reclaimed f.leading index = [] := by
      rw [Stretch.reclaimed, if_neg (Nat.ne_of_gt hpos)]
      exact (TriviaRun.keepCommented_eq_nil_iff _).2 hblank
    have hword : s.textFrom index ++ renderAll d.body = f.text ++ (rest ++ renderAll d.body) := by
      rw [hrest, String.append_assoc]
    refine ⟨rest ++ renderAll d.body, ?_, ?_⟩
    · rw [hbefore, hrun, hword]
    · rw [hafter, hrun, hdropped, hword, TriviaRun.render_nil, String.append_empty]
  · intro hcommented
    have hwhole : Stretch.reclaimed (leadingOfAll (s.follower? index).toList) index =
        leadingOfAll (s.follower? index).toList := by
      rw [Stretch.reclaimed]
      split
      · rfl
      · rename_i hpos
        cases hf : s.follower? index with
        | none => rfl
        | some f =>
          have hkept := hcommented f (Nat.pos_of_ne_zero hpos) hf
          show TriviaRun.keepCommented f.leading = f.leading
          rw [TriviaRun.keepCommented, if_neg (by simp [hkept])]
    rw [hafter, hwhole, hbefore]

/-- The signature of `public` with `int f` on the next line. -/
def spacedPublic : Signature where
  modifiers := [.bare (.modifier .publicKw) "public"]
  tokens := [⟨.keyword, "int", [.lineFeed], [.space]⟩, .bare .identifier "f"]
  name := some 1

/-- Behind `public` a modifier that comes and goes takes the line end in front of `int` along. -/
theorem removeKind_undoes_insertKind_spacedPublic :
    (plain .field spacedPublic).signature? = some spacedPublic ∧
    (plain .field spacedPublic).hasModifier .staticKw = false ∧
    0 < placeOfKind spacedPublic .staticKw none ∧
    ∃ d₁ e, (plain .field spacedPublic).insertKind .staticKw none = .ok d₁ ∧
      d₁.removeKind .staticKw = .ok e ∧ e.name = "f" ∧
      RunDropped spacedPublic 1 ⟨.keyword, "int", [.lineFeed], [.space]⟩
        (plain .field spacedPublic) e := by
  refine ⟨rfl, rfl, by decide, ?_⟩
  obtain ⟨d₁, e, hinsert, hremove, -, hname, -, hdropped, -⟩ :=
    removeKind_undoes_insertKind (plain .field spacedPublic) spacedPublic rfl .staticKw rfl none
  exact ⟨d₁, e, hinsert, hremove, hname, hdropped _ (by decide) rfl rfl⟩

end Declaration

end DeclStyle
