import DeclStyle.Proofs.Edit.Document
import DeclStyle.Proofs.Order.Placement

/-!
# Inserting modifiers

An insertion adds the new modifier to the document of a declaration at one place and changes
nothing else there: the trivia that the following token gives up are found in front of the new
modifier, where they have been all along.

* `Token.added` — the modifier as it comes into the document, apart from the trivia it takes over;
* `Stretch.insert_eq_ok`, `Signature.insert_eq_ok` — an insertion succeeds, and the tokens after it;
* `Stretch.exists_append_of_insert` — the stretch that an insertion has made;
* `Declaration.TextAdded` — some text has been put in at a position among the modifiers, right in
  front of the word that follows;
* `insertion_textually_exact` — the text that an insertion adds, and the place where it does.
-/

namespace DeclStyle

/-! ## The tokens around an inserted one -/

namespace Token

/-- A token as it comes into a document in front of another one.  An elastic marker gives way to
the trivia in front of that token, and a space closes an open end. -/
def added (t : Token) (follower : Option Token) : Token :=
  { t with
    leading :=
      if t.leading.isSingleElastic && follower.any (!·.leading.isEmpty) then [] else t.leading
    trailing :=
      if t.trailing.isEmpty || t.trailing.isSingleElastic then .space else t.trailing }

/-- A token with a run put in front of its own trivia. -/
def behind (run : TriviaRun) (t : Token) : Token := { t with leading := run ++ t.leading }

/-- The run in front of the first of several tokens. -/
def leadingOfAll (ts : List Token) : TriviaRun := (ts.head?.map Token.leading).getD []

/-- Several tokens less the run in front of the first. -/
def stripFirst (ts : List Token) : List Token := ts.modifyHead strip

theorem pieces_behind (run : TriviaRun) (t : Token) :
    (t.behind run).pieces = run.pieces ++ t.pieces := by
  simp [behind, pieces, piecesIf, word]

/-- Tokens are the run in front of the first and the rest. -/
theorem piecesOfAll_eq_leading_append (ts : List Token) :
    piecesOfAll ts = (leadingOfAll ts).pieces ++ piecesOfAll (stripFirst ts) := by
  cases ts <;> simp [leadingOfAll, stripFirst, strip, pieces, piecesIf, word]

theorem render_behind (run : TriviaRun) (t : Token) :
    (t.behind run).render = run.render ++ t.render := by
  rw [render_eq_join, pieces_behind, List.map_append, String.join_append,
    ← TriviaRun.render_eq_join, ← render_eq_join]

theorem renderAll_eq_leading_append (ts : List Token) :
    renderAll ts = (leadingOfAll ts).render ++ renderAll (stripFirst ts) := by
  rw [renderAll_eq_join, piecesOfAll_eq_leading_append, List.map_append, String.join_append,
    ← TriviaRun.render_eq_join, ← renderAll_eq_join]

end Token

namespace Stretch

open Token

/-- A token that is inserted stands behind the trivia that its follower gives up. -/
theorem settled_eq_behind (s : Stretch) (t : Token) (index : Nat) :
    s.settled t index =
      (t.added (s.follower? index)).behind (leadingOfAll (s.follower? index).toList) := by
  unfold settled
  cases s.follower? index with
  | none =>
    simp only [separated, added, behind, leadingOfAll, Option.toList_none]
    split <;> simp
  | some f =>
    obtain ⟨kind, text, run, trailing⟩ := f
    cases run with
    | nil =>
      simp [receive, separated, added, behind, leadingOfAll]
      split <;> rfl
    | cons x run =>
      by_cases helastic : t.leading.isSingleElastic
      · simp [receive, separated, added, behind, leadingOfAll, helastic]
        split <;> rfl
      · simp [receive, separated, added, behind, leadingOfAll, helastic]
        split <;> rfl

/-- An insertion between tokens that come before it and tokens that come after it. -/
theorem insert_append (previous next : Option Token) (before after : List Token) (t : Token) :
    insert ⟨previous, before ++ after, next⟩ t before.length =
      .ok ⟨previous,
        before ++ settled ⟨previous, before ++ after, next⟩ t before.length :: stripFirst after,
        if after.isEmpty then next.map strip else next⟩ := by
  cases after with
  | nil => simp [insert, stripFirst]
  | cons f after =>
    have hmodify : (before ++ f :: after).modify before.length strip =
        before ++ f.strip :: after := by
      rw [List.modify_eq_take_cons_drop (by simp)]
      simp
    rw [insert, if_pos (by simp), hmodify, insertIdx_append_length]
    rfl

/-- **What an insertion that succeeds has made of a stretch**: the tokens before the position, the
new one behind the trivia that its follower gives up, and the tokens after the position. -/
theorem exists_append_of_insert {s s' : Stretch} {t : Token} {index : Nat}
    (h : s.insert t index = .ok s') :
    ∃ before after, s.tokens = before ++ after ∧ before.length = index ∧
      s' = ⟨s.previous,
        before ++ (t.added (s.follower? index)).behind
          (leadingOfAll (s.follower? index).toList) :: stripFirst after,
        if after.isEmpty then s.next.map strip else s.next⟩ := by
  obtain ⟨previous, tokens, next⟩ := s
  have hindex : index ≤ tokens.length := by
    refine Nat.le_of_not_lt fun hout => ?_
    rw [Stretch.insert, if_neg (by simp; omega), if_neg (by simp; omega)] at h
    cases h
  have hinsert := insert_append previous next (tokens.take index) (tokens.drop index) t
  rw [List.take_append_drop, List.length_take_of_le hindex, h, settled_eq_behind] at hinsert
  exact ⟨tokens.take index, tokens.drop index, (List.take_append_drop index tokens).symm,
    List.length_take_of_le hindex, Except.ok.inj hinsert⟩

/-- **An insertion succeeds** at every position up to the end, and this is the document then. -/
theorem insert_eq_ok (s : Stretch) (t : Token) {index : Nat} (h : index ≤ s.tokens.length) :
    ∃ s', s.insert t index = .ok s' ∧ s'.previous = s.previous ∧
      s'.next.isSome = s.next.isSome ∧
      s'.allTokens = s.previous.toList ++ s.tokens.take index ++
        s.settled t index :: stripFirst (s.tokens.drop index ++ s.next.toList) := by
  obtain ⟨previous, tokens, next⟩ := s
  have hinsert := insert_append previous next (tokens.take index) (tokens.drop index) t
  rw [List.take_append_drop, List.length_take_of_le h] at hinsert
  refine ⟨_, hinsert, rfl, ?_, ?_⟩
  · cases tokens.drop index <;> simp
  · cases tokens.drop index <;> cases next <;> simp [allTokens, stripFirst]

end Stretch

/-! ## Inserting into a signature -/

namespace Signature

open Token

/-- The tokens of a signature from a position among its modifiers on. -/
def tokensFrom (s : Signature) (index : Nat) : List Token := s.modifiers.drop index ++ s.tokens

theorem allTokens_eq_take_append (s : Signature) (index : Nat) :
    s.allTokens = s.modifiers.take index ++ s.tokensFrom index := by
  rw [allTokens, tokensFrom, ← List.append_assoc, List.take_append_drop]

/-- The token that will follow a modifier put at a position: the one that stands there, or the first
one after the modifiers. -/
def follower? (s : Signature) (index : Nat) : Option Token := s.modifiers[index]?.or s.next?

theorem head?_tokensFrom (s : Signature) (index : Nat) :
    (s.tokensFrom index).head? = s.follower? index := by
  simp [tokensFrom, follower?, next?, List.head?_drop]

theorem follower?_stretch (s : Signature) (index : Nat) :
    s.stretch.follower? index = s.follower? index := by
  rw [Stretch.follower?, follower?, stretch]
  split
  · rename_i hlt
    simp [List.getElem?_eq_getElem hlt]
  · rename_i hlt
    rw [List.getElem?_eq_none (Nat.not_lt.1 hlt), Option.none_or]

theorem placeOf_le_length (modifiers : List Token) (t : Token) (order : Option (Comparer Token)) :
    placeOf modifiers t order ≤ modifiers.length := by
  cases order with
  | none => exact Placement.byRank_map_le_length Token.rank modifiers t.rank
  | some cmp => exact Placement.byComparer_le_length cmp modifiers t

/-- What stands in front of the tokens from a position on stands in front of the follower. -/
theorem leadingOfAll_tokensFrom (s : Signature) (index : Nat) :
    leadingOfAll (s.tokensFrom index) = leadingOfAll (s.follower? index).toList := by
  rw [leadingOfAll, leadingOfAll, head?_tokensFrom]
  cases s.follower? index <;> rfl

/-- The tokens from a position on are the end of the stretch and the tokens behind it. -/
theorem stripFirst_tokensFrom (s : Signature) (index : Nat) :
    stripFirst (s.tokensFrom index) =
      stripFirst (s.modifiers.drop index ++ s.next?.toList) ++ s.tokens.tail := by
  rw [tokensFrom, next?]
  cases s.modifiers.drop index <;> cases s.tokens <;> simp [stripFirst]

/-- **An insertion of a modifier succeeds**, and these are the tokens then. -/
theorem insert_eq_ok (s : Signature) (t : Token) (order : Option (Comparer Token)) :
    ∃ s', s.insert t order = .ok s' ∧
      s'.allTokens = s.modifiers.take (placeOf s.modifiers t order) ++
        (t.added (s.follower? (placeOf s.modifiers t order))).behind
            (leadingOfAll (s.tokensFrom (placeOf s.modifiers t order))) ::
          stripFirst (s.tokensFrom (placeOf s.modifiers t order)) := by
  have hplace := placeOf_le_length s.modifiers t order
  generalize hindex : placeOf s.modifiers t order = index at hplace ⊢
  obtain ⟨edited, hedit, hprevious, hnext, htokens⟩ := s.stretch.insert_eq_ok t hplace
  refine ⟨s.store edited, ?_, ?_⟩
  · exact editStretch_eq_ok_iff.2 ⟨edited, hindex ▸ hedit, rfl⟩
  · rw [allTokens_store hprevious hnext, htokens, Stretch.settled_eq_behind,
      s.follower?_stretch index, leadingOfAll_tokensFrom, stripFirst_tokensFrom]
    simp [stretch]

/-- The document text in front of a modifier put at a position: the modifiers before it, and the
trivia in front of the token that will follow it. -/
def textBefore (s : Signature) (index : Nat) : String :=
  renderAll (s.modifiers.take index) ++ ((s.follower? index).elim "" (·.leading.render))

/-- The document text of a signature behind that. -/
def textFrom (s : Signature) (index : Nat) : String := renderAll (stripFirst (s.tokensFrom index))

theorem render_leadingOfAll_tokensFrom (s : Signature) (index : Nat) :
    (leadingOfAll (s.tokensFrom index)).render =
      (s.follower? index).elim "" (·.leading.render) := by
  rw [leadingOfAll_tokensFrom]
  cases s.follower? index <;> rfl

theorem renderAll_allTokens (s : Signature) (index : Nat) :
    renderAll s.allTokens = s.textBefore index ++ s.textFrom index := by
  rw [s.allTokens_eq_take_append index, renderAll_append,
    renderAll_eq_leading_append (s.tokensFrom index), render_leadingOfAll_tokensFrom, textBefore,
    textFrom, String.append_assoc]

/-- The text behind the place of a modifier starts with the word that will follow it. -/
theorem exists_textFrom_eq {s : Signature} {index : Nat} {f : Token}
    (h : s.follower? index = some f) : ∃ rest, s.textFrom index = f.text ++ rest := by
  rw [← head?_tokensFrom] at h
  obtain ⟨after, hafter⟩ := List.head?_eq_some_iff.1 h
  refine ⟨f.trailing.render ++ renderAll after, ?_⟩
  simp [textFrom, hafter, stripFirst, strip, render, String.append_assoc]

end Signature

/-! ## Inserting into a declaration -/

namespace Declaration

open Token Signature

/-- One declaration is another one with some text put in at a position among its modifiers, right in
front of the word that stands there. -/
def TextAdded (d e : Declaration) (index : Nat) (added : String) : Prop :=
  ∃ s rest, d.signature? = some s ∧ d.render = s.textBefore index ++ rest ∧
    e.render = s.textBefore index ++ added ++ rest ∧
    ∀ f, s.follower? index = some f → ∃ tail, rest = f.text ++ tail

/-- An insertion of a modifier adds that modifier to the text, and nothing else. -/
theorem exists_textAdded_of_insert {d : Declaration} {s : Signature} (h : d.signature? = some s)
    (t : Token) (order : Option (Comparer Token)) :
    ∃ e, d.insert t order = .ok e ∧
      TextAdded d e (placeOf s.modifiers t order)
        (t.added (s.follower? (placeOf s.modifiers t order))).render := by
  obtain ⟨s', hs', htokens⟩ := s.insert_eq_ok t order
  generalize placeOf s.modifiers t order = index at htokens ⊢
  refine ⟨d.withSignature s', editSignature_eq_ok_iff.2 ⟨s, s', h, hs', rfl⟩, s,
    s.textFrom index ++ renderAll d.body, h, ?_, ?_, ?_⟩
  · rw [render, tokens_eq, opening_eq_allTokens h, renderAll_append, s.renderAll_allTokens index,
      String.append_assoc]
  · rw [render, tokens_withSignature (by simp [h]), renderAll_append, htokens]
    simp [render_behind, render_leadingOfAll_tokensFrom, textBefore, textFrom, String.append_assoc]
  · intro f hf
    obtain ⟨rest, hrest⟩ := exists_textFrom_eq hf
    exact ⟨rest ++ renderAll d.body, by rw [hrest, String.append_assoc]⟩

/-- The position at which a newly made modifier goes. -/
def placeOfKind (s : Signature) (kind : ModifierKind) (order : Option (Comparer ModifierKind)) :
    Nat :=
  placeOf s.modifiers (.fresh kind) (order.map ModifierOrder.onTokens)

/-- An insertion of a newly made modifier adds its keyword and one space. -/
theorem exists_textAdded_of_insertKind {d : Declaration} {s : Signature}
    (h : d.signature? = some s) (kind : ModifierKind) (order : Option (Comparer ModifierKind)) :
    ∃ e, d.insertKind kind order = .ok e ∧
      TextAdded d e (placeOfKind s kind order) (kind.keyword ++ " ") := by
  have hfresh : ∀ follower, ((fresh kind).added follower).render = kind.keyword ++ " " := by
    intro follower
    have hmarker : TriviaRun.elastic.isSingleElastic = true := rfl
    have htext : TriviaRun.elastic.render = "" := rfl
    have hspace : TriviaRun.space.render = " " := rfl
    by_cases hfollower : follower.any (!·.leading.isEmpty) = true <;>
      simp [added, fresh, Token.render, hmarker, htext, hspace, hfollower]
  obtain ⟨e, he, hadded⟩ :=
    exists_textAdded_of_insert h (.fresh kind) (order.map ModifierOrder.onTokens)
  rw [hfresh] at hadded
  exact ⟨e, he, hadded⟩

/-- One declaration becomes another one as newly made modifiers are inserted one after another, each
of which adds its keyword and one space to the text. -/
inductive KeywordsAdded (order : Option (Comparer ModifierKind)) :
    List ModifierKind → Declaration → Declaration → Prop where
  | nil (d : Declaration) : KeywordsAdded order [] d d
  | cons {kind : ModifierKind} {kinds : List ModifierKind} {d d' e : Declaration} {s : Signature} :
      d.signature? = some s → d.insertKind kind order = .ok d' →
      TextAdded d d' (placeOfKind s kind order) (kind.keyword ++ " ") →
      KeywordsAdded order kinds d' e → KeywordsAdded order (kind :: kinds) d e

theorem exists_keywordsAdded {d : Declaration} (h : d.signature?.isSome)
    (kinds : List ModifierKind) (order : Option (Comparer ModifierKind)) :
    ∃ e, d.editSignature (·.insertKinds kinds order) = .ok e ∧
      KeywordsAdded order kinds d e := by
  induction kinds generalizing d with
  | nil =>
    obtain ⟨s, hs⟩ := Option.isSome_iff_exists.1 h
    refine ⟨d, editSignature_eq_ok_iff.2 ⟨s, s, hs, rfl, ?_⟩, .nil d⟩
    rw [withSignature_self hs]
  | cons kind kinds ih =>
    obtain ⟨s, hs⟩ := Option.isSome_iff_exists.1 h
    obtain ⟨d', hd', hadded⟩ := exists_textAdded_of_insertKind hs kind order
    obtain ⟨s₀, s₁, hs₀, hs₁, rfl⟩ := editSignature_eq_ok_iff.1 hd'
    have hsig := signature?_withSignature h s₁
    have hsome : (d.withSignature s₁).signature?.isSome := by rw [hsig]; rfl
    obtain ⟨e, he, hrest⟩ := ih hsome
    obtain ⟨s₁', s₂, hs₁', hs₂, rfl⟩ := editSignature_eq_ok_iff.1 he
    obtain rfl := Option.some.inj (hsig.symm.trans hs₁')
    refine ⟨_, editSignature_eq_ok_iff.2 ⟨s₀, s₂, hs₀, ?_, ?_⟩, .cons hs hd' hadded hrest⟩
    · exact bind_eq_ok_iff.2 ⟨s₁, hs₁, hs₂⟩
    · rw [withSignature_withSignature]

/-- **Insertion is textually exact.**  On a declaration that carries modifiers an insertion succeeds
under every order, and it adds the new modifier to the text right in front of the word that is to
follow.  A newly made modifier adds its keyword and one space, and an accessibility its keywords,
each with one space behind it. -/
theorem insertion_textually_exact (d : Declaration) (s : Signature) (h : d.signature? = some s) :
    (∀ (t : Token) (order : Option (Comparer Token)), ∃ e, d.insert t order = .ok e ∧
      TextAdded d e (placeOf s.modifiers t order)
        (t.added (s.follower? (placeOf s.modifiers t order))).render) ∧
    (∀ (kind : ModifierKind) (order : Option (Comparer ModifierKind)),
      ∃ e, d.insertKind kind order = .ok e ∧
        TextAdded d e (placeOfKind s kind order) (kind.keyword ++ " ")) ∧
    (∀ (a : Accessibility) (order : Option (Comparer ModifierKind)),
      ∃ e, d.insertAccessibility a order = .ok e ∧ KeywordsAdded order a.keywords d e) :=
  ⟨exists_textAdded_of_insert h, exists_textAdded_of_insertKind h,
    fun a => exists_keywordsAdded (by simp [h]) a.keywords⟩

/-- The signature of `async void M`, on a line of its own with a comment above it. -/
def commentedAsync : Signature where
  modifiers :=
    [⟨.modifier .asyncKw, "async",
      [⟨.singleLineComment, "// m"⟩, .lineFeed, ⟨.whitespace, "    "⟩], [.space]⟩]
  tokens := [⟨.keyword, "void", [], [.space]⟩, .bare .identifier "M"]
  name := some 1

/-- A modifier with a comment of its own goes between the indentation and `async`. -/
theorem insertion_textually_exact_commented :
    (plain .method commentedAsync).signature? = some commentedAsync ∧
    (∃ e, (plain .method commentedAsync).insert
        ⟨.modifier .staticKw, "static", [⟨.multiLineComment, "/* s */"⟩], []⟩ none = .ok e ∧
      TextAdded (plain .method commentedAsync) e 0 "/* s */static ") ∧
    (∃ e, (plain .method commentedAsync).insertKind .publicKw none = .ok e ∧
      TextAdded (plain .method commentedAsync) e 0 "public ") ∧
    (∃ e, (plain .method commentedAsync).insertAccessibility .protectedOrInternal none = .ok e ∧
      KeywordsAdded none [.protectedKw, .internalKw] (plain .method commentedAsync) e) :=
  ⟨rfl, (insertion_textually_exact _ commentedAsync rfl).1 _ none,
    (insertion_textually_exact _ commentedAsync rfl).2.1 .publicKw none,
    (insertion_textually_exact _ commentedAsync rfl).2.2 .protectedOrInternal none⟩

end Declaration

end DeclStyle
