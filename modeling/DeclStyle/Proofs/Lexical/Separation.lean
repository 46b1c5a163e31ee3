import DeclStyle.Proofs.Lexical.Safety
import DeclStyle.Proofs.Stretch.Failure
import Mathlib.Data.List.Chain

/-!
# Text between neighbouring tokens

Two neighbouring tokens are told apart by what stands between them, which may belong to either of
them.  An insertion puts a space behind the new token; in front of it comes what has been there
before, so that no gap closes but the one behind a last token that has no follower.  A removal makes
one gap out of two and drops blanks there, which may have been all that told the tokens on both
sides apart.

* `Token.EveryGap` — a property of every run of trivia between neighbouring words, and what becomes
  of it when trivia are put behind a token or in front of one;
* `Token.Separated` — there is text between any two neighbouring words;
* `Stretch.Removal.cases_withNext` — the tokens of a stretch and the one after it, before and after
  a removal;
* `Stretch.edits_keep_separation` — where insertions and removals keep tokens apart;
* `Stretch.edits_glue_tokens` — they do not do so everywhere.
-/

namespace DeclStyle

/-! ## Gaps -/

namespace Token

/-- Every run of trivia between neighbouring words of a list of tokens has a property. -/
def EveryGap (Q : TriviaRun → Prop) (ts : List Token) : Prop :=
  ts.IsChain fun t u => Q (t.trailing ++ u.leading)

/-- There is text between any two neighbouring words of a list of tokens. -/
def Separated (ts : List Token) : Prop := EveryGap (·.render ≠ "") ts

instance (ts : List Token) : Decidable (Separated ts) :=
  inferInstanceAs (Decidable (ts.IsChain fun t u => (t.trailing ++ u.leading).render ≠ ""))

variable {Q : TriviaRun → Prop}

/-- The gaps of tokens do not depend on the run behind the last one. -/
theorem everyGap_append_singleton (t t' : Token) (h : t'.leading = t.leading)
    (before : List Token) : EveryGap Q (before ++ [t']) ↔ EveryGap Q (before ++ [t]) := by
  simp [EveryGap, List.isChain_append, h]

/-- The gaps of tokens do not depend on the run in front of the first one. -/
theorem everyGap_cons (t t' : Token) (h : t'.trailing = t.trailing) (after : List Token) :
    EveryGap Q (t' :: after) ↔ EveryGap Q (t :: after) := by
  simp [EveryGap, List.isChain_cons, h]

/-- Where a token has gone and a run is put behind the token before it, one gap is new. -/
theorem everyGap_withBehind {before after : List Token} {b t : Token} {run : TriviaRun}
    (h : EveryGap Q (before ++ b :: t :: after)) :
    EveryGap Q (before ++ b.withBehind run :: after) ↔
      ∀ f ∈ after.head?, Q (b.trailing ++ run ++ f.leading) := by
  obtain ⟨hbefore, -, hafter⟩ := List.isChain_append_cons_cons.1 h
  have hfront : EveryGap Q (before ++ [b.withBehind run]) :=
    (everyGap_append_singleton b (b.withBehind run) rfl before).2 hbefore
  rw [EveryGap, List.isChain_split, List.isChain_cons, withBehind]
  constructor
  · rintro ⟨-, hgap, -⟩
    exact hgap
  · intro hgap
    exact ⟨hfront, hgap, hafter.tail⟩

/-- Where tokens have gone and a run is put in front of the token after them, one gap is new. -/
theorem everyGap_withInFront {before gone after : List Token} {f : Token} {run : TriviaRun}
    (h : EveryGap Q (before ++ (gone ++ f :: after))) :
    EveryGap Q (before ++ f.withInFront run :: after) ↔
      ∀ b ∈ before.getLast?, Q (b.trailing ++ (run ++ f.leading.keepCommented)) := by
  obtain ⟨hbefore, htail, -⟩ := List.isChain_append.1 h
  have hback : EveryGap Q (f.withInFront run :: after) :=
    (everyGap_cons f (f.withInFront run) rfl after).2 htail.right_of_append
  rw [EveryGap, List.isChain_append]
  constructor
  · rintro ⟨-, -, hgap⟩ b hb
    exact hgap b hb _ rfl
  · intro hgap
    refine ⟨hbefore, hback, fun b hb f' hf' => ?_⟩
    obtain rfl := Option.some.inj hf'
    exact hgap b hb

/-- There is text between two tokens if one of them brings it. -/
theorem render_gap_ne_empty_iff (x y : Token) :
    (x.trailing ++ y.leading).render ≠ "" ↔ x.Spaced ∨ y.leading.render ≠ "" := by
  rw [TriviaRun.render_append, ne_eq, String.append_eq_empty_iff, not_and_or, Spaced]

/-- **An inserted token with text behind it keeps tokens apart.**  The gap in front of it is the one
that has been there, or what is behind the last token. -/
theorem Separated.insert {before rest : List Token} {t : Token} (h : Separated (before ++ rest))
    (hfront : t.leading.render = "") (ht : t.Spaced)
    (hlast : rest = [] → ∀ b ∈ before.getLast?, b.Spaced) :
    Separated (before ++ t.behind (leadingOfAll rest) :: stripFirst rest) := by
  obtain ⟨hbefore, hrest, hgap⟩ := List.isChain_append.1 h
  refine List.isChain_append.2 ⟨hbefore, List.isChain_cons.2 ⟨?_, ?_⟩, ?_⟩
  · exact fun f _ => (render_gap_ne_empty_iff t f).2 (.inl ht)
  · cases rest with
    | nil => exact .nil
    | cons f rest =>
      have hfollower : Separated (f :: rest) := hrest
      exact (everyGap_cons f f.strip rfl rest).2 hfollower
  · intro b hb new hnew
    obtain rfl := Option.some.inj hnew
    rw [behind, TriviaRun.render_append, TriviaRun.render_append, hfront, String.append_empty,
      ← TriviaRun.render_append]
    cases rest with
    | nil =>
      rw [leadingOfAll, List.head?_nil, Option.map_none, Option.getD_none, List.append_nil]
      exact hlast rfl b hb
    | cons f rest => exact hgap b hb f rfl

theorem render_leading_added_fresh (kind : ModifierKind) (follower : Option Token) :
    ((fresh kind).added follower).leading.render = "" := by
  rw [added]
  split <;> rfl

theorem spaced_added_fresh (kind : ModifierKind) (follower : Option Token) :
    ((fresh kind).added follower).Spaced :=
  ((insertable_fresh kind).added follower).2

end Token

/-! ## Stretches -/

namespace Stretch

open Token

variable {s s' : Stretch}

/-- The tokens of a stretch and the token after it. -/
def withNext (s : Stretch) : List Token := s.tokens ++ s.next.toList

theorem allTokens_eq_withNext (s : Stretch) : s.allTokens = s.previous.toList ++ s.withNext :=
  List.append_assoc _ _ _

/-- The tokens of a stretch and the one after it, behind a position. -/
def restFrom (s : Stretch) (index : Nat) : List Token := s.tokens.drop index ++ s.next.toList

theorem withNext_eq_take_append (s : Stretch) (index : Nat) :
    s.withNext = s.tokens.take index ++ s.restFrom index := by
  rw [withNext, restFrom, ← List.append_assoc, List.take_append_drop]

/-- The trivia that a follower gives up stand in front of the tokens from its position on. -/
theorem leadingOfAll_restFrom (s : Stretch) (index : Nat) :
    leadingOfAll (s.restFrom index) = leadingOfAll (s.follower? index).toList := by
  have hhead : (s.restFrom index).head? = s.follower? index := by
    rw [restFrom, List.head?_append, List.head?_drop, follower?]
    split
    · rename_i hlt
      rw [List.getElem?_eq_getElem hlt, Option.some_or]
    · rename_i hle
      rw [List.getElem?_eq_none (Nat.not_lt.1 hle), Option.none_or]
      cases s.next <;> rfl
  rw [leadingOfAll, hhead]
  cases s.follower? index <;> rfl

/-- The tokens of a stretch after an insertion, and the one after it. -/
theorem exists_withNext_of_insert (s : Stretch) (t : Token) {index : Nat}
    (h : index ≤ s.tokens.length) :
    ∃ s', s.insert t index = .ok s' ∧
      s'.withNext = s.tokens.take index ++
        (t.added (s.follower? index)).behind (leadingOfAll (s.restFrom index)) ::
          stripFirst (s.restFrom index) := by
  obtain ⟨s', hs', hprevious, -, htokens⟩ := s.insert_eq_ok t h
  rw [allTokens_eq_withNext, hprevious, List.append_assoc] at htokens
  refine ⟨s', hs', ?_⟩
  rw [List.append_cancel_left htokens, settled_eq_behind, leadingOfAll_restFrom, restFrom]

/-- **A removal, seen from the tokens and the one after them.**  The last word may go; or the first
goes, and what is left of its token is put in front of the second; or a later one goes, and what is
left is put behind the one before it. -/
theorem Removal.cases_withNext {index : Nat} (h : Removal s index s') :
    (∃ t, index = 0 ∧ s.withNext = [t] ∧ s'.withNext = [] ∧
      s'.previous.map Token.leading = s.previous.map Token.leading) ∨
    (∃ t f after, index = 0 ∧ s.withNext = t :: f :: after ∧
      s'.withNext = f.withInFront t.leftBehindFirst :: after ∧ s'.previous = s.previous) ∨
    ∃ before b t after, index = before.length + 1 ∧ s.withNext = before ++ b :: t :: after ∧
      s'.withNext = before ++ b.withBehind t.leftBehind :: after ∧ s'.previous = s.previous := by
  cases h with
  | ontoNext previous t n => exact .inr (.inl ⟨t, n, [], rfl, rfl, rfl, rfl⟩)
  | ontoPrevious p t => exact .inl ⟨t, rfl, rfl, rfl, rfl⟩
  | vanish t hleft => exact .inl ⟨t, rfl, rfl, rfl, rfl⟩
  | ontoFollower previous t f rest next =>
    exact .inr (.inl ⟨t, f, rest ++ next.toList, rfl, rfl, rfl, rfl⟩)
  | ontoPreceding previous before b t after next =>
    refine .inr (.inr ⟨before, b, t, after ++ next.toList, rfl, ?_, ?_, rfl⟩)
    · simp [withNext]
    · simp [withNext]

/-- Three tokens stand one behind another, the middle one at a position. -/
def InARow (s : Stretch) (index : Nat) (b t f : Token) : Prop :=
  ∃ k, index = k + 1 ∧ s.withNext[k]? = some b ∧ s.withNext[k + 1]? = some t ∧
    s.withNext[k + 2]? = some f

/-- There is nothing in front of the first token. -/
theorem not_inARow_zero (b t f : Token) : ¬ s.InARow 0 b t f := by
  rintro ⟨k, hk, -⟩
  cases hk

theorem inARow_iff {before after : List Token} {b t : Token}
    (h : s.withNext = before ++ b :: t :: after) (b' t' f : Token) :
    s.InARow (before.length + 1) b' t' f ↔ b' = b ∧ t' = t ∧ f ∈ after.head? := by
  have hget : ∀ i, s.withNext[before.length + i]? = (b :: t :: after)[i]? := by
    intro i
    rw [h, List.getElem?_append_right (Nat.le_add_right _ _), Nat.add_sub_cancel_left]
  have hf : s.withNext[before.length + 2]? = after.head? :=
    (hget 2).trans List.head?_eq_getElem?.symm
  constructor
  · rintro ⟨k, hk, hb', ht', hf'⟩
    obtain rfl := Nat.succ.inj hk
    rw [hf] at hf'
    exact ⟨Option.some.inj (hb'.symm.trans (hget 0)), Option.some.inj (ht'.symm.trans (hget 1)),
      hf'⟩
  · rintro ⟨rfl, rfl, hafter⟩
    exact ⟨before.length, rfl, hget 0, hget 1, hf.trans hafter⟩

/-- **What edits do to the gaps between tokens.**  Let there be text between any two neighbouring
words of a stretch and the token after it.  A newly made modifier goes in at any position, and there
is text between any two neighbouring words again, unless it goes behind a last token that has no
text behind it and no token after it.  A removal succeeds unless the only token leaves a comment to
nobody.  Then there is text between any two neighbouring words, if there is some between the two on
both sides of the token that has gone, where it stood between two: the run behind the first of
them, the commented runs of the token, and the run in front of the second come together there. -/
theorem edits_keep_separation {s : Stretch} (hs : Separated s.withNext) :
    (∀ (kind : ModifierKind) (index : Nat), index ≤ s.tokens.length →
      ∃ s', s.insert (.fresh kind) index = .ok s' ∧
        ((index = s.tokens.length → s.next = none → ∀ t ∈ s.tokens.getLast?, t.Spaced) →
          Separated s'.withNext)) ∧
    ∀ index, index < s.tokens.length →
      (∃ s', s.remove index = .ok s' ∧
        (Separated s'.withNext ↔ ∀ b t f, s.InARow index b t f →
          (b.trailing ++ t.leftBehind ++ f.leading).render ≠ "")) ∨
      ∃ kind, s.tokens.length = 1 ∧ s.Stranded kind ∧
        s.remove index = .error (.noAnchorToken kind) := by
  constructor
  · intro kind index hindex
    obtain ⟨s', hs', htokens⟩ := s.exists_withNext_of_insert (.fresh kind) hindex
    refine ⟨s', hs', fun hlast => ?_⟩
    rw [htokens]
    refine Separated.insert ?_ (render_leading_added_fresh kind _) (spaced_added_fresh kind _) ?_
    · rwa [← s.withNext_eq_take_append index]
    · intro hrest b hb
      rw [restFrom, List.append_eq_nil_iff, List.drop_eq_nil_iff] at hrest
      obtain ⟨hend, hnext⟩ := hrest
      refine hlast (Nat.le_antisymm hindex hend) (Option.toList_eq_nil_iff.1 hnext) b ?_
      rwa [List.take_of_length_le hend] at hb
  · intro index hindex
    cases hremove : s.remove index with
    | error e =>
      obtain ⟨hone, kind, hstranded, rfl⟩ := (remove_eq_error_iff hindex).1 hremove
      exact .inr ⟨kind, hone, hstranded, rfl⟩
    | ok s' =>
      refine .inl ⟨s', rfl, ?_⟩
      rcases (remove_eq_ok_iff.1 hremove).cases_withNext with
        ⟨t, rfl, -, hnone, -⟩ | ⟨t, f, after, rfl, hbefore, hafter, -⟩ |
          ⟨before, b, t, after, rfl, hbefore, hafter, -⟩
      · rw [hnone]
        exact iff_of_true .nil fun b t f h => absurd h (not_inARow_zero b t f)
      · rw [hbefore] at hs
        rw [hafter]
        refine iff_of_true ?_ fun b t f h => absurd h (not_inARow_zero b t f)
        exact (everyGap_cons f (f.withInFront t.leftBehindFirst) rfl after).2 hs.tail
      · simp only [inARow_iff hbefore]
        rw [hbefore] at hs
        rw [hafter, Separated, everyGap_withBehind hs]
        constructor
        · rintro hgap b' t' f ⟨rfl, rfl, hf⟩
          exact hgap f hf
        · exact fun hgap f hf => hgap b t f ⟨rfl, rfl, hf⟩

/-- The modifiers of `public static int`, with both spaces at `static`. -/
def spacedStatic : Stretch where
  previous := none
  tokens :=
    [.bare (.modifier .publicKw) "public", ⟨.modifier .staticKw, "static", [.space], [.space]⟩]
  next := some (.bare .identifier "int")

/-- On `public static int` an insertion in front of `static` and the removal of `public` keep the
words apart, and the removal of `static` does not. -/
theorem edits_keep_separation_spacedStatic :
    Separated spacedStatic.withNext ∧
    (∃ s', spacedStatic.insert (.fresh .unsafeKw) 1 = .ok s' ∧ Separated s'.withNext) ∧
    (∃ s', spacedStatic.remove 0 = .ok s' ∧ Separated s'.withNext) ∧
    ∃ s', spacedStatic.remove 1 = .ok s' ∧ ¬ Separated s'.withNext := by
  have hs : Separated spacedStatic.withNext := by decide
  obtain ⟨hinsert, hremove⟩ := edits_keep_separation hs
  obtain ⟨s₁, hs₁, hapart⟩ := hinsert .unsafeKw 1 (by decide)
  refine ⟨hs, ⟨s₁, hs₁, hapart fun h => nomatch h⟩, ?_, ?_⟩
  · rcases hremove 0 (by decide) with ⟨s', hs', hgap⟩ | ⟨_, hone, -⟩
    · exact ⟨s', hs', hgap.2 fun b t f h => absurd h (not_inARow_zero b t f)⟩
    · cases hone
  · rcases hremove 1 (by decide) with ⟨s', hs', hgap⟩ | ⟨_, hone, -⟩
    · exact ⟨s', hs', fun h => hgap.1 h _ _ _ ⟨0, rfl, rfl, rfl, rfl⟩ (by decide)⟩
    · cases hone

/-- An edit may glue two tokens together: an insertion behind a last token with nothing behind it,
and a removal that drops the only blanks between the tokens on both sides. -/
theorem edits_glue_tokens :
    (¬ ∀ (kind : ModifierKind) (s s' : Stretch) (index : Nat), Separated s.withNext →
      s.insert (.fresh kind) index = .ok s' → Separated s'.withNext) ∧
    (¬ ∀ (s s' : Stretch) (index : Nat), Separated s.withNext →
      s.remove index = .ok s' → Separated s'.withNext) := by
  refine ⟨fun h => ?_, fun h => ?_⟩
  · have hglued := h .staticKw ⟨none, [.bare (.modifier .publicKw) "public"], none⟩ _ 1
      (by decide) rfl
    revert hglued
    decide
  · have hglued := h spacedStatic _ 1 (by decide) rfl
    revert hglued
    decide

end Stretch

end DeclStyle
