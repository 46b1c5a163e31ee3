import DeclStyle.Proofs.Stretch.Failure

/-!
# Removing all tokens one by one

The removal of all tokens gathers what they leave behind in a single pass.  Taking the first token
away again and again is the long way round: each time, the run that has gathered so far goes in
front of the new first token and travels on with it.

* `Stretch.removeOneByOne` — the long way round;
* `Stretch.exists_removeOneByOne_eq` — it ends with one token that bears what all of them leave
  behind;
* `Stretch.removeAll_agrees_removeOneByOne` — with a token after the stretch both ways end in the
  same stretch, and with no neighbour at all they fail on the same stretches.
-/

namespace DeclStyle

namespace Token

/-- What gathered in front of a token comes first in what it leaves behind. -/
theorem leftBehindFirst_withInFront (t : Token) (run : TriviaRun) :
    (t.withInFront run).leftBehindFirst = run ++ t.leftBehind := by
  simp [leftBehindFirst, withInFront, leftBehind]

end Token

namespace Stretch

/-- Removes the first token a number of times, each time from what the last removal left. -/
def removeFirsts : Nat → Stretch → Except EditError Stretch
  | 0, s => .ok s
  | count + 1, s => do
    let s' ← s.remove 0
    removeFirsts count s'

/-- Removes every token, the first one each time. -/
def removeOneByOne (s : Stretch) : Except EditError Stretch := s.removeFirsts s.tokens.length

variable (previous next : Option Token)

/-- An only token goes as it would on its own. -/
theorem removeOneByOne_singleton (t : Token) :
    removeOneByOne ⟨previous, [t], next⟩ = removeSole ⟨previous, [t], next⟩ t := by
  show (removeSole ⟨previous, [t], next⟩ t >>= Except.ok) = _
  cases removeSole ⟨previous, [t], next⟩ t <;> rfl

/-- The first of several tokens passes on what it leaves behind, and the next one is first then. -/
theorem removeOneByOne_cons_cons (t f : Token) (rest : List Token) :
    removeOneByOne ⟨previous, t :: f :: rest, next⟩ =
      removeOneByOne ⟨previous, f.withInFront t.leftBehindFirst :: rest, next⟩ := by
  show (do
    let s' ← remove ⟨previous, t :: f :: rest, next⟩ 0
    removeFirsts (rest.length + 1) s') = _
  rw [remove_of_removal (.ontoFollower previous t f rest next)]
  rfl

/-- Passing on what the first token leaves behind does not change what is left of all of them. -/
theorem leftBehindAll_passedOn (t f : Token) (rest : List Token) :
    leftBehindAll (f.withInFront t.leftBehindFirst :: rest) = leftBehindAll (t :: f :: rest) := by
  rw [leftBehindAll, leftBehindAll, Token.leftBehindFirst_withInFront, List.flatMap_cons,
    List.append_assoc]

/-- **The removals one by one come to a single token** of the last token's kind, and it bears what
all tokens leave behind. -/
theorem exists_removeOneByOne_eq (t : Token) (rest : List Token) :
    ∃ last : Token, last.leftBehindFirst = leftBehindAll (t :: rest) ∧
      (t :: rest).getLast?.map Token.kind = some last.kind ∧
      removeOneByOne ⟨previous, t :: rest, next⟩ = removeSole ⟨previous, [last], next⟩ last := by
  -- the run that has gathered so far stands in front of the first token, so that is general
  induction rest generalizing t with
  | nil =>
    refine ⟨t, ?_, rfl, removeOneByOne_singleton previous next t⟩
    exact (List.append_nil _).symm
  | cons f rest ih =>
    obtain ⟨last, hleft, hkind, hremove⟩ := ih (f.withInFront t.leftBehindFirst)
    refine ⟨last, ?_, ?_, ?_⟩
    · rw [hleft, leftBehindAll_passedOn]
    · rw [← hkind]
      cases rest <;> rfl
    · rw [removeOneByOne_cons_cons, hremove]

/-- With a token after the stretch, all that is left behind goes in front of it. -/
theorem removeAll_of_next (tokens : List Token) (n : Token) (hne : tokens ≠ []) :
    removeAll ⟨previous, tokens, some n⟩ =
      .ok ⟨previous, [], some (n.withInFront (leftBehindAll tokens))⟩ := by
  cases h : removeAll ⟨previous, tokens, some n⟩ with
  | error e =>
    obtain ⟨kind, hstranded, -⟩ := removeAll_eq_error_iff.1 h
    cases hstranded.next
  | ok s' =>
    cases removalOfAll_of_removeAll h with
    | nothing => exact absurd rfl hne
    | ontoNext => rfl

/-- One by one as well. -/
theorem removeOneByOne_of_next (tokens : List Token) (n : Token) (hne : tokens ≠ []) :
    removeOneByOne ⟨previous, tokens, some n⟩ =
      .ok ⟨previous, [], some (n.withInFront (leftBehindAll tokens))⟩ := by
  obtain ⟨t, rest, rfl⟩ := List.exists_cons_of_ne_nil hne
  obtain ⟨last, hleft, -, hremove⟩ := exists_removeOneByOne_eq previous (some n) t rest
  rw [hremove, ← hleft]
  rfl

/-- With no neighbour, all tokens can go if there is no comment at any of them. -/
theorem removeAll_of_no_comment {tokens : List Token} (h : ∀ t ∈ tokens, t.comments = []) :
    removeAll ⟨none, tokens, none⟩ = .ok ⟨none, [], none⟩ := by
  cases hall : removeAll ⟨none, tokens, none⟩ with
  | error e =>
    obtain ⟨kind, hstranded, -⟩ := removeAll_eq_error_iff.1 hall
    obtain ⟨t, ht, hcomment⟩ := hstranded.comment
    exact absurd (h t ht) hcomment
  | ok s' => cases removalOfAll_of_removeAll hall <;> rfl

/-- The single token that removals one by one come to has a comment if any token had one. -/
theorem leftBehind_eq_nil_iff_of_leftBehindFirst {last : Token} {tokens : List Token}
    (h : last.leftBehindFirst = leftBehindAll tokens) :
    last.leftBehind = [] ↔ ∀ t ∈ tokens, t.comments = [] := by
  rw [last.leftBehind_eq_nil_iff, ← last.comments_leftBehindFirst, h,
    TriviaRun.comments_eq_nil_iff, isBlank_leftBehindAll_iff]

/-- One by one as well. -/
theorem removeOneByOne_of_no_comment {tokens : List Token} (h : ∀ t ∈ tokens, t.comments = []) :
    removeOneByOne ⟨none, tokens, none⟩ = .ok ⟨none, [], none⟩ := by
  cases tokens with
  | nil => rfl
  | cons t rest =>
    obtain ⟨last, hleft, -, hremove⟩ := exists_removeOneByOne_eq none none t rest
    have hnil := (leftBehind_eq_nil_iff_of_leftBehindFirst hleft).2 h
    rw [hremove, removeSole, hnil]
    rfl

/-- With no neighbour and a comment, the removal of all tokens names the first of them, and one by
one it is the last that cannot go. -/
theorem removals_of_comment {tokens : List Token} (h : ∃ t ∈ tokens, t.comments ≠ []) :
    ∃ first last : Token, tokens.head? = some first ∧ tokens.getLast? = some last ∧
      removeAll ⟨none, tokens, none⟩ = .error (.noAnchorToken first.kind) ∧
      removeOneByOne ⟨none, tokens, none⟩ = .error (.noAnchorToken last.kind) := by
  cases tokens with
  | nil => simp at h
  | cons t rest =>
    obtain ⟨last, hleft, hkind, hremove⟩ := exists_removeOneByOne_eq none none t rest
    obtain ⟨u, hu, hlast⟩ := Option.map_eq_some_iff.1 hkind
    have hne : last.leftBehind ≠ [] := by
      intro hnil
      obtain ⟨v, hv, hcomment⟩ := h
      exact hcomment ((leftBehind_eq_nil_iff_of_leftBehindFirst hleft).1 hnil v hv)
    refine ⟨t, u, rfl, hu, ?_, ?_⟩
    · exact removeAll_eq_error_iff.2 ⟨t.kind, ⟨rfl, rfl, rfl, h⟩, rfl⟩
    · rw [hremove, hlast]
      simp [removeSole, hne]

/-- **Removing all tokens is removing them one by one.**  With a token after the stretch both
succeed and end in the same stretch, down to each piece of trivia.  With no neighbour they both
succeed if there is no comment at any token, and else both find no token to anchor the comment: the
one reports the first token, the other the last. -/
theorem removeAll_agrees_removeOneByOne :
    (∀ (previous : Option Token) (tokens : List Token) (n : Token), ∃ s',
      removeAll ⟨previous, tokens, some n⟩ = .ok s' ∧
      removeOneByOne ⟨previous, tokens, some n⟩ = .ok s' ∧ s'.tokens = []) ∧
    (∀ tokens : List Token,
      ((∀ t ∈ tokens, t.comments = []) ∧
        removeAll ⟨none, tokens, none⟩ = .ok ⟨none, [], none⟩ ∧
        removeOneByOne ⟨none, tokens, none⟩ = .ok ⟨none, [], none⟩) ∨
      (∃ t ∈ tokens, t.comments ≠ []) ∧
        ∃ first last : Token, tokens.head? = some first ∧ tokens.getLast? = some last ∧
          removeAll ⟨none, tokens, none⟩ = .error (.noAnchorToken first.kind) ∧
          removeOneByOne ⟨none, tokens, none⟩ = .error (.noAnchorToken last.kind)) := by
  constructor
  · intro previous tokens n
    by_cases hne : tokens = []
    · subst hne
      exact ⟨_, rfl, rfl, rfl⟩
    · have hone := removeOneByOne_of_next previous tokens n hne
      exact ⟨_, removeAll_of_next previous tokens n hne, hone, rfl⟩
  · intro tokens
    by_cases hnone : ∀ t ∈ tokens, t.comments = []
    · exact .inl ⟨hnone, removeAll_of_no_comment hnone, removeOneByOne_of_no_comment hnone⟩
    · have hsome : ∃ t ∈ tokens, t.comments ≠ [] := by
        simpa only [not_forall, exists_prop] using hnone
      exact .inr ⟨hsome, removals_of_comment hsome⟩

end Stretch

end DeclStyle
