import DeclStyle.Proofs.Stretch.Turns

/-!
# Removals that fail

A removal fails only where a comment would be lost: when the last token of a stretch goes, there is
no neighbour on either side, and a comment is at hand.  The comment need not have been at that token
to begin with.

* `Stretch.Stranded` — a stretch whose comments could go nowhere if all its tokens went;
* `Stretch.remove_eq_error_iff`, `Stretch.removeAll_eq_error_iff`,
  `Stretch.removeMatching_eq_error_iff` — each way to remove tokens fails exactly if it is to remove
  all tokens of a stranded stretch, and all of them report the kind of its first token.
-/

namespace DeclStyle

/-! ## Comments that are left behind -/

namespace TriviaRun

/-- A run without comments is blank. -/
theorem comments_eq_nil_iff (run : TriviaRun) : run.comments = [] ↔ run.isBlank := by
  rw [comments, List.map_eq_nil_iff, List.filter_eq_nil_iff, isBlank, List.all_eq_true]
  constructor
  · intro h t ht
    simpa [Trivia.isComment] using h t ht
  · intro h t ht
    simp [Trivia.isComment, h t ht]

@[simp] theorem comments_keepCommented (run : TriviaRun) :
    run.keepCommented.comments = run.comments := by
  unfold keepCommented
  split
  · rename_i hblank
    exact ((comments_eq_nil_iff run).2 hblank).symm
  · rfl

end TriviaRun

namespace Token

@[simp] theorem comments_leftBehindFirst (t : Token) : t.leftBehindFirst.comments = t.comments := by
  simp [leftBehindFirst, comments]

@[simp] theorem comments_leftBehind (t : Token) : t.leftBehind.comments = t.comments := by
  simp [leftBehind, comments]

/-- A token that stood behind another leaves something if it had a comment. -/
theorem leftBehind_eq_nil_iff (t : Token) : t.leftBehind = [] ↔ t.comments = [] := by
  rw [leftBehind, List.append_eq_nil_iff, TriviaRun.keepCommented_eq_nil_iff,
    TriviaRun.keepCommented_eq_nil_iff, ← TriviaRun.comments_eq_nil_iff,
    ← TriviaRun.comments_eq_nil_iff, comments, List.append_eq_nil_iff]

/-- A token takes over the comments of the one behind it. -/
theorem comments_withBehind_leftBehind (b t : Token) :
    (b.withBehind t.leftBehind).comments = b.comments ++ t.comments := by
  rw [withBehind, comments, TriviaRun.comments_append, comments_leftBehind, ← List.append_assoc]
  rfl

end Token

namespace Stretch

open Token

/-- What is left of all tokens holds all their comments. -/
theorem comments_leftBehindAll (ts : List Token) :
    (leftBehindAll ts).comments = commentsOfAll ts := by
  refine leftBehindAll_induction (P := fun ts run => run.comments = commentsOfAll ts) rfl ?_ ?_ ts
  · intro t ts run ih
    rw [TriviaRun.comments_append, comments_leftBehindFirst, ih]
    rfl
  · intro t ts run ih
    rw [TriviaRun.comments_append, comments_leftBehind, ih]
    rfl

/-! ## One token and all tokens -/

/-- A stretch with a comment at its tokens and no neighbour that could take it over.  Its first
token is of the given kind. -/
structure Stranded (s : Stretch) (kind : TokenKind) : Prop where
  previous : s.previous = none
  next : s.next = none
  first : s.tokens.head?.map Token.kind = some kind
  comment : ∃ t ∈ s.tokens, t.comments ≠ []

/-- A stranded stretch has a first token, and no neighbours. -/
theorem Stranded.exists_eq {s : Stretch} {kind : TokenKind} (h : s.Stranded kind) :
    ∃ t rest, s = ⟨none, t :: rest, none⟩ ∧ t.kind = kind ∧ ∃ u ∈ t :: rest, u.comments ≠ [] := by
  obtain ⟨previous, tokens, next⟩ := s
  obtain ⟨hprevious, hnext, hfirst, hcomment⟩ := h
  obtain rfl : previous = none := hprevious
  obtain rfl : next = none := hnext
  cases tokens with
  | nil => cases hfirst
  | cons t rest => exact ⟨t, rest, rfl, Option.some.inj hfirst, hcomment⟩

theorem Stranded.tokens_ne_nil {s : Stretch} {kind : TokenKind} (h : s.Stranded kind) :
    s.tokens ≠ [] := by
  obtain ⟨t, rest, rfl, -⟩ := h.exists_eq
  exact List.cons_ne_nil t rest

theorem remove_of_length_le {s : Stretch} {index : Nat} (h : s.tokens.length ≤ index) :
    s.remove index = .error (.indexOutOfBounds index s.tokens.length) := by
  rw [remove, List.getElem?_eq_none h]

/-- **The removal of one token** fails where it is the only one of a stranded stretch. -/
theorem remove_eq_error_iff {s : Stretch} {index : Nat} (h : index < s.tokens.length)
    {e : EditError} :
    s.remove index = .error e ↔
      s.tokens.length = 1 ∧ ∃ kind, s.Stranded kind ∧ e = .noAnchorToken kind := by
  have hok : ∀ s', Removal s index s' → s.remove index ≠ .error e := by
    intro s' hr he
    rw [remove_of_removal hr] at he
    cases he
  constructor
  · intro he
    obtain ⟨previous, tokens, next⟩ := s
    cases index with
    | succ k =>
      obtain ⟨before, b, t, after, rfl, rfl⟩ := exists_append_cons_cons h
      exact absurd he (hok _ (.ontoPreceding previous before b t after next))
    | zero =>
      obtain ⟨t, rest, rfl⟩ := List.exists_cons_of_length_pos h
      cases rest with
      | cons f rest => exact absurd he (hok _ (.ontoFollower previous t f rest next))
      | nil =>
        cases next with
        | some n => exact absurd he (hok _ (.ontoNext previous t n))
        | none =>
          cases previous with
          | some p => exact absurd he (hok _ (.ontoPrevious p t))
          | none =>
            have hleft : t.leftBehind ≠ [] := fun hleft => hok _ (.vanish t hleft) he
            have hcomment : t.comments ≠ [] := fun hnil => hleft (t.leftBehind_eq_nil_iff.2 hnil)
            have hkind : .noAnchorToken t.kind = e := by
              simpa [remove, removeSole, hleft] using he
            exact ⟨rfl, t.kind, ⟨rfl, rfl, rfl, t, List.mem_cons_self, hcomment⟩, hkind.symm⟩
  · rintro ⟨hone, kind, hstranded, rfl⟩
    obtain ⟨t, rest, rfl, rfl, u, hu, hcomment⟩ := hstranded.exists_eq
    obtain rfl : rest = [] := by simpa using hone
    obtain rfl : index = 0 := Nat.lt_one_iff.1 h
    obtain rfl := List.mem_singleton.1 hu
    have hleft : u.leftBehind ≠ [] := fun hleft => hcomment (u.leftBehind_eq_nil_iff.1 hleft)
    simp [remove, removeSole, hleft]

/-- What is left of all tokens is blank if there is no comment at any of them. -/
theorem isBlank_leftBehindAll_iff (ts : List Token) :
    (leftBehindAll ts).isBlank ↔ ∀ t ∈ ts, t.comments = [] := by
  rw [← TriviaRun.comments_eq_nil_iff, comments_leftBehindAll, commentsOfAll,
    List.flatMap_eq_nil_iff]

/-- **The removal of all tokens** fails where the stretch is stranded. -/
theorem removeAll_eq_error_iff {s : Stretch} {e : EditError} :
    s.removeAll = .error e ↔ ∃ kind, s.Stranded kind ∧ e = .noAnchorToken kind := by
  have hunfold : ∀ (t f : Token) (rest : List Token), removeAll ⟨none, t :: f :: rest, none⟩ =
      if (leftBehindAll (t :: f :: rest)).isBlank then .ok ⟨none, [], none⟩
      else .error (.noAnchorToken t.kind) := fun _ _ _ => rfl
  constructor
  · intro he
    obtain ⟨previous, tokens, next⟩ := s
    cases tokens with
    | nil => cases he
    | cons t rest =>
      cases rest with
      | nil =>
        have hremove : remove ⟨previous, [t], next⟩ 0 = .error e := he
        exact ((remove_eq_error_iff Nat.zero_lt_one).1 hremove).2
      | cons f rest =>
        cases next with
        | some n => cases he
        | none =>
          cases previous with
          | some p => cases he
          | none =>
            rw [hunfold] at he
            split at he
            · cases he
            · rename_i hleft
              rw [isBlank_leftBehindAll_iff] at hleft
              have hcomment : ∃ u ∈ t :: f :: rest, u.comments ≠ [] := by
                simpa only [not_forall, exists_prop] using hleft
              exact ⟨t.kind, ⟨rfl, rfl, rfl, hcomment⟩, (Except.error.inj he).symm⟩
  · rintro ⟨kind, hstranded, rfl⟩
    obtain ⟨t, rest, rfl, rfl, u, hu, hcomment⟩ := hstranded.exists_eq
    cases rest with
    | nil => exact (remove_eq_error_iff Nat.zero_lt_one).2 ⟨rfl, _, hstranded, rfl⟩
    | cons f rest =>
      have hleft : ¬ (leftBehindAll (t :: f :: rest)).isBlank := fun hblank =>
        hcomment ((isBlank_leftBehindAll_iff _).1 hblank u hu)
      rw [hunfold, if_neg hleft]

/-- A position in the stretch rules out every other error. -/
theorem exists_noAnchorToken_of_remove {s : Stretch} {index : Nat} (h : index < s.tokens.length)
    {e : EditError} (he : s.remove index = .error e) : ∃ kind, e = .noAnchorToken kind := by
  obtain ⟨-, kind, -, rfl⟩ := (remove_eq_error_iff h).1 he
  exact ⟨kind, rfl⟩

/-! ## The tokens that pass a test -/

/-- Removals by a test, of whatever sort, have no other error either. -/
theorem exists_noAnchorToken_of_removeMatchingBefore {p : Token → Bool} {count : Nat} {s : Stretch}
    (hcount : count ≤ s.tokens.length) {e : EditError}
    (he : removeMatchingBefore p count s = .error e) : ∃ kind, e = .noAnchorToken kind := by
  induction count generalizing s with
  | zero => cases he
  | succ count ih =>
    rw [removeMatchingBefore] at he
    split at he
    · cases hs₁ : s.remove count with
      | error e' =>
        rw [hs₁] at he
        obtain rfl : e' = e := Except.error.inj he
        exact exists_noAnchorToken_of_remove hcount hs₁
      | ok s₁ =>
        rw [hs₁] at he
        have hlength := (remove_eq_ok_iff.1 hs₁).length_eq
        exact ih (by omega) he
    · exact ih (Nat.le_of_succ_le hcount) he

/-- What is stranded once a token behind another one has gone was so before: the token before it has
taken its comments over. -/
theorem Removal.stranded_iff {s s' : Stretch} {index : Nat} (h : Removal s (index + 1) s')
    (kind : TokenKind) : s'.Stranded kind ↔ s.Stranded kind := by
  cases h with
  | ontoPreceding previous before b t after next =>
    have hfirst : (before ++ b.withBehind t.leftBehind :: after).head?.map Token.kind =
        (before ++ b :: t :: after).head?.map Token.kind := by
      cases before <;> rfl
    have hcomment : (∃ u ∈ before ++ b.withBehind t.leftBehind :: after, u.comments ≠ []) ↔
        ∃ u ∈ before ++ b :: t :: after, u.comments ≠ [] := by
      simp only [List.mem_append, List.mem_cons, or_and_right, exists_or, exists_eq_left,
        comments_withBehind_leftBehind, ne_eq, List.append_eq_nil_iff, not_and_or, or_assoc]
    constructor
    · rintro ⟨hprevious, hnext, hkind, hsome⟩
      exact ⟨hprevious, hnext, hfirst ▸ hkind, hcomment.1 hsome⟩
    · rintro ⟨hprevious, hnext, hkind, hsome⟩
      exact ⟨hprevious, hnext, hfirst ▸ hkind, hcomment.2 hsome⟩

/-- A removal leaves the verdicts of a test that does not look at trivia, one verdict less. -/
theorem forall_tokens_of_removal {p : Token → Bool} (hp : IgnoresTrivia p) {s s' : Stretch}
    {index : Nat} {t : Token} (ht : s.tokens[index]? = some t) (hpt : p t)
    (h : s.remove index = .ok s') : (∀ u ∈ s'.tokens, p u) ↔ ∀ u ∈ s.tokens, p u := by
  have hverdicts : ∀ ts : List Token, (∀ u ∈ ts, p u) ↔ ∀ v ∈ ts.map p, v = true := by
    intro ts
    rw [List.forall_mem_map]
  rw [hverdicts, hverdicts, map_tokens_remove hp h]
  constructor
  · intro hall v hv
    obtain ⟨j, hj⟩ := List.mem_iff_getElem?.1 hv
    by_cases hindex : j = index
    · rw [hindex, List.getElem?_map, ht] at hj
      obtain rfl := Option.some.inj hj
      exact hpt
    · exact hall v (List.mem_eraseIdx_iff_getElem?.2 ⟨j, hindex, hj⟩)
  · intro hall v hv
    exact hall v (List.mem_of_mem_eraseIdx hv)

/-- One removal after another, from position `count` downwards, fails where they are to remove all
tokens of a stranded stretch. -/
theorem removeMatchingBefore_eq_error_iff {p : Token → Bool} (hp : IgnoresTrivia p) {count : Nat}
    {s : Stretch} (hcount : count ≤ s.tokens.length) {e : EditError} :
    removeMatchingBefore p count s = .error e ↔
      count = s.tokens.length ∧ (∀ t ∈ s.tokens, p t) ∧
        ∃ kind, s.Stranded kind ∧ e = .noAnchorToken kind := by
  induction count generalizing s with
  | zero =>
    refine iff_of_false (fun he => ?_) ?_
    · cases he
    · rintro ⟨hlength, -, kind, hstranded, -⟩
      exact hstranded.tokens_ne_nil (List.eq_nil_of_length_eq_zero hlength.symm)
  | succ count ih =>
    have ht : s.tokens[count]? = some s.tokens[count] := List.getElem?_eq_getElem hcount
    rw [removeMatchingBefore, ht, Option.any_some]
    by_cases hpt : p s.tokens[count]
    · rw [if_pos hpt]
      cases hs₁ : s.remove count with
      | error e' =>
        obtain ⟨hone, kind, hstranded, rfl⟩ := (remove_eq_error_iff hcount).1 hs₁
        have hall : ∀ u ∈ s.tokens, p u := by
          intro u hu
          obtain ⟨t, htokens⟩ := List.length_eq_one_iff.1 hone
          simp only [htokens, List.mem_singleton, List.getElem_singleton] at hu hpt
          rw [hu]
          exact hpt
        constructor
        · intro he
          exact ⟨by omega, hall, kind, hstranded, (Except.error.inj he).symm⟩
        · rintro ⟨-, -, kind', hstranded', rfl⟩
          have hkind := Option.some.inj (hstranded.first.symm.trans hstranded'.first)
          rw [hkind]
          rfl
      | ok s₁ =>
        have hr := remove_eq_ok_iff.1 hs₁
        have hlength := hr.length_eq
        show removeMatchingBefore p count s₁ = .error e ↔ _
        rw [ih (by omega), forall_tokens_of_removal hp ht hpt hs₁]
        cases count with
        | succ count =>
          simp only [hr.stranded_iff, hlength, Nat.add_right_cancel_iff]
        | zero =>
          -- the first token has gone, so it cannot have been the only one of a stranded stretch
          constructor
          · rintro ⟨hnone, -, kind, hstranded, -⟩
            exact absurd (List.eq_nil_of_length_eq_zero hnone.symm) hstranded.tokens_ne_nil
          · rintro ⟨hone, -, kind, hstranded, -⟩
            have herror := (remove_eq_error_iff hcount).2 ⟨hone.symm, kind, hstranded, rfl⟩
            rw [hs₁] at herror
            cases herror
    · rw [if_neg hpt]
      show removeMatchingBefore p count s = .error e ↔ _
      rw [ih (Nat.le_of_succ_le hcount)]
      constructor
      · rintro ⟨hlength, -⟩
        omega
      · rintro ⟨-, hall, -⟩
        exact absurd (hall _ (List.getElem_mem hcount)) hpt

/-- **The removal of the tokens that pass a test**, which does not look at trivia, fails where all
tokens of a stranded stretch pass. -/
theorem removeMatching_eq_error_iff {p : Token → Bool} (hp : IgnoresTrivia p) {s : Stretch}
    {e : EditError} :
    s.removeMatching p = .error e ↔
      (∀ t ∈ s.tokens, p t) ∧ ∃ kind, s.Stranded kind ∧ e = .noAnchorToken kind := by
  rw [removeMatching, removeMatchingBefore_eq_error_iff hp (Nat.le_refl _)]
  exact and_iff_right rfl

end Stretch

end DeclStyle
