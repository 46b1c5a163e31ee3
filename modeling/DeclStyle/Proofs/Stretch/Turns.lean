import DeclStyle.Proofs.Edit.Keywords

/-!
# Turns

A removal by a test goes through the tokens from the last to the first, and what a removed token
leaves behind lands on the token whose turn is next.  A test that looks at trivia may therefore
judge a token differently from how it would have judged it at first: a comment that moves along may
take one token after another with it.  A test is safe from this if it does not heed what is put
behind a token, and all the more if it does not look at trivia.

* `Token.inTurn` — tokens as they stand when their turn comes;
* `Token.verdicts_inTurn_of_heedless` — a test that does not heed what is put behind a token judges
  all tokens as they stood at first;
* `Stretch.removesOnly_of_removeMatching` — the tokens go that pass the test in their turn, and no
  others;
* `Stretch.words_of_removeMatching` — the words that remain where the test does not look at trivia;
* `Stretch.removal_drops_only_blanks` — of one token, of all tokens or by a test, a removal gives up
  words and blanks, and nothing else.
-/

namespace DeclStyle

namespace Token

/-- Tokens as they stand when their turn comes in a removal by a test.  The last one comes first,
and a token bears what is left behind of the next one if that has gone. -/
def inTurn (p : Token → Bool) : List Token → List Token
  | [] => []
  | t :: ts =>
    match inTurn p ts with
    | [] => [t]
    | u :: us => (if p u then t.withBehind u.leftBehind else t) :: u :: us

variable {p : Token → Bool}

@[simp] theorem length_inTurn (p : Token → Bool) (ts : List Token) :
    (inTurn p ts).length = ts.length := by
  induction ts with
  | nil => rfl
  | cons t ts ih =>
    rw [inTurn, List.length_cons, ← ih]
    cases inTurn p ts <;> rfl

/-- The words of tokens do not change until their turn. -/
theorem words_inTurn (p : Token → Bool) (ts : List Token) :
    (inTurn p ts).map word = ts.map word := by
  induction ts with
  | nil => rfl
  | cons t ts ih =>
    rw [inTurn, List.map_cons, ← ih]
    cases inTurn p ts with
    | nil => rfl
    | cons u us =>
      rw [List.map_cons]
      split <;> rfl

/-- A last token that stays does not change those before it. -/
theorem inTurn_append_of_stays {ts : List Token} {t : Token} (h : ¬ p t) :
    inTurn p (ts ++ [t]) = inTurn p ts ++ [t] := by
  induction ts with
  | nil => rfl
  | cons x ts ih =>
    rw [List.cons_append, inTurn, inTurn, ih]
    cases inTurn p ts with
    | nil => simp [h]
    | cons u us => rfl

/-- A last token that goes changes the one before it, and through it those further before. -/
theorem inTurn_append_of_goes {ts : List Token} {b t : Token} (h : p t) :
    inTurn p (ts ++ [b, t]) = inTurn p (ts ++ [b.withBehind t.leftBehind]) ++ [t] := by
  induction ts with
  | nil => simp [inTurn, h]
  | cons x ts ih =>
    rw [List.cons_append, List.cons_append, inTurn, inTurn, ih]
    cases hturn : inTurn p (ts ++ [b.withBehind t.leftBehind]) with
    | nil =>
      have hlength := congrArg List.length hturn
      simp at hlength
    | cons u us => rfl

/-- A test that does not heed what is put behind a token judges all tokens as they stood at
first. -/
theorem verdicts_inTurn_of_heedless {ts : List Token}
    (h : ∀ t ∈ ts, ∀ run, p (t.withBehind run) = p t) : (inTurn p ts).map p = ts.map p := by
  induction ts with
  | nil => rfl
  | cons t ts ih =>
    rw [List.forall_mem_cons] at h
    rw [inTurn, List.map_cons, ← ih h.2]
    cases inTurn p ts with
    | nil => rfl
    | cons u us =>
      rw [List.map_cons]
      split
      · rw [h.1]
      · rfl

/-- A token is judged differently from how it would have been at first only if the one right behind
it goes and leaves something. -/
theorem exists_leftBehind_of_judged_differently {ts : List Token} {i : Nat} {t t' : Token}
    (ht : ts[i]? = some t) (ht' : (inTurn p ts)[i]? = some t') (hdiffer : p t' ≠ p t) :
    ∃ u, (inTurn p ts)[i + 1]? = some u ∧ p u ∧ u.leftBehind ≠ [] := by
  induction ts generalizing i with
  | nil => cases ht
  | cons x ts ih =>
    rw [inTurn] at ht' ⊢
    cases hturn : inTurn p ts with
    | nil =>
      rw [hturn] at ht'
      cases i with
      | zero =>
        obtain rfl : x = t := Option.some.inj ht
        obtain rfl : x = t' := Option.some.inj ht'
        exact absurd rfl hdiffer
      | succ i => cases ht'
    | cons u us =>
      rw [hturn] at ht' ih
      cases i with
      | succ i => exact ih ht ht'
      | zero =>
        obtain rfl : x = t := Option.some.inj ht
        obtain rfl : (if p u then x.withBehind u.leftBehind else x) = t' := Option.some.inj ht'
        by_cases hu : p u
        · refine ⟨u, rfl, hu, fun hnothing => hdiffer ?_⟩
          rw [if_pos hu, hnothing, withBehind, List.append_nil]
        · rw [if_neg hu] at hdiffer
          exact absurd rfl hdiffer

/-- The tokens that do not pass a test when their turn comes. -/
def leftInTurn (p : Token → Bool) (ts : List Token) : List Token := (inTurn p ts).filter (!p ·)

/-- The words that a mask read off other tokens keeps are those of these tokens, if the words of
both are the same. -/
theorem wordsKept_map_eq {ts us : List Token} (hwords : us.map word = ts.map word)
    (keep : Token → Bool) : wordsKept (us.map keep) ts = (us.filter keep).map word := by
  induction us generalizing ts with
  | nil => rfl
  | cons u us ih =>
    cases ts with
    | nil => cases hwords
    | cons t ts =>
      obtain ⟨hword, hrest⟩ := List.cons.inj hwords
      rw [List.map_cons, wordsKept_cons, ih hrest, List.filter_cons]
      cases keep u with
      | false => rfl
      | true => simp [hword]

/-- Where the verdicts are the same as at first, the words that are left are those of the tokens
that did not pass the test at first. -/
theorem words_leftInTurn {ts : List Token} (h : (inTurn p ts).map p = ts.map p) :
    (leftInTurn p ts).map word = (ts.filter (!p ·)).map word := by
  have hmask : (inTurn p ts).map (!p ·) = ts.map (!p ·) := by
    simpa [Function.comp_def] using congrArg (List.map not) h
  rw [leftInTurn, ← wordsKept_map_eq (words_inTurn p ts), hmask, wordsKept_map_eq rfl]

end Token

/-! ## The tokens that remain -/

namespace Stretch

open Token

variable {p : Token → Bool} {s s' : Stretch}

/-- A token that goes leaves the ones before it as they stand when their turns come. -/
theorem Removal.inTurn_take {index : Nat} (h : Removal s index s') {t : Token}
    (ht : s.tokens[index]? = some t) (hp : p t) :
    inTurn p (s.tokens.take (index + 1)) = inTurn p (s'.tokens.take index) ++ [t] := by
  cases h with
  | ontoPreceding previous before b u after next =>
    obtain rfl : u = t := by simpa using ht
    show inTurn p ((before ++ b :: u :: after).take (before.length + 2)) =
      inTurn p ((before ++ b.withBehind u.leftBehind :: after).take (before.length + 1)) ++ [u]
    rw [List.take_length_add_append, List.take_length_add_append]
    exact inTurn_append_of_goes hp
  | _ =>
    obtain rfl := Option.some.inj ht
    rfl

/-- One removal after another, from position `count` downwards, takes the tokens before that
position that pass the test when their turn comes. -/
theorem removesOnly_of_removeMatchingBefore {count : Nat} (hcount : count ≤ s.tokens.length)
    (h : removeMatchingBefore p count s = .ok s') :
    RemovesOnly ((inTurn p (s.tokens.take count)).map (!p ·) ++
      List.replicate (s.tokens.length - count) true) s s' := by
  induction count generalizing s with
  | zero =>
    obtain rfl := Except.ok.inj h
    exact RemovesOnly.refl s
  | succ count ih =>
    have ht : s.tokens[count]? = some s.tokens[count] := List.getElem?_eq_getElem hcount
    have htake : s.tokens.take (count + 1) = s.tokens.take count ++ [s.tokens[count]] :=
      (List.take_append_getElem hcount).symm
    rw [removeMatchingBefore, ht, Option.any_some] at h
    by_cases hp : p s.tokens[count]
    · rw [if_pos hp] at h
      obtain ⟨s₁, hs₁, hrest⟩ := bind_eq_ok_iff.1 h
      have hr := remove_eq_ok_iff.1 hs₁
      have hlength := hr.length_eq
      have hturn := hr.inTurn_take ht hp
      have hlow : ((inTurn p (s₁.tokens.take count)).map (!p ·)).length = count := by
        rw [List.length_map, length_inTurn, List.length_take_of_le (by omega)]
      have hlater := ih (by omega) hrest
      rw [hturn, List.map_append, List.map_singleton, hp, List.append_assoc]
      refine RemovesOnly.of_removal (by rwa [hlow]) ?_
      rwa [show s.tokens.length - (count + 1) = s₁.tokens.length - count by omega]
    · rw [if_neg hp] at h
      have hlater := ih (Nat.le_of_succ_le hcount) h
      have hkept : (!p s.tokens[count]) = true := by simpa using hp
      rw [htake, inTurn_append_of_stays hp, List.map_append, List.map_singleton, hkept,
        List.append_assoc, List.singleton_append, ← List.replicate_succ]
      rwa [show s.tokens.length - (count + 1) + 1 = s.tokens.length - count by omega]

/-- **A removal by a test** takes the tokens that pass it when their turn comes, and no others. -/
theorem removesOnly_of_removeMatching (h : s.removeMatching p = .ok s') :
    RemovesOnly ((inTurn p s.tokens).map (!p ·)) s s' := by
  have hall := removesOnly_of_removeMatchingBefore (Nat.le_refl _) h
  rwa [List.take_length, Nat.sub_self, List.replicate_zero, List.append_nil] at hall

theorem words_of_removeMatching_inTurn (h : s.removeMatching p = .ok s') :
    s'.tokens.map word = (leftInTurn p s.tokens).map word := by
  rw [(removesOnly_of_removeMatching h).words, wordsKept_map_eq (words_inTurn p s.tokens),
    leftInTurn]

/-- A test that does not look at trivia leaves the words of the tokens that do not pass it. -/
theorem words_of_removeMatching (hp : IgnoresTrivia p) (h : s.removeMatching p = .ok s') :
    s'.tokens.map word = (s.tokens.filter (!p ·)).map word := by
  have hverdicts := verdicts_inTurn_of_heedless fun t (_ : t ∈ s.tokens) => hp.withBehind t
  rw [words_of_removeMatching_inTurn h, words_leftInTurn hverdicts]

/-! ## What removals drop -/

/-- **A removal drops blanks and nothing else.**  Whatever the trivia and the neighbours, a
successful removal of one token, of all tokens, or of the tokens that pass a test in their turn
gives up the words of just these tokens and some blanks.  So nothing is added or reordered, and the
other words and all comments stay in their places. -/
theorem removal_drops_only_blanks (s s' : Stretch) :
    (∀ index, s.remove index = .ok s' →
      RemovesOnly ((List.replicate s.tokens.length true).set index false) s s') ∧
    (s.removeAll = .ok s' → RemovesOnly (List.replicate s.tokens.length false) s s') ∧
    (∀ p, s.removeMatching p = .ok s' → RemovesOnly ((inTurn p s.tokens).map (!p ·)) s s') ∧
    (∀ mask, RemovesOnly mask s s' → s'.pieces.Sublist (s.piecesKept mask) ∧
      Piece.contents s'.pieces = Piece.contents (s.piecesKept mask)) := by
  refine ⟨?_, removesOnly_of_removeAll, ?_, ?_⟩
  · intro index h
    exact removesOnly_of_remove h
  · intro p h
    exact removesOnly_of_removeMatching h
  · intro mask h
    exact ⟨h.pieces.sublist, h.contents_eq⟩

/-- The modifiers of `public /* a */ static int`. -/
def commented : Stretch where
  previous := none
  tokens :=
    [⟨.modifier .publicKw, "public", [], [.space, ⟨.multiLineComment, "/* a */"⟩]⟩,
      ⟨.modifier .staticKw, "static", [.space], [.space]⟩]
  next := some (.bare .keyword "int")

/-- Each of the three removals succeeds on `public /* a */ static int` and keeps the comment. -/
theorem removal_drops_only_blanks_commented :
    (∃ s', commented.remove 0 = .ok s' ∧ RemovesOnly [false, true] commented s') ∧
    (∃ s', commented.removeAll = .ok s' ∧ RemovesOnly [false, false] commented s') ∧
    (∃ s', commented.removeMatching (·.leading.isEmpty) = .ok s' ∧
      RemovesOnly [false, true] commented s') :=
  ⟨⟨_, rfl, (removal_drops_only_blanks commented _).1 0 rfl⟩,
    ⟨_, rfl, (removal_drops_only_blanks commented _).2.1 rfl⟩,
    ⟨_, rfl, (removal_drops_only_blanks commented _).2.2.1 (·.leading.isEmpty) rfl⟩⟩

end Stretch

end DeclStyle
