import DeclStyle.Proofs.Stretch.Turns
import DeclStyle.Proofs.Traversal.Position

/-!
# Lexical safety

A document may be corrupted by a change of trivia in two ways.  A modifier with nothing behind it
runs into the next word, and a comment that goes on to the end of its line takes in the words behind
it if the line end is gone.  Lexically safe declarations keep clear of both: every modifier brings
text behind it, and every run of trivia ends the lines of its comments by itself.

No edit of modifiers breaks that.  An edit hands runs on as a whole, drops a run as a whole, or puts
one behind another, and where it leaves the end of a modifier open it puts a space.

* `TriviaRun.closesLines` — every line comment of a run is followed by a line end in the run;
* `Stretch.Safe` — the same for a stretch of modifiers, which insertion and removal keep
  (`Safe.insert`, `Safe.remove`, `Safe.removeAll`, `Safe.removeMatching`);
* `Declaration.LexicallySafe` — the same for all modifiers and all tokens of a tree.  An edit of a
  signature keeps it where it keeps the signature safe (`LexicallySafe.editSignature`).
-/

namespace DeclStyle

/-! ## Runs of trivia -/

/-- A comment that goes on to the end of its line. -/
def TriviaKind.isLineComment : TriviaKind → Bool
  | singleLineComment | documentationComment => true
  | whitespace | endOfLine | multiLineComment | elasticMarker => false

namespace TriviaRun

/-- Whether every line comment of the run is followed by a line end in the run. -/
def closesLines : TriviaRun → Bool
  | [] => true
  | t :: run => (!t.kind.isLineComment || run.any (·.kind == .endOfLine)) && closesLines run

theorem closesLines_append {a b : TriviaRun} (ha : closesLines a) (hb : closesLines b) :
    closesLines (a ++ b) := by
  induction a with
  | nil => exact hb
  | cons t a ih =>
    simp only [closesLines, Bool.and_eq_true, Bool.or_eq_true] at ha
    obtain ⟨hline, ha⟩ := ha
    simp only [List.cons_append, closesLines, List.any_append, Bool.and_eq_true, Bool.or_eq_true]
    exact ⟨hline.imp_right .inl, ih ha⟩

theorem closesLines_keepCommented {run : TriviaRun} (h : closesLines run) :
    closesLines run.keepCommented := by
  unfold keepCommented
  split
  · rfl
  · exact h

end TriviaRun

/-! ## Tokens -/

namespace Token

/-- Both runs of the token end the lines of their comments. -/
def Closed (t : Token) : Prop := t.leading.closesLines ∧ t.trailing.closesLines

/-- The token brings text behind it. -/
def Spaced (t : Token) : Prop := t.trailing.render ≠ ""

instance (t : Token) : Decidable t.Closed := inferInstanceAs (Decidable (_ ∧ _))

instance (t : Token) : Decidable t.Spaced := inferInstanceAs (Decidable (_ ≠ _))

/-- A token that may be inserted as a modifier: what is behind it is either text or left open. -/
structure Insertable (t : Token) : Prop where
  closed : t.Closed
  trailing : t.trailing = [] ∨ t.trailing.isSingleElastic ∨ t.trailing.render ≠ ""

theorem insertable_fresh (kind : ModifierKind) : (fresh kind).Insertable where
  closed := ⟨rfl, rfl⟩
  trailing := .inr (.inl rfl)

variable {t : Token}

theorem Closed.strip (h : t.Closed) : t.strip.Closed := ⟨rfl, h.2⟩

theorem Closed.behind {run : TriviaRun} (hrun : run.closesLines) (h : t.Closed) :
    (t.behind run).Closed := ⟨TriviaRun.closesLines_append hrun h.1, h.2⟩

theorem Closed.withInFront {run : TriviaRun} (hrun : run.closesLines) (h : t.Closed) :
    (t.withInFront run).Closed :=
  ⟨TriviaRun.closesLines_append hrun (TriviaRun.closesLines_keepCommented h.1), h.2⟩

theorem Closed.withBehind {run : TriviaRun} (hrun : run.closesLines) (h : t.Closed) :
    (t.withBehind run).Closed := ⟨h.1, TriviaRun.closesLines_append h.2 hrun⟩

theorem Closed.leftBehindFirst (h : t.Closed) : t.leftBehindFirst.closesLines :=
  TriviaRun.closesLines_append h.1 (TriviaRun.closesLines_keepCommented h.2)

theorem Closed.leftBehind (h : t.Closed) : t.leftBehind.closesLines :=
  TriviaRun.closesLines_append (TriviaRun.closesLines_keepCommented h.1)
    (TriviaRun.closesLines_keepCommented h.2)

/-- More text behind a token leaves it with text behind it. -/
theorem Spaced.withBehind (h : t.Spaced) (run : TriviaRun) : (t.withBehind run).Spaced := by
  rw [Spaced, Token.withBehind, TriviaRun.render_append]
  simp [String.append_eq_empty_iff, show t.trailing.render ≠ "" from h]

/-- A token that comes into a document is closed, and has text behind it. -/
theorem Insertable.added (h : t.Insertable) (follower : Option Token) :
    (t.added follower).Closed ∧ (t.added follower).Spaced := by
  refine ⟨⟨?_, ?_⟩, ?_⟩
  · simp only [Token.added]
    split
    · rfl
    · exact h.closed.1
  · simp only [Token.added]
    split
    · rfl
    · exact h.closed.2
  · simp only [Spaced, Token.added]
    split
    · decide
    · rename_i hopen
      simp only [Bool.or_eq_true, List.isEmpty_iff, not_or] at hopen
      rcases h.trailing with hempty | helastic | htext
      · exact absurd hempty hopen.1
      · exact absurd helastic hopen.2
      · exact htext

section Lists

variable {ts : List Token}

theorem closesLines_leadingOfAll (h : ∀ t ∈ ts, t.Closed) : (leadingOfAll ts).closesLines := by
  cases ts with
  | nil => rfl
  | cons t ts => exact (h t List.mem_cons_self).1

/-- What a change of the first token keeps holds of all tokens still. -/
theorem forall_modifyHead {P : Token → Prop} {f : Token → Token} (hf : ∀ t, P t → P (f t))
    (h : ∀ t ∈ ts, P t) : ∀ t ∈ ts.modifyHead f, P t := by
  cases ts with
  | nil => exact h
  | cons t ts =>
    rw [List.forall_mem_cons] at h
    exact List.forall_mem_cons.2 ⟨hf t h.1, h.2⟩

end Lists

end Token

/-! ## Stretches -/

namespace Stretch

open Token

/-- A stretch of modifiers that can be printed: each has text behind it, and all tokens, the
neighbours included, end the lines of their comments. -/
structure Safe (s : Stretch) : Prop where
  spaced : ∀ t ∈ s.tokens, t.Spaced
  closed : ∀ t ∈ s.allTokens, t.Closed

variable {s s' : Stretch}

/-- The token that will follow an inserted one is one of the stretch or its neighbours. -/
theorem mem_allTokens_of_mem_follower? {index : Nat} {f : Token} (h : f ∈ s.follower? index) :
    f ∈ s.allTokens := by
  rw [follower?] at h
  rw [allTokens, List.append_assoc, List.mem_append, List.mem_append]
  split at h
  · exact .inr (.inl (List.mem_of_getElem? h))
  · exact .inr (.inr (Option.mem_toList.2 h))

/-- An insertion keeps a stretch safe. -/
theorem Safe.insert {t : Token} {index : Nat} (hs : s.Safe) (ht : t.Insertable)
    (h : s.insert t index = .ok s') : s'.Safe := by
  have hfollower : ∀ f ∈ (s.follower? index).toList, f.Closed := fun f hf =>
    hs.closed f (mem_allTokens_of_mem_follower? (Option.mem_toList.1 hf))
  obtain ⟨hadded, htext⟩ := ht.added (s.follower? index)
  have hnew := hadded.behind (closesLines_leadingOfAll hfollower)
  obtain ⟨before, after, htokens, -, rfl⟩ := exists_append_of_insert h
  obtain ⟨hspaced, hclosed⟩ := hs
  simp only [allTokens, htokens, List.forall_mem_append] at hspaced hclosed
  obtain ⟨⟨hprevious, hbefore, hafter⟩, hnext⟩ := hclosed
  constructor
  · simp only [List.forall_mem_append, List.forall_mem_cons]
    exact ⟨hspaced.1, htext, forall_modifyHead (fun _ ht => ht) hspaced.2⟩
  · simp only [allTokens, List.forall_mem_append, List.forall_mem_cons]
    refine ⟨⟨hprevious, hbefore, hnew, forall_modifyHead (fun _ => Closed.strip) hafter⟩, ?_⟩
    split
    · intro n hn
      obtain ⟨n', hn', rfl⟩ := Option.map_eq_some_iff.1 (Option.mem_toList.1 hn)
      exact (hnext n' (Option.mem_toList.2 hn')).strip
    · exact hnext

/-- The removal of one token keeps a stretch safe. -/
theorem Removal.safe {index : Nat} (h : Removal s index s') (hs : s.Safe) : s'.Safe := by
  obtain ⟨hspaced, hclosed⟩ := hs
  cases h with
  | ontoNext previous t n =>
    simp only [allTokens, List.forall_mem_append, List.forall_mem_singleton,
      Option.toList_some] at hclosed
    obtain ⟨⟨hprevious, ht⟩, hn⟩ := hclosed
    refine ⟨by simp, ?_⟩
    simp only [allTokens, List.forall_mem_append, List.forall_mem_singleton, Option.toList_some]
    exact ⟨⟨hprevious, by simp⟩, hn.withInFront ht.leftBehindFirst⟩
  | ontoPrevious p t =>
    simp only [allTokens, List.forall_mem_append, List.forall_mem_singleton,
      Option.toList_some] at hclosed
    obtain ⟨⟨hp, ht⟩, hnone⟩ := hclosed
    refine ⟨by simp, ?_⟩
    simp only [allTokens, List.forall_mem_append, List.forall_mem_singleton, Option.toList_some]
    exact ⟨⟨hp.withBehind ht.leftBehind, by simp⟩, hnone⟩
  | vanish t hleft => exact ⟨by simp, by simp [allTokens]⟩
  | ontoFollower previous t f rest next =>
    simp only [allTokens, List.forall_mem_append, List.forall_mem_cons] at hspaced hclosed
    obtain ⟨-, hf, hrest⟩ := hspaced
    obtain ⟨⟨hprevious, ht, hf', hrest'⟩, hnext⟩ := hclosed
    constructor
    · exact List.forall_mem_cons.2 ⟨hf, hrest⟩
    · simp only [allTokens, List.forall_mem_append, List.forall_mem_cons]
      exact ⟨⟨hprevious, hf'.withInFront ht.leftBehindFirst, hrest'⟩, hnext⟩
  | ontoPreceding previous before b t after next =>
    simp only [allTokens, List.forall_mem_append, List.forall_mem_cons] at hspaced hclosed
    obtain ⟨hbefore, hb, -, hafter⟩ := hspaced
    obtain ⟨⟨hprevious, hbefore', hb', ht, hafter'⟩, hnext⟩ := hclosed
    constructor
    · simp only [List.forall_mem_append, List.forall_mem_cons]
      exact ⟨hbefore, hb.withBehind _, hafter⟩
    · simp only [allTokens, List.forall_mem_append, List.forall_mem_cons]
      exact ⟨⟨hprevious, hbefore', hb'.withBehind ht.leftBehind, hafter'⟩, hnext⟩

theorem Safe.remove {index : Nat} (hs : s.Safe) (h : s.remove index = .ok s') : s'.Safe :=
  (remove_eq_ok_iff.1 h).safe hs

/-- What is left of all tokens of a list ends the lines of its comments. -/
theorem closesLines_leftBehindAll {ts : List Token} (h : ∀ t ∈ ts, t.Closed) :
    (leftBehindAll ts).closesLines := by
  refine leftBehindAll_induction (P := fun ts run => (∀ t ∈ ts, t.Closed) → run.closesLines)
    (fun _ => rfl) ?_ ?_ ts h
  · intro t ts run ih h
    rw [List.forall_mem_cons] at h
    exact TriviaRun.closesLines_append h.1.leftBehindFirst (ih h.2)
  · intro t ts run ih h
    rw [List.forall_mem_cons] at h
    exact TriviaRun.closesLines_append h.1.leftBehind (ih h.2)

/-- The removal of all tokens keeps a stretch safe. -/
theorem Safe.removeAll (hs : s.Safe) (h : s.removeAll = .ok s') : s'.Safe := by
  have hclosed := hs.closed
  simp only [allTokens, List.forall_mem_append] at hclosed
  obtain ⟨⟨hprevious, htokens⟩, hnext⟩ := hclosed
  have hleft := closesLines_leftBehindAll htokens
  cases removalOfAll_of_removeAll h with
  | nothing previous next => exact hs
  | ontoNext previous t rest n =>
    refine ⟨by simp, ?_⟩
    simp only [allTokens, List.forall_mem_append, List.forall_mem_singleton, Option.toList_some]
      at hnext ⊢
    exact ⟨⟨hprevious, by simp⟩, hnext.withInFront hleft⟩
  | soleOntoPrevious p t => exact hs.remove (remove_of_removal (.ontoPrevious p t))
  | ontoPrevious p t u rest =>
    refine ⟨by simp, ?_⟩
    simp only [allTokens, List.forall_mem_append, List.forall_mem_singleton, Option.toList_some]
      at hprevious ⊢
    exact ⟨⟨hprevious.withBehind hleft, by simp⟩, hnext⟩
  | vanish ts hblank => exact ⟨by simp, by simp [allTokens]⟩

/-- The removal of the tokens that pass a test keeps a stretch safe. -/
theorem Safe.removeMatching {p : Token → Bool} (hs : s.Safe) (h : s.removeMatching p = .ok s') :
    s'.Safe := by
  refine removeMatching_induction (R := fun s s' => s.Safe → s'.Safe) (fun s hs => hs) ?_ h hs
  intro s s₁ s' index hfirst hrest hs
  exact hrest (hs.remove hfirst)

end Stretch

/-! ## Signatures -/

namespace Signature

/-- A signature that can be printed: each modifier has text behind it, and all tokens end the lines
of their comments. -/
structure Safe (s : Signature) : Prop where
  spaced : ∀ t ∈ s.modifiers, t.Spaced
  closed : ∀ t ∈ s.allTokens, t.Closed

/-- An edit of signatures keeps safe ones safe. -/
def KeepsSafe (edit : Signature → Except EditError Signature) : Prop :=
  ∀ s s', s.Safe → edit s = .ok s' → s'.Safe

/-- A signature is safe if its stretch is, and the tokens behind it are closed. -/
theorem safe_iff_stretch (s : Signature) :
    s.Safe ↔ s.stretch.Safe ∧ ∀ t ∈ s.tokens.tail, t.Closed := by
  constructor
  · rintro ⟨hspaced, hclosed⟩
    rw [allTokens_eq_stretch, List.forall_mem_append] at hclosed
    exact ⟨⟨hspaced, hclosed.1⟩, hclosed.2⟩
  · rintro ⟨⟨hspaced, hclosed⟩, htail⟩
    refine ⟨hspaced, ?_⟩
    rw [allTokens_eq_stretch, List.forall_mem_append]
    exact ⟨hclosed, htail⟩

/-- A safe stretch can be stored in a safe signature. -/
theorem Safe.store {s : Signature} {edited : Stretch} (hs : s.Safe) (hedited : edited.Safe)
    (hprevious : edited.previous = none) (hnext : edited.next.isSome = s.next?.isSome) :
    (s.store edited).Safe := by
  constructor
  · rw [modifiers_store]
    exact hedited.spaced
  · rw [allTokens_store hprevious hnext, List.forall_mem_append]
    exact ⟨hedited.closed, ((safe_iff_stretch s).1 hs).2⟩

/-- The insertion of a modifier keeps signatures safe. -/
theorem keepsSafe_insert {t : Token} (ht : t.Insertable) (order : Option (Comparer Token)) :
    KeepsSafe (·.insert t order) := by
  intro s s' hs h
  obtain ⟨edited, hedit, rfl⟩ := editStretch_eq_ok_iff.1 h
  refine hs.store (((safe_iff_stretch s).1 hs).1.insert ht hedit) ?_ ?_
  · obtain ⟨before, after, -, -, rfl⟩ := Stretch.exists_append_of_insert hedit
    rfl
  · obtain ⟨before, after, -, -, rfl⟩ := Stretch.exists_append_of_insert hedit
    cases after <;> simp [stretch]

/-- The insertion of newly made modifiers keeps signatures safe. -/
theorem keepsSafe_insertKinds (kinds : List ModifierKind)
    (order : Option (Comparer ModifierKind)) : KeepsSafe (·.insertKinds kinds order) := by
  intro s s' hs h
  induction kinds generalizing s with
  | nil =>
    obtain rfl := Except.ok.inj h
    exact hs
  | cons kind kinds ih =>
    obtain ⟨s₁, hfirst, hrest⟩ := bind_eq_ok_iff.1 h
    exact ih s₁ (keepsSafe_insert (Token.insertable_fresh kind) _ s s₁ hs hfirst) hrest

/-- An edit of stretches that only removes and keeps stretches safe keeps signatures safe. -/
theorem keepsSafe_of_removesOnly {edit : Stretch → Except EditError Stretch}
    (honly : ∀ s s', edit s = .ok s' → ∃ mask, Stretch.RemovesOnly mask s s')
    (hsafe : ∀ s s', s.Safe → edit s = .ok s' → s'.Safe) : KeepsSafe (·.editStretch edit) := by
  intro s s' hs h
  obtain ⟨edited, hedit, rfl⟩ := editStretch_eq_ok_iff.1 h
  obtain ⟨mask, hmask⟩ := honly s.stretch edited hedit
  exact hs.store (hsafe s.stretch edited ((safe_iff_stretch s).1 hs).1 hedit)
    (hmask.previous_eq_none rfl) hmask.isSome_next

theorem keepsSafe_removeAt (index : Nat) : KeepsSafe (·.removeAt index) :=
  keepsSafe_of_removesOnly (fun _ _ h => ⟨_, Stretch.removesOnly_of_remove h⟩)
    fun _ _ hs h => hs.remove h

/-- The removal of the first modifier that passes a test keeps signatures safe. -/
theorem keepsSafe_removeFirst (p : Token → Bool) : KeepsSafe (·.removeFirst p) := by
  intro s s' hs h
  simp only [removeFirst] at h
  split at h
  · exact keepsSafe_removeAt _ s s' hs h
  · obtain rfl := Except.ok.inj h
    exact hs

theorem keepsSafe_removeAll : KeepsSafe Signature.removeAll :=
  keepsSafe_of_removesOnly (fun _ _ h => ⟨_, Stretch.removesOnly_of_removeAll h⟩)
    fun _ _ hs h => hs.removeAll h

theorem keepsSafe_removeMatching (p : Token → Bool) : KeepsSafe (·.removeMatching p) :=
  keepsSafe_of_removesOnly (fun _ _ h => ⟨_, Stretch.removesOnly_of_removeMatching h⟩)
    fun _ _ hs h => hs.removeMatching h

end Signature

/-! ## Declarations -/

namespace Declaration

/-- A tree that can be printed: every modifier in it has text behind it, and all its tokens end the
lines of their comments. -/
structure LexicallySafe (d : Declaration) : Prop where
  spaced : ∀ path n, d.at? path = some n → ∀ t ∈ n.modifiers, t.Spaced
  closed : ∀ t ∈ d.tokens, t.Closed

/-- A tree is lexically safe if its opening, its members and its tail are. -/
theorem lexicallySafe_iff (d : Declaration) :
    d.LexicallySafe ↔ (∀ t ∈ d.modifiers, t.Spaced) ∧ (∀ t ∈ d.opening, t.Closed) ∧
      (∀ m ∈ d.members, m.LexicallySafe) ∧ ∀ t ∈ d.tail, t.Closed := by
  have htokens : (∀ t ∈ d.tokens, t.Closed) ↔ (∀ t ∈ d.opening, t.Closed) ∧
      (∀ m ∈ d.members, ∀ t ∈ m.tokens, t.Closed) ∧ ∀ t ∈ d.tail, t.Closed := by
    rw [tokens_eq, body, tokensOfAll_eq_flatMap, List.forall_mem_append, List.forall_mem_append,
      List.forall_mem_flatMap]
  constructor
  · rintro ⟨hspaced, hclosed⟩
    obtain ⟨htop, hbelow⟩ := forall_at?_iff.1 hspaced
    obtain ⟨hopening, hmembers, htail⟩ := htokens.1 hclosed
    exact ⟨htop, hopening, fun m hm => ⟨hbelow m hm, hmembers m hm⟩, htail⟩
  · rintro ⟨htop, hopening, hmembers, htail⟩
    exact ⟨forall_at?_iff.2 ⟨htop, fun m hm => (hmembers m hm).spaced⟩,
      htokens.2 ⟨hopening, fun m hm => (hmembers m hm).closed, htail⟩⟩

theorem LexicallySafe.of_mem {d m : Declaration} (hd : d.LexicallySafe) (hm : m ∈ d.members) :
    m.LexicallySafe := ((lexicallySafe_iff d).1 hd).2.2.1 m hm

theorem LexicallySafe.signature {d : Declaration} {s : Signature} (hd : d.LexicallySafe)
    (h : d.signature? = some s) : s.Safe := by
  obtain ⟨hmodifiers, hopening, -, -⟩ := (lexicallySafe_iff d).1 hd
  exact ⟨modifiers_eq h ▸ hmodifiers, opening_eq_allTokens h ▸ hopening⟩

/-- A lexically safe tree stays so with another safe signature. -/
theorem LexicallySafe.withSignature {d : Declaration} {s : Signature} (hd : d.LexicallySafe)
    (h : d.signature?.isSome) (hs : s.Safe) : (d.withSignature s).LexicallySafe := by
  obtain ⟨-, -, hmembers, htail⟩ := (lexicallySafe_iff d).1 hd
  refine (lexicallySafe_iff _).2 ⟨?_, ?_, ?_, ?_⟩
  · rw [modifiers_withSignature h]
    exact hs.spaced
  · rw [opening_eq_allTokens (signature?_withSignature h s)]
    exact hs.closed
  · rw [members_withSignature]
    exact hmembers
  · cases d <;> exact htail

/-- A lexically safe tree stays so with other lexically safe members. -/
theorem LexicallySafe.withMembers {d : Declaration} {ms : List Declaration}
    (hd : d.LexicallySafe) (hms : ∀ m ∈ ms, m.LexicallySafe) :
    (d.withMembers ms).LexicallySafe := by
  cases d with
  | plain k s => exact hd
  | type k s ms' tl =>
    obtain ⟨hmodifiers, hopening, -, htail⟩ := (lexicallySafe_iff _).1 hd
    exact (lexicallySafe_iff _).2 ⟨hmodifiers, hopening, hms, htail⟩
  | space hd' ms' tl =>
    obtain ⟨hmodifiers, hopening, -, htail⟩ := (lexicallySafe_iff _).1 hd
    exact (lexicallySafe_iff _).2 ⟨hmodifiers, hopening, hms, htail⟩

/-- **An edit of a signature keeps a tree lexically safe** where it keeps signatures safe. -/
theorem LexicallySafe.editSignature {d e : Declaration}
    {edit : Signature → Except EditError Signature} (hd : d.LexicallySafe)
    (hedit : Signature.KeepsSafe edit) (h : d.editSignature edit = .ok e) : e.LexicallySafe := by
  obtain ⟨s, s', hs, hs', rfl⟩ := editSignature_eq_ok_iff.1 h
  exact hd.withSignature (by simp [hs]) (hedit s s' (hd.signature hs) hs')

end Declaration

end DeclStyle
