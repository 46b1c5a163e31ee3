import DeclStyle.Proofs.Edit.Insertion
import DeclStyle.Proofs.Stretch.Removal

/-!
# The comments of an edited declaration

The comments of a document are found on its tokens, and an edit may move them from token to token.
This module says what edits do to the comments of a document as a whole.

* `Declaration.commentTrivia` — the comments of a declaration, with their kinds, in document order;
* `Signature.commentTrivia_of_removeKind`, `Signature.commentTrivia_of_insertKinds` — the removal of
  a modifier and the insertion of newly made ones keep all comments in their order;
* `CommentRelation` — a relation between lists of comments that goes through concatenation, so that
  it holds of declarations once it holds of their parts (`CommentRelation.withSignature`,
  `CommentRelation.withMembers`).  Equality is one, and permutation is one.
-/

namespace DeclStyle

/-! ## Comments of tokens -/

theorem TriviaRun.commentTrivia_pieces (run : TriviaRun) :
    Piece.commentTrivia run.pieces = run.onlyComments := by
  rw [Piece.commentTrivia, TriviaRun.pieces, List.filterMap_map, TriviaRun.onlyComments,
    ← List.filterMap_eq_filter]
  rfl

namespace Token

/-- The comments of a list of tokens, with their kinds, in document order. -/
def commentTriviaOfAll (ts : List Token) : List Trivia := Piece.commentTrivia (piecesOfAll ts)

@[simp] theorem commentTriviaOfAll_append (xs ys : List Token) :
    commentTriviaOfAll (xs ++ ys) = commentTriviaOfAll xs ++ commentTriviaOfAll ys := by
  simp [commentTriviaOfAll]

/-- The comments of a token do not depend on its word. -/
theorem commentTrivia_piecesIf (t : Token) (kept : Bool) :
    Piece.commentTrivia (t.piecesIf kept) = t.leading.onlyComments ++ t.trailing.onlyComments := by
  have hword : Piece.commentTrivia (if kept then [t.word] else []) = [] := by
    cases kept <;> rfl
  simp only [piecesIf, Piece.commentTrivia_append, TriviaRun.commentTrivia_pieces, hword,
    List.append_nil]

theorem commentTriviaOfAll_cons (t : Token) (ts : List Token) :
    commentTriviaOfAll (t :: ts) =
      t.leading.onlyComments ++ t.trailing.onlyComments ++ commentTriviaOfAll ts := by
  rw [commentTriviaOfAll, piecesOfAll_cons, Piece.commentTrivia_append, pieces,
    commentTrivia_piecesIf, ← commentTriviaOfAll]

/-- The texts of the comments of tokens. -/
theorem commentsOfAll_eq_map_text (ts : List Token) :
    commentsOfAll ts = (commentTriviaOfAll ts).map Trivia.text := by
  induction ts with
  | nil => rfl
  | cons t ts ih =>
    rw [commentTriviaOfAll_cons, List.map_append, List.map_append, ← ih]
    rfl

/-- Giving up the words of tokens leaves their comments. -/
theorem commentTrivia_piecesKept {mask : List Bool} {ts : List Token}
    (h : mask.length = ts.length) :
    Piece.commentTrivia (piecesKept mask ts) = commentTriviaOfAll ts := by
  induction ts generalizing mask with
  | nil =>
    obtain rfl := List.length_eq_zero_iff.1 h
    rfl
  | cons t ts ih =>
    obtain ⟨kept, mask, rfl⟩ := List.exists_cons_of_length_eq_add_one h
    rw [piecesKept_cons, Piece.commentTrivia_append, commentTrivia_piecesIf,
      commentTriviaOfAll_cons, ih (Nat.succ.inj h)]

/-- Moving tokens moves their comments. -/
theorem commentTriviaOfAll_perm {xs ys : List Token} (h : xs.Perm ys) :
    (commentTriviaOfAll xs).Perm (commentTriviaOfAll ys) :=
  (h.flatMap_right pieces).filterMap _

/-- A newly made modifier brings no comment along. -/
theorem commentTrivia_fresh_added (kind : ModifierKind) (follower : Option Token) :
    Piece.commentTrivia ((fresh kind).added follower).pieces = [] := by
  rw [pieces, commentTrivia_piecesIf]
  have hmarker : TriviaRun.elastic.isSingleElastic = true := rfl
  by_cases hfollower : follower.any (!·.leading.isEmpty) = true <;>
    simp only [added, fresh, hmarker, hfollower] <;> rfl

end Token

/-! ## Comments of stretches -/

/-- A removal keeps all comments in their order. -/
theorem Stretch.RemovesOnly.commentTrivia_eq {mask : List Bool} {s s' : Stretch}
    (h : RemovesOnly mask s s') :
    Token.commentTriviaOfAll s'.allTokens = Token.commentTriviaOfAll s.allTokens := by
  have hkept : Piece.commentTrivia (s.piecesKept mask) = Token.commentTriviaOfAll s.allTokens := by
    rw [piecesKept, Piece.commentTrivia_append, Piece.commentTrivia_append,
      Token.commentTrivia_piecesKept h.length_mask, allTokens, Token.commentTriviaOfAll_append,
      Token.commentTriviaOfAll_append]
    rfl
  rw [← hkept, ← Piece.commentTrivia_contents, ← h.contents_eq, Piece.commentTrivia_contents]
  rfl

/-! ## Comments of signatures -/

namespace Signature

open Token

theorem commentTrivia_store {s : Signature} {edited : Stretch} {mask : List Bool}
    (h : Stretch.RemovesOnly mask s.stretch edited) :
    commentTriviaOfAll (s.store edited).allTokens = commentTriviaOfAll s.allTokens := by
  rw [allTokens_store (h.previous_eq_none rfl) h.isSome_next, commentTriviaOfAll_append,
    h.commentTrivia_eq, ← commentTriviaOfAll_append, ← allTokens_eq_stretch]

/-- The removal of a modifier keeps all comments in their order. -/
theorem commentTrivia_of_removeKind {s s' : Signature} {kind : ModifierKind}
    (h : s.removeKind kind = .ok s') :
    commentTriviaOfAll s'.allTokens = commentTriviaOfAll s.allTokens := by
  unfold removeKind removeFirst at h
  split at h
  · obtain ⟨edited, hedit, rfl⟩ := editStretch_eq_ok_iff.1 h
    exact commentTrivia_store (Stretch.removesOnly_of_remove hedit)
  · obtain rfl := Except.ok.inj h
    rfl

/-- The insertion of a newly made modifier keeps all comments in their order. -/
theorem commentTrivia_of_insertKind {s s' : Signature} {kind : ModifierKind}
    {order : Option (Comparer ModifierKind)} (h : s.insertKind kind order = .ok s') :
    commentTriviaOfAll s'.allTokens = commentTriviaOfAll s.allTokens := by
  obtain ⟨s'', hs'', htokens⟩ := s.insert_eq_ok (.fresh kind) (order.map ModifierOrder.onTokens)
  obtain rfl := Except.ok.inj (hs''.symm.trans h)
  generalize placeOf s.modifiers (.fresh kind) (order.map ModifierOrder.onTokens) = index at htokens
  rw [htokens, s.allTokens_eq_take_append index, commentTriviaOfAll_append,
    commentTriviaOfAll_append]
  congr 1
  rw [commentTriviaOfAll, piecesOfAll_cons, pieces_behind, List.append_assoc,
    Piece.commentTrivia_append, Piece.commentTrivia_append, commentTrivia_fresh_added,
    List.nil_append, ← Piece.commentTrivia_append, ← piecesOfAll_eq_leading_append,
    ← commentTriviaOfAll]

/-- The insertion of newly made modifiers keeps all comments in their order. -/
theorem commentTrivia_of_insertKinds {s s' : Signature} {kinds : List ModifierKind}
    {order : Option (Comparer ModifierKind)} (h : s.insertKinds kinds order = .ok s') :
    commentTriviaOfAll s'.allTokens = commentTriviaOfAll s.allTokens := by
  induction kinds generalizing s with
  | nil =>
    obtain rfl := Except.ok.inj h
    rfl
  | cons kind kinds ih =>
    obtain ⟨s₁, hfirst, hrest⟩ := bind_eq_ok_iff.1 h
    rw [ih hrest, commentTrivia_of_insertKind hfirst]

end Signature

/-! ## Comments of declarations -/

namespace Declaration

open Token

/-- The comments of a declaration, with their kinds, in document order. -/
def commentTrivia (d : Declaration) : List Trivia := commentTriviaOfAll d.tokens

theorem comments_eq_map_text (d : Declaration) : d.comments = d.commentTrivia.map Trivia.text :=
  commentsOfAll_eq_map_text d.tokens

theorem commentTriviaOfAll_tokensOfAll (ds : List Declaration) :
    commentTriviaOfAll (tokensOfAll ds) = ds.flatMap commentTrivia := by
  induction ds with
  | nil => rfl
  | cons d ds ih =>
    rw [tokensOfAll, commentTriviaOfAll_append, ih, List.flatMap_cons, commentTrivia]

/-- The comments of a declaration are those of its opening, its members and its tail. -/
theorem commentTrivia_eq (d : Declaration) :
    d.commentTrivia = commentTriviaOfAll d.opening ++
      (d.members.flatMap commentTrivia ++ commentTriviaOfAll d.tail) := by
  rw [commentTrivia, tokens_eq, body, commentTriviaOfAll_append, commentTriviaOfAll_append,
    commentTriviaOfAll_tokensOfAll]

end Declaration

/-- A relation between lists of comments that goes through concatenation. -/
structure CommentRelation (S : List Trivia → List Trivia → Prop) : Prop where
  refl : ∀ a, S a a
  trans : ∀ a b c, S a b → S b c → S a c
  append : ∀ a b c d, S a b → S c d → S (a ++ c) (b ++ d)

namespace CommentRelation

open Token

variable {S : List Trivia → List Trivia → Prop}

theorem eq : CommentRelation (· = ·) where
  refl _ := rfl
  trans _ _ _ := Eq.trans
  append := by
    rintro a _ c _ rfl rfl
    rfl

theorem perm : CommentRelation List.Perm where
  refl := List.Perm.refl
  trans _ _ _ := List.Perm.trans
  append _ _ _ _ := List.Perm.append

/-- An edit of a signature does to the comments of a declaration what it does to those of the
signature. -/
theorem withSignature (hS : CommentRelation S) {d : Declaration} {s s' : Signature}
    (h : d.signature? = some s)
    (hs : S (commentTriviaOfAll s.allTokens) (commentTriviaOfAll s'.allTokens)) :
    S d.commentTrivia (d.withSignature s').commentTrivia := by
  have hbefore : d.tokens = s.allTokens ++ d.body := by
    rw [Declaration.tokens_eq, Declaration.opening_eq_allTokens h]
  have hafter : (d.withSignature s').tokens = s'.allTokens ++ d.body :=
    Declaration.tokens_withSignature (by simp [h]) s'
  rw [Declaration.commentTrivia, Declaration.commentTrivia, hbefore, hafter,
    commentTriviaOfAll_append, commentTriviaOfAll_append]
  exact hS.append _ _ _ _ hs (hS.refl _)

/-- What happens to the comments of all members of a declaration happens to its comments. -/
theorem withMembers (hS : CommentRelation S) {d : Declaration} {ms : List Declaration}
    (h : S (d.members.flatMap Declaration.commentTrivia) (ms.flatMap Declaration.commentTrivia)) :
    S d.commentTrivia (d.withMembers ms).commentTrivia := by
  cases d with
  | plain k s => exact hS.refl _
  | type k s ms' tl =>
    rw [Declaration.commentTrivia_eq, Declaration.commentTrivia_eq]
    exact hS.append _ _ _ _ (hS.refl _) (hS.append _ _ _ _ h (hS.refl _))
  | space hd ms' tl =>
    rw [Declaration.commentTrivia_eq, Declaration.commentTrivia_eq]
    exact hS.append _ _ _ _ (hS.refl _) (hS.append _ _ _ _ h (hS.refl _))

end CommentRelation

end DeclStyle
