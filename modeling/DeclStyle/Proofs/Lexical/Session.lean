import DeclStyle.Members
import DeclStyle.Proofs.Edit.Gaps
import DeclStyle.Proofs.Lexical.Safety
import DeclStyle.Proofs.StyleRule.ModifierOrder
import DeclStyle.Proofs.StyleRule.Run
import Mathlib.Logic.Relation

/-!
# Sessions

A session edits a tree step by step: modifiers are inserted and removed, members are inserted, style
rules are checked, at the top of the tree or anywhere in it.  However long a session is and however
its steps are mixed, a tree that was lexically safe in the beginning is so in the end.

* `StyleRule.preserves_lexicallySafe` — every change that a style rule makes keeps trees lexically
  safe;
* `Declaration.Step`, `Declaration.Session` — the steps, and sequences of them;
* `Piece.swallowed` — the words that stand behind a line comment with no line end between;
* `Declaration.session_stays_lexically_safe` — a session leaves the tree lexically safe, so that no
  modifier runs into the next word and no word is lost in a comment.
-/

namespace DeclStyle

/-! ## Style rules -/

namespace StyleRule

open Token Declaration

/-- Sorting modifiers keeps what does not depend on the trivia in front of the first one. -/
theorem forall_sortModifiers {P : Token → Prop} {modifiers : List Token}
    (hstrip : ∀ t, P t → P t.strip)
    (hbehind : ∀ u ∈ modifiers, ∀ t, P t → P (t.behind u.leading))
    (h : ∀ t ∈ modifiers, P t) : ∀ t ∈ sortModifiers modifiers, P t := by
  cases modifiers with
  | nil => exact h
  | cons first rest =>
    rw [sortModifiers_cons]
    refine forall_modifyHead (hbehind first List.mem_cons_self) fun t ht => ?_
    rw [List.forall_mem_cons] at h
    have hall := List.forall_mem_cons.2 ⟨hstrip first h.1, h.2⟩
    exact hall t ((Comparer.stableSort_perm _ _).mem_iff.1 ht)

/-- Every change of a style rule keeps trees lexically safe. -/
theorem preserves_lexicallySafe (r : StyleRule) (settings : StyleSettings) :
    r.Preserves settings fun d e => d.LexicallySafe → e.LexicallySafe := by
  intro parent d e h hd
  cases h with
  | redundantUnsafe _ _ hedit => exact hd.editSignature (Signature.keepsSafe_removeFirst _) hedit
  | staticClassMembers _ _ _ hedit =>
    exact hd.editSignature (Signature.keepsSafe_insert (insertable_fresh _) _) hedit
  | visibilityRequired _ _ hedit =>
    exact hd.editSignature (Signature.keepsSafe_insertKinds _ _) hedit
  | @orderedModifiers _ d s hs _ =>
    obtain ⟨hspaced, hclosed⟩ := hd.signature hs
    rw [Signature.allTokens, List.forall_mem_append] at hclosed
    refine hd.withSignature (by simp [hs]) ⟨?_, ?_⟩
    · exact forall_sortModifiers (fun _ ht => ht) (fun _ _ _ ht => ht) hspaced
    · rw [Signature.allTokens, List.forall_mem_append]
      refine ⟨forall_sortModifiers (fun _ => Closed.strip) ?_ hclosed.1, hclosed.2⟩
      exact fun u hu _ ht => ht.behind (hclosed.1 u hu).1
  | orderedClassElements _ _ =>
    refine hd.withMembers fun m hm => hd.of_mem ?_
    exact (Comparer.stableSort_perm _ _).mem_iff.1 hm

/-- Lexical safety goes through nesting. -/
theorem nests_lexicallySafe : Nests fun d e => d.LexicallySafe → e.LexicallySafe where
  refl _ hd := hd
  trans _ _ _ h h' hd := h' (h hd)
  members _ _ h hd := by
    refine hd.withMembers fun m' hm' => ?_
    obtain ⟨m, hm, hsafe⟩ := exists_mem_of_forall₂ h hm'
    exact hsafe (hd.of_mem hm)

end StyleRule

/-! ## Sessions -/

namespace Declaration

/-- One step of a session. -/
inductive Step : Declaration → Declaration → Prop where
  | insert {d e : Declaration} (t : Token) (order : Option (Comparer Token)) :
      t.Insertable → d.insert t order = .ok e → Step d e
  | insertKind {d e : Declaration} (kind : ModifierKind) (order : Option (Comparer ModifierKind)) :
      d.insertKind kind order = .ok e → Step d e
  | insertAccessibility {d e : Declaration} (a : Accessibility)
      (order : Option (Comparer ModifierKind)) : d.insertAccessibility a order = .ok e → Step d e
  | remove {d e : Declaration} (t : Token) : d.remove t = .ok e → Step d e
  | removeKind {d e : Declaration} (kind : ModifierKind) : d.removeKind kind = .ok e → Step d e
  | removeAt {d e : Declaration} (index : Nat) : d.removeAt index = .ok e → Step d e
  | removeAll {d e : Declaration} : d.removeAll = .ok e → Step d e
  | removeMatching {d e : Declaration} (p : Token → Bool) : d.removeMatching p = .ok e → Step d e
  | removeAccessibility {d e : Declaration} : d.removeAccessibility = .ok e → Step d e
  | insertMember {d e : Declaration} (m : Declaration) (order : Option (Comparer Declaration)) :
      m.LexicallySafe → d.insertMember m order = .ok e → Step d e
  | check {d : Declaration} {f : Fixed} (names : List String) (settings : StyleSettings) :
      (Check.run names settings d).outcome = .ok f → Step d f.tree
  /-- A step in a member of the tree. -/
  | member {d m m' : Declaration} {before after : List Declaration} :
      d.members = before ++ m :: after → Step m m' →
      Step d (d.withMembers (before ++ m' :: after))

/-- A sequence of steps. -/
abbrev Session : Declaration → Declaration → Prop := Relation.ReflTransGen Step

/-- A lexically safe member may be inserted at any place. -/
theorem LexicallySafe.insertMember {d e m : Declaration} {order : Option (Comparer Declaration)}
    (hd : d.LexicallySafe) (hm : m.LexicallySafe) (h : d.insertMember m order = .ok e) :
    e.LexicallySafe := by
  have hplace : ∀ place, ∀ n ∈ d.members.insertIdx place m, n.LexicallySafe := by
    intro place n hn
    rcases List.eq_or_mem_of_mem_insertIdx hn with rfl | hn
    · exact hm
    · exact hd.of_mem hn
  rw [Declaration.insertMember] at h
  split at h
  · cases h
  · rename_i members hmembers
    have heq : d.members = members := by rw [Declaration.members, hmembers, Option.getD_some]
    obtain rfl := Except.ok.inj h
    refine hd.withMembers ?_
    rw [← heq]
    cases order with
    | none => exact hplace _
    | some cmp => exact hplace _

/-- **A step keeps a tree lexically safe.** -/
theorem Step.lexicallySafe {d e : Declaration} (h : Step d e) (hd : d.LexicallySafe) :
    e.LexicallySafe := by
  induction h with
  | insert t order ht h => exact hd.editSignature (Signature.keepsSafe_insert ht order) h
  | insertKind kind order h =>
    exact hd.editSignature (Signature.keepsSafe_insert (Token.insertable_fresh kind) _) h
  | insertAccessibility a order h =>
    exact hd.editSignature (Signature.keepsSafe_insertKinds a.keywords order) h
  | remove t h => exact hd.editSignature (Signature.keepsSafe_removeFirst _) h
  | removeKind kind h => exact hd.editSignature (Signature.keepsSafe_removeFirst _) h
  | removeAt index h => exact hd.editSignature (Signature.keepsSafe_removeAt index) h
  | removeAll h => exact hd.editSignature Signature.keepsSafe_removeAll h
  | removeMatching p h => exact hd.editSignature (Signature.keepsSafe_removeMatching p) h
  | removeAccessibility h => exact hd.editSignature (Signature.keepsSafe_removeMatching _) h
  | insertMember m order hm h => exact hd.insertMember hm h
  | check names settings h =>
    exact Check.run_preserves (fun r _ => r.preserves_lexicallySafe settings)
      StyleRule.nests_lexicallySafe h hd
  | @member d m m' before after hmembers _ ih =>
    have hsafe : ∀ n ∈ before ++ m :: after, n.LexicallySafe := hmembers ▸ fun n => hd.of_mem
    rw [List.forall_mem_append, List.forall_mem_cons] at hsafe
    refine hd.withMembers ?_
    rw [List.forall_mem_append, List.forall_mem_cons]
    exact ⟨hsafe.1, ih hsafe.2.1, hsafe.2.2⟩

theorem Session.lexicallySafe {d e : Declaration} (h : Session d e) (hd : d.LexicallySafe) :
    e.LexicallySafe := by
  induction h with
  | refl => exact hd
  | tail _ hstep ih => exact hstep.lexicallySafe ih

end Declaration

/-! ## What lexical safety is for -/

namespace Piece

/-- Whether a line comment is open behind a piece of trivia, if one is open in front of it or none
is. -/
def isOpenBehind (isOpen : Bool) (t : Trivia) : Bool :=
  t.kind != .endOfLine && (isOpen || t.kind.isLineComment)

/-- The words that a reader of a document takes for parts of a comment, since no line end stands
between them and a line comment in front of them. -/
def swallowed : Bool → List Piece → List Piece
  | _, [] => []
  | isOpen, word kind text :: ps =>
    (if isOpen then [word kind text] else []) ++ swallowed isOpen ps
  | isOpen, trivia t :: ps => swallowed (isOpenBehind isOpen t) ps

/-- Behind a run that closes its lines no comment is open, provided that the run ends the line of
one that is open in front of it. -/
theorem swallowed_pieces_append {run : TriviaRun} (h : run.closesLines) {isOpen : Bool}
    (hopen : isOpen → run.any (·.kind == .endOfLine)) (ps : List Piece) :
    swallowed isOpen (run.pieces ++ ps) = swallowed false ps := by
  induction run generalizing isOpen with
  | nil =>
    cases isOpen with
    | false => rfl
    | true => cases hopen rfl
  | cons t run ih =>
    simp only [TriviaRun.closesLines, Bool.and_eq_true, Bool.or_eq_true, Bool.not_eq_true'] at h
    refine ih h.2 fun hbehind => ?_
    simp only [isOpenBehind, Bool.and_eq_true, bne_iff_ne, Bool.or_eq_true] at hbehind
    obtain ⟨hline, hbefore | hcomment⟩ := hbehind
    · have hend := hopen hbefore
      simpa [hline] using hend
    · exact h.1.resolve_left (by simp [hcomment])

/-- No word is swallowed among tokens whose runs close their lines. -/
theorem swallowed_piecesOfAll {ts : List Token} (h : ∀ t ∈ ts, t.Closed) :
    swallowed false (Token.piecesOfAll ts) = [] := by
  have hrun : ∀ (run : TriviaRun) (ps : List Piece), run.closesLines →
      swallowed false (run.pieces ++ ps) = swallowed false ps := fun run ps hclosed =>
    swallowed_pieces_append hclosed (by simp) ps
  induction ts with
  | nil => rfl
  | cons t ts ih =>
    rw [List.forall_mem_cons] at h
    obtain ⟨⟨hleading, htrailing⟩, hrest⟩ := h
    calc swallowed false (Token.piecesOfAll (t :: ts))
        = swallowed false (t.leading.pieces ++
            (t.word :: (t.trailing.pieces ++ Token.piecesOfAll ts))) := by
          simp [Token.pieces, Token.piecesIf]
      _ = swallowed false (t.word :: (t.trailing.pieces ++ Token.piecesOfAll ts)) :=
          hrun _ _ hleading
      _ = swallowed false (t.trailing.pieces ++ Token.piecesOfAll ts) := rfl
      _ = swallowed false (Token.piecesOfAll ts) := hrun _ _ htrailing
      _ = [] := ih hrest

end Piece

namespace Declaration

open Token

/-- No modifier of a lexically safe tree runs into the next word. -/
theorem LexicallySafe.gap_ne_empty {d n : Declaration} {s : Signature} {path : List Nat}
    (hd : d.LexicallySafe) (hn : d.at? path = some n) (hs : n.signature? = some s)
    {w : GappedWord} (hw : w ∈ (gappedWords s.allTokens).take s.modifiers.length) :
    w.gap ≠ "" := by
  have hspaced := hd.spaced path n hn
  rw [modifiers_eq hs] at hspaced
  exact gap_ne_empty_of_mem_take hspaced hw

/-- **A session leaves a lexically safe tree lexically safe**, whatever its steps are and however
many there are.  So there is text between each modifier and the next word, and no word is swallowed
by a line comment. -/
theorem session_stays_lexically_safe {d e : Declaration} (hd : d.LexicallySafe)
    (h : Session d e) :
    e.LexicallySafe ∧
    (∀ path n s, e.at? path = some n → n.signature? = some s →
      ∀ w ∈ (gappedWords s.allTokens).take s.modifiers.length, w.gap ≠ "") ∧
    Piece.swallowed false (piecesOfAll e.tokens) = [] := by
  have he := h.lexicallySafe hd
  refine ⟨he, ?_, Piece.swallowed_piecesOfAll he.closed⟩
  intro path n s hn hs w hw
  exact he.gap_ne_empty hn hs hw

/-- A public class with the member `static void M` under a comment. -/
def notedClass : Declaration :=
  .type .classType
    ⟨[⟨.modifier .publicKw, "public", [], [.space]⟩], [.bare .keyword "class"], none⟩
    [.plain .method
      ⟨[⟨.modifier .staticKw, "static", [⟨.singleLineComment, "// m"⟩, .lineFeed], [.space]⟩],
        [⟨.keyword, "void", [], [.space]⟩, .bare .identifier "M"], some 1⟩]
    [.bare .punctuation "\x7d"]

/-- The method becomes `async`, a field is added, the class loses its `public`, and a check is
run. -/
theorem session_stays_lexically_safe_notedClass : notedClass.LexicallySafe ∧
    ∃ e, Session notedClass e ∧ e.members.length = 2 ∧ e.LexicallySafe ∧
      (∀ path n s, e.at? path = some n → n.signature? = some s →
        ∀ w ∈ (gappedWords s.allTokens).take s.modifiers.length, w.gap ≠ "") ∧
      Piece.swallowed false (piecesOfAll e.tokens) = [] := by
  have hmethod : ∀ m ∈ notedClass.members, m.LexicallySafe := by
    intro m hm
    obtain rfl := List.mem_singleton.1 hm
    exact (lexicallySafe_iff _).2 ⟨by decide, by decide, fun _ h => (nomatch h), by decide⟩
  have hsafe : notedClass.LexicallySafe :=
    (lexicallySafe_iff _).2 ⟨by decide, by decide, hmethod, by decide⟩
  have hfield : LexicallySafe (.plain .field ⟨[], [.bare .keyword "int"], none⟩) :=
    (lexicallySafe_iff _).2 ⟨by decide, by decide, fun _ h => (nomatch h), by decide⟩
  have hinside : Step notedClass _ := @Step.member _ _ _ [] [] rfl (.insertKind .asyncKw none rfl)
  have hsession : ∃ e, Session notedClass e ∧ e.members.length = 2 :=
    ⟨_, .tail (.tail (.tail (.single hinside) (.insertMember _ none hfield rfl)) (.removeAt 0 rfl))
      (.check ["visibility_required", "ordered_class_elements"] .standard rfl), rfl⟩
  obtain ⟨e, he, hlength⟩ := hsession
  exact ⟨hsafe, e, he, hlength, session_stays_lexically_safe hsafe he⟩

end Declaration

end DeclStyle
