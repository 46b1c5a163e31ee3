import DeclStyle.Proofs.Edit.Comments
import DeclStyle.Proofs.StyleRule.Run

/-!
# Style rules keep the comments

No rule loses, doubles or invents a comment.  Removals and insertions move the trivia of a list of
modifiers without changing the order of its comments; the two rules that sort move whole tokens and
whole members with the comments they carry.

* `StyleRule.preserves_comments_perm` — every rule keeps the comments of a declaration;
* `StyleRule.preserves_comments_eq` — the rules that do not sort also keep their order;
* `Check.comments_survive` — what a check does to the comments of a tree.
-/

namespace DeclStyle

/-! ## Trees -/

namespace CommentRelation

variable {S : List Trivia → List Trivia → Prop}

/-- What happens to the comments of each of several declarations happens to all their comments. -/
theorem flatMap (hS : CommentRelation S) {ds es : List Declaration}
    (h : List.Forall₂ (fun d e => S d.commentTrivia e.commentTrivia) ds es) :
    S (ds.flatMap Declaration.commentTrivia) (es.flatMap Declaration.commentTrivia) := by
  induction h with
  | nil => exact hS.refl []
  | cons hfirst _ ih => exact hS.append _ _ _ _ hfirst ih

/-- A relation between lists of comments, read as one between trees, goes through nesting. -/
theorem nests (hS : CommentRelation S) :
    StyleRule.Nests fun d e => S d.commentTrivia e.commentTrivia where
  refl d := hS.refl d.commentTrivia
  trans _ _ _ h h' := hS.trans _ _ _ h h'
  members _ _ h := hS.withMembers (hS.flatMap h)

end CommentRelation

/-! ## Single rules -/

namespace StyleRule

open Token

variable {S : List Trivia → List Trivia → Prop}

/-- An edit of the signature does to the comments of a declaration what it does to those of the
signature. -/
theorem commentTrivia_of_editSignature (hS : CommentRelation S) {d e : Declaration}
    {edit : Signature → Except EditError Signature}
    (hedit : ∀ s s', edit s = .ok s' →
      S (commentTriviaOfAll s.allTokens) (commentTriviaOfAll s'.allTokens))
    (h : d.editSignature edit = .ok e) : S d.commentTrivia e.commentTrivia := by
  obtain ⟨s, s', hs, hs', rfl⟩ := Declaration.editSignature_eq_ok_iff.1 h
  exact hS.withSignature hs (hedit s s' hs')

/-- The rules that do not sort keep all comments in their order. -/
theorem preserves_comments_eq {r : StyleRule} {settings : StyleSettings}
    (hmodifiers : r ≠ orderedModifiers) (hmembers : r ≠ orderedClassElements) :
    r.Preserves settings fun d e => d.commentTrivia = e.commentTrivia := by
  intro parent d e h
  cases h with
  | redundantUnsafe _ _ hedit =>
    refine commentTrivia_of_editSignature .eq (fun s s' hs => ?_) hedit
    exact (Signature.commentTrivia_of_removeKind hs).symm
  | staticClassMembers _ _ _ hedit =>
    refine commentTrivia_of_editSignature .eq (fun s s' hs => ?_) hedit
    exact (Signature.commentTrivia_of_insertKind hs).symm
  | visibilityRequired _ _ hedit =>
    refine commentTrivia_of_editSignature .eq (fun s s' hs => ?_) hedit
    exact (Signature.commentTrivia_of_insertKinds hs).symm
  | orderedModifiers => exact absurd rfl hmodifiers
  | orderedClassElements => exact absurd rfl hmembers

/-- Sorting modifiers moves comments and does nothing else to them. -/
theorem commentTrivia_sortModifiers_perm (modifiers : List Token) :
    (commentTriviaOfAll modifiers).Perm (commentTriviaOfAll (sortModifiers modifiers)) := by
  cases modifiers with
  | nil => exact List.Perm.refl _
  | cons first rest =>
    have hsorted := Comparer.stableSort_perm ModifierOrder.compareTokens
      ({ first with leading := [] } :: rest)
    have hcomments := commentTriviaOfAll_perm hsorted
    -- the trivia in front of the list are set aside, and put in front of the sorted list
    cases hlist : ModifierOrder.compareTokens.stableSort ({ first with leading := [] } :: rest) with
    | nil => simp [hlist] at hsorted
    | cons head tail =>
      rw [hlist] at hcomments
      rw [sortModifiers, hlist]
      simp only [commentTriviaOfAll_cons, List.modifyHead_cons, TriviaRun.onlyComments,
        List.filter_append, List.append_assoc, List.filter_nil, List.nil_append] at hcomments ⊢
      exact hcomments.symm.append_left _

/-- Every rule keeps all comments. -/
theorem preserves_comments_perm (r : StyleRule) (settings : StyleSettings) :
    r.Preserves settings fun d e => d.commentTrivia.Perm e.commentTrivia := by
  intro parent d e h
  by_cases hsorts : r = orderedModifiers ∨ r = orderedClassElements
  · cases h with
    | orderedModifiers hs _ =>
      refine CommentRelation.perm.withSignature hs ?_
      simp only [Signature.allTokens, commentTriviaOfAll_append]
      exact (commentTrivia_sortModifiers_perm _).append_right _
    | orderedClassElements _ _ =>
      refine CommentRelation.perm.withMembers ?_
      exact (Comparer.stableSort_perm _ d.members).symm.flatMap_right _
    | _ => simp at hsorts
  · rw [not_or] at hsorts
    rw [preserves_comments_eq hsorts.1 hsorts.2 parent d e h]

end StyleRule

/-! ## Checks -/

namespace Check

/-- **Comments survive a check.**  A check that succeeds keeps all comments of a tree, whatever
rules it runs.  Where it is asked for neither of the rules that sort, they also keep their order. -/
theorem comments_survive {names : List String} {settings : StyleSettings} {d : Declaration}
    {f : Fixed} (h : (run names settings d).outcome = .ok f) :
    f.tree.commentTrivia.Perm d.commentTrivia ∧
    (StyleRule.orderedModifiers.name ∉ names → StyleRule.orderedClassElements.name ∉ names →
      f.tree.comments = d.comments) := by
  constructor
  · have hperm := run_preserves (fun r _ => r.preserves_comments_perm settings)
      CommentRelation.perm.nests h
    exact hperm.symm
  · intro hmodifiers hmembers
    have hrules : ∀ r : StyleRule, r.name ∈ names →
        r.Preserves settings fun d e => d.commentTrivia = e.commentTrivia := by
      intro r hr
      refine StyleRule.preserves_comments_eq ?_ ?_
      · rintro rfl
        exact hmodifiers hr
      · rintro rfl
        exact hmembers hr
    have heq := run_preserves hrules CommentRelation.eq.nests h
    rw [Declaration.comments_eq_map_text, Declaration.comments_eq_map_text, heq]

/-- An unsafe class with the member `readonly /* a */ unsafe // b`. -/
def commentedClass : Declaration :=
  .type .classType ⟨[⟨.modifier .unsafeKw, "unsafe", [], [.space]⟩], [.bare .keyword "class"], none⟩
    [.plain .field
      ⟨[⟨.modifier .readonlyKw, "readonly", [], [.space, ⟨.multiLineComment, "/* a */"⟩]⟩,
        ⟨.modifier .unsafeKw, "unsafe", [.space], [⟨.singleLineComment, "// b"⟩, .lineFeed]⟩],
        [.bare .keyword "int"], none⟩]
    [.bare .punctuation "\x7d"]

/-- The class is left with its two comments in their order while the member loses its `unsafe` and
becomes private. -/
theorem comments_survive_commentedClass :
    ∃ f, (run ["visibility_required", "redundant_unsafe"] .standard commentedClass).outcome =
        .ok f ∧
      f.fixes.length = 2 ∧ f.tree.commentTrivia.Perm commentedClass.commentTrivia ∧
      f.tree.comments = commentedClass.comments := by
  have hrun : ∃ f, (run ["visibility_required", "redundant_unsafe"] .standard
      commentedClass).outcome = .ok f ∧ f.fixes.length = 2 := ⟨_, rfl, rfl⟩
  obtain ⟨f, hf, hfixes⟩ := hrun
  refine ⟨f, hf, hfixes, ?_, ?_⟩
  · exact (comments_survive hf).1
  · exact (comments_survive hf).2 (by decide) (by decide)

end Check

end DeclStyle
