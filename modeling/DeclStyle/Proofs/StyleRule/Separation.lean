import DeclStyle.Proofs.Lexical.Separation
import DeclStyle.Proofs.StyleRule.InPlace
import DeclStyle.Proofs.StyleRule.ModifierOrder

/-!
# Text between sorted modifiers

Sorting takes each modifier along with the trivia on its two sides, those in front of the first one
aside.  So the gaps in a sorted list come of runs that never stood next to each other: a modifier
with no text behind it may come in front of one with no text in front of it, although each was told
apart from its neighbours before.

* `Declaration.front`, `Declaration.sortedFront` — the modifiers of a declaration and the token
  behind them, as they stand and in order of rank;
* `StyleRule.separated_front_iff_of_outcome` — the modifiers that a tree comes out with are told
  apart where the sorted ones are;
* `StyleRule.sorting_keeps_separation` — which pairs of neighbours decide;
* `StyleRule.sorting_glues_modifiers` — they do not always stay apart.
-/

namespace DeclStyle

/-! ## Gaps between tokens that change places -/

namespace Token

variable {Q : TriviaRun → Prop}

/-- A change of the run in front of the first token leaves the gaps. -/
theorem everyGap_modifyHead_append (f : Token → Token) (hf : ∀ t, (f t).trailing = t.trailing)
    (ts rest : List Token) : EveryGap Q (ts.modifyHead f ++ rest) ↔ EveryGap Q (ts ++ rest) := by
  cases ts with
  | nil => rfl
  | cons t ts => exact everyGap_cons t (f t) (hf t) (ts ++ rest)

/-- Where some tokens are told apart, others are if it is so for those neighbours that are new. -/
theorem Separated.iff_of_new_neighbours {ts us : List Token} (h : Separated ts) :
    Separated us ↔ ∀ x y, [x, y] <:+: us → ¬ [x, y] <:+: ts → x.Spaced ∨ y.leading.render ≠ "" := by
  have hneighbours : ∀ vs : List Token, Separated vs ↔
      ∀ x y, [x, y] <:+: vs → x.Spaced ∨ y.leading.render ≠ "" := by
    intro vs
    simp only [← render_gap_ne_empty_iff]
    refine List.isChain_iff_forall_rel_of_append_cons_cons.trans ⟨?_, ?_⟩
    · rintro hgap x y ⟨before, after, rfl⟩
      exact hgap (List.append_assoc before [x, y] after)
    · rintro hgap x y before after rfl
      exact hgap x y ⟨before, after, by simp⟩
  constructor
  · intro hus x y hxy _
    exact (hneighbours us).1 hus x y hxy
  · intro hnew
    refine (hneighbours us).2 fun x y hxy => ?_
    by_cases hold : [x, y] <:+: ts
    · exact (hneighbours ts).1 h x y hold
    · exact hnew x y hxy hold

/-- Tokens that all bring text behind them are told apart, from one another and from the next. -/
theorem separated_append_of_spaced {ts : List Token} (h : ∀ t ∈ ts, t.Spaced)
    (next : Option Token) : Separated (ts ++ next.toList) := by
  induction ts with
  | nil => cases next <;> simp [Separated, EveryGap]
  | cons t ts ih =>
    rw [List.forall_mem_cons] at h
    refine List.isChain_cons.2 ⟨fun u _ => ?_, ih h.2⟩
    exact (render_gap_ne_empty_iff t u).2 (.inl h.1)

end Token

/-! ## Sorted modifiers -/

namespace Declaration

open Token

/-- The first token behind the modifiers of a declaration. -/
def afterModifiers? (d : Declaration) : Option Token := d.signature?.bind Signature.next?

/-- The modifiers of a declaration and the token behind them. -/
def front (d : Declaration) : List Token := d.modifiers ++ d.afterModifiers?.toList

/-- The same with the modifiers in order of rank, less the trivia in front of the first one. -/
def sortedFront (d : Declaration) : List Token :=
  ModifierOrder.compareTokens.stableSort (stripFirst d.modifiers) ++ d.afterModifiers?.toList

theorem front_withMembers (d : Declaration) (ms : List Declaration) :
    (d.withMembers ms).front = d.front := by
  cases d <;> rfl

theorem separated_stripFirst_front_iff (d : Declaration) :
    Separated (stripFirst d.front) ↔ Separated d.front := by
  have hhead := @everyGap_modifyHead_append (·.render ≠ "") strip (fun _ => rfl) d.front []
  rwa [List.append_nil, List.append_nil] at hhead

/-- Sorting modifiers makes gaps as in the sorted list, whatever is put in front of it. -/
theorem separated_sortModifiers_append_iff (modifiers rest : List Token) :
    Separated (StyleRule.sortModifiers modifiers ++ rest) ↔
      Separated (ModifierOrder.compareTokens.stableSort (stripFirst modifiers) ++ rest) := by
  cases modifiers with
  | nil => rfl
  | cons first others =>
    rw [StyleRule.sortModifiers_cons]
    exact everyGap_modifyHead_append (behind first.leading) (fun _ => rfl) _ rest

/-- Modifiers that are in order have the gaps of sorted ones. -/
theorem separated_sortedFront_of_inOrder {d : Declaration}
    (h : Comparer.inOrder ModifierOrder.compareTokens d.modifiers) :
    Separated d.front ↔ Separated d.sortedFront := by
  have hstripped : Comparer.inOrder ModifierOrder.compareTokens (stripFirst d.modifiers) := by
    rwa [stripFirst, StyleRule.inOrder_modifyHead ignoresTrivia_rank.strip]
  rw [sortedFront, Comparer.stableSort_eq_self hstripped, front]
  exact (everyGap_modifyHead_append strip (fun _ => rfl) d.modifiers _).symm

end Declaration

namespace StyleRule

open Token Declaration

variable {r : StyleRule} {settings : StyleSettings} {d e : Declaration}

/-! ## The rule on the order of modifiers -/

theorem leavesMembers_orderedModifiers (settings : StyleSettings) :
    orderedModifiers.LeavesMembers settings := by
  intro parent d current hchanges
  cases hchanges with
  | orderedModifiers _ _ => exact ⟨members_withSignature d _, fun _ => rfl⟩

/-- The modifiers that a tree comes out with have the gaps of sorted ones, at each position. -/
theorem separated_front_iff_of_outcome
    (h : (orderedModifiers.attempt settings d).outcome = .ok e) (path : List Nat) :
    Option.Rel (fun before after => Separated after.front ↔ Separated before.sortedFront)
      (d.at? path) (e.at? path) := by
  refine rel_at?_of_fires
    (R := fun _ before after => Separated after.front ↔ Separated before.sortedFront)
    (leavesMembers_orderedModifiers settings) ?_ ?_ h path
  · intro container d ms hquiet
    rw [front_withMembers]
    exact separated_sortedFront_of_inOrder (by simpa [fires] using hquiet)
  · intro container parent d current ms _ hchange
    cases hchange with
    | @orderedModifiers _ _ s hs _ =>
      have hsome : d.signature?.isSome := by simp [hs]
      rw [front_withMembers, front, sortedFront, modifiers_withSignature hsome, afterModifiers?,
        afterModifiers?, signature?_withSignature hsome, hs, modifiers_eq hs]
      exact separated_sortModifiers_append_iff s.modifiers s.next?.toList

/-- **What the rule on the order of modifiers does to the gaps between them.**  The rule succeeds on
every tree.  Let the modifiers of a declaration in it and the token behind them be told apart by
text.  In the result they are told apart exactly if this is so for those neighbours in the sorted
list that were none before: one of the two brings the text, the trivia in front of the list counting
for neither.  It is so if every modifier brings text behind it. -/
theorem sorting_keeps_separation (settings : StyleSettings) (d : Declaration) :
    ∃ f, orderedModifiers.fix settings d = .ok f ∧
      ∀ path, Option.Rel
        (fun before after => Separated before.front →
          (Separated after.front ↔
            ∀ x y, [x, y] <:+: before.sortedFront → ¬ [x, y] <:+: stripFirst before.front →
              x.Spaced ∨ y.leading.render ≠ "") ∧
          ((∀ t ∈ before.modifiers, t.Spaced) → Separated after.front))
        (d.at? path) (f.tree.at? path) := by
  obtain ⟨f, hf, houtcome⟩ :=
    exists_fix_eq_ok (r := orderedModifiers) (by decide) settings d
  refine ⟨f, hf, fun path => ?_⟩
  have hrel := separated_front_iff_of_outcome houtcome path
  generalize d.at? path = before at hrel ⊢
  generalize f.tree.at? path = after at hrel ⊢
  cases hrel with
  | none => exact .none
  | @some before after hsorted =>
    refine .some fun hbefore => ⟨?_, fun hspaced => ?_⟩
    · rw [hsorted]
      exact ((separated_stripFirst_front_iff before).2 hbefore).iff_of_new_neighbours
    · rw [hsorted]
      refine separated_append_of_spaced (fun t ht => ?_) _
      have hstripped : ∀ t ∈ stripFirst before.modifiers, t.Spaced :=
        forall_modifyHead (fun _ ht => ht) hspaced
      exact hstripped t ((Comparer.stableSort_perm _ _).mem_iff.1 ht)

/-- A method `async public void M` with given trivia around its modifiers. -/
def asyncPublic (behindAsync inFrontOfPublic : TriviaRun) : Declaration :=
  .plain .method
    ⟨[⟨.modifier .asyncKw, "async", [], behindAsync⟩,
        ⟨.modifier .publicKw, "public", inFrontOfPublic, [.space]⟩],
      [.bare .keyword "void", .bare .identifier "M"], some 1⟩

/-- With a space behind each modifier the rule keeps them apart, and with both spaces at `public` it
does not. -/
theorem sorting_keeps_separation_asyncPublic :
    (∃ f, orderedModifiers.fix .standard (asyncPublic [.space] []) = .ok f ∧
      Separated f.tree.front) ∧
    ∃ f, orderedModifiers.fix .standard (asyncPublic [] [.space]) = .ok f ∧
      ¬ Separated f.tree.front := by
  constructor
  · obtain ⟨f, hf, hrel⟩ := sorting_keeps_separation .standard (asyncPublic [.space] [])
    refine ⟨f, hf, ?_⟩
    cases hrel [] with
    | some hkeeps => exact (hkeeps (by decide)).2 (by decide)
  · obtain ⟨f, hf, hrel⟩ := sorting_keeps_separation .standard (asyncPublic [] [.space])
    refine ⟨f, hf, fun hseparated => ?_⟩
    cases hrel [] with
    | some hkeeps =>
      -- `async` comes to stand in front of `void`
      have htext := ((hkeeps (by decide)).1.1 hseparated) _ _ ⟨[_], [], rfl⟩ (by decide)
      revert htext
      decide

/-- The rule may glue a modifier to the token behind it. -/
theorem sorting_glues_modifiers :
    ¬ ∀ (settings : StyleSettings) (d : Declaration) (f : Fixed),
      orderedModifiers.fix settings d = .ok f → Separated d.front → Separated f.tree.front := by
  intro h
  have hglued := h .standard (asyncPublic [] [.space]) _ rfl (by decide)
  revert hglued
  decide

end StyleRule

end DeclStyle
