import DeclStyle.Proofs.Edit.Comments
import DeclStyle.Proofs.Edit.Failure
import DeclStyle.Proofs.Edit.Frame
import DeclStyle.Proofs.Edit.Together

/-!
# Inserting and removing accessibility

The keywords that spell an accessibility are inserted one after another, each at a place of its own,
and they are removed together with whatever else declares accessibility.  No keyword has a rank
between those that spell one accessibility, so they come to stand next to each other even among
modifiers that are out of order.

* `Declaration.insertAccessibility_together` — the keywords of an accessibility come in as a block;
* `Declaration.accessibility?_of_insertAccessibility` — and they declare it;
* `Signature.exists_removeAccessibility_eq` — they can be removed again, and what remains are the
  words of the modifiers that were there before;
* `Declaration.accessibility_round_trip` — insertion and removal undo each other, in either order.
-/

namespace DeclStyle

open Token Signature

/-! ## Keywords of an accessibility -/

/-- A modifier with the rank of a keyword for accessibility is that keyword. -/
theorem Token.isModifier_of_rank_eq {t : Token} {k : ModifierKind} (hk : k.isAccessibility)
    (h : t.rank = k.rank) : t.isModifier k := by
  rw [← modifierKind?_eq_some_iff]
  rw [Token.rank] at h
  cases hkind : t.modifierKind? with
  | none =>
    rw [hkind] at h
    revert h hk
    cases k <;> decide
  | some j =>
    rw [hkind] at h
    revert h hk
    cases k <;> cases j <;> decide

/-- Tokens of one word agree on whether they declare accessibility. -/
theorem Token.isAccessibility_eq_of_word_eq {t u : Token} (h : t.word = u.word) :
    t.isAccessibility = u.isAccessibility := by
  have hkind : t.kind = u.kind := by
    injection h
  unfold isAccessibility modifierKind?
  rw [hkind]

/-- The keywords of an accessibility are in order, and there is no rank between them. -/
theorem Accessibility.exists_keywords_eq (a : Accessibility) :
    ∃ k kinds, a.keywords = k :: kinds ∧ ((k :: kinds).Pairwise fun a b => a.rank < b.rank) ∧
      ∀ k' ∈ kinds, k'.isAccessibility ∧ k'.rank.val = k.rank.val + 1 := by
  cases a <;> exact ⟨_, _, rfl, by decide, by decide⟩

namespace Declaration

variable {d e : Declaration} {a : Accessibility}

/-- **The keywords of an accessibility come in as a block** where none is declared. -/
theorem insertAccessibility_together (h : d.insertAccessibility a none = .ok e)
    (hnone : d.accessibility? = none) : ∃ place, BlockInserted place a.keywords d e := by
  obtain ⟨k, kinds, hkeywords, hsorted, hnext⟩ := a.exists_keywords_eq
  have hbetween : ∀ t ∈ d.modifiers, ∀ k' ∈ kinds, t.rank ≤ k'.rank → t.rank ≤ k.rank := by
    intro t ht k' hk' hle
    obtain ⟨haccess, hrank⟩ := hnext k' hk'
    have hother : t.rank ≠ k'.rank := by
      intro heq
      have hdeclared : d.accessibility?.isSome := by
        rw [isSome_accessibility?_iff]
        exact ⟨k', haccess, List.any_eq_true.2 ⟨t, ht, isModifier_of_rank_eq haccess heq⟩⟩
      rw [hnone] at hdeclared
      cases hdeclared
    have hval : t.rank.val ≠ k'.rank.val := fun hval => hother (Fin.ext hval)
    rw [Fin.le_def] at hle ⊢
    omega
  have hedit : d.editSignature (·.insertKinds a.keywords none) = .ok e := h
  rw [hkeywords] at hedit ⊢
  exact ⟨_, insertKinds_together hedit hsorted hbetween⟩

/-- **An accessibility that is inserted is declared** where none was. -/
theorem accessibility?_of_insertAccessibility {order : Option (Comparer ModifierKind)}
    (h : d.insertAccessibility a order = .ok e) (hnone : d.accessibility? = none) :
    e.accessibility? = some a := by
  have hlacks : ∀ k : ModifierKind, k.isAccessibility → d.hasModifier k = false := by
    intro k hk
    rw [← Bool.not_eq_true]
    intro hcarried
    have hdeclared := d.isSome_accessibility?_iff.2 ⟨k, hk, hcarried⟩
    rw [hnone] at hdeclared
    cases hdeclared
  have hcarries : ∀ k : ModifierKind, k.isAccessibility →
      e.hasModifier k = a.keywords.contains k := by
    intro k hk
    rw [hasModifier_of_insertKinds h, hlacks k hk, Bool.or_false]
  rw [accessibility?_eq, hcarries _ rfl, hcarries _ rfl, hcarries _ rfl, hcarries _ rfl]
  cases a <;> rfl

end Declaration

/-! ## Removal after insertion -/

namespace Signature

variable {s s' : Signature} {a : Accessibility} {order : Option (Comparer ModifierKind)}

/-- The words that remain when the keywords of an accessibility are taken out again. -/
theorem words_filter_of_insertAccessibility (h : s.insertAccessibility a order = .ok s')
    (hnone : ∀ t ∈ s.modifiers, ¬ t.isAccessibility) :
    (s'.modifiers.filter (!·.isAccessibility)).map word = s.modifiers.map word := by
  -- what is read off a token is its word, and whether it is to go
  have hreading : IgnoresTrivia fun t => (t.word, t.isAccessibility) := fun _ _ _ => rfl
  have hwoven := woven_insertKinds hreading h
  have hfilter := hwoven.filter_eq (p := Prod.snd) ?added ?kept
  case added =>
    rw [List.forall_mem_map]
    intro k hk
    exact Accessibility.isAccessibility_of_mem_keywords hk
  case kept =>
    rw [List.forall_mem_map]
    exact hnone
  have hwords := congrArg (List.map Prod.fst) hfilter
  rw [List.filter_map, List.map_map, List.map_map] at hwords
  exact hwords

/-- Where newly made modifiers have been inserted into none, the modifiers have no comment if there
is no token after them. -/
theorem comments_eq_nil_of_insertKinds {kinds : List ModifierKind}
    (h : s.insertKinds kinds order = .ok s') (hmodifiers : s.modifiers = [])
    (hnext : s'.next? = none) : ∀ t ∈ s'.modifiers, t.comments = [] := by
  have htokens' : s'.tokens = [] := List.head?_eq_none_iff.1 hnext
  have htokens : s.tokens = [] := by
    have hlength := congrArg List.length (sameRest_of_insertKinds h).tokens
    rw [htokens', stripFirst, stripFirst, List.length_modifyHead, List.length_modifyHead] at hlength
    exact List.eq_nil_of_length_eq_zero hlength.symm
  have hcomments := commentTrivia_of_insertKinds h
  rw [allTokens, allTokens, hmodifiers, htokens, htokens', List.append_nil, List.append_nil]
    at hcomments
  have hall : commentsOfAll s'.modifiers = [] := by
    rw [commentsOfAll_eq_map_text, hcomments]
    rfl
  exact List.flatMap_eq_nil_iff.1 hall

/-- **The keywords of an accessibility can be removed again**, and the words of the other modifiers
remain. -/
theorem exists_removeAccessibility_eq (h : s.insertAccessibility a order = .ok s')
    (hnone : ∀ t ∈ s.modifiers, ¬ t.isAccessibility) :
    ∃ s'', s'.removeAccessibility = .ok s'' ∧ s''.modifiers.map word = s.modifiers.map word := by
  have hleft := words_filter_of_insertAccessibility h hnone
  have hproper : ModifierRemoval.accessibility.Proper s'.modifiers := trivial
  cases hremove : s'.removeAccessibility with
  | ok s'' =>
    refine ⟨s'', rfl, ?_⟩
    rw [ModifierRemoval.words_of_onSignature hproper hremove]
    exact hleft
  | error e =>
    -- all modifiers would go, so there were none before, and the new ones have no comment
    obtain ⟨hnil, kind, hstranded, -⟩ :=
      (ModifierRemoval.onSignature_eq_error_iff hproper).1 hremove
    have hfilter : s'.modifiers.filter (!·.isAccessibility) = [] := hnil
    rw [hfilter] at hleft
    have hmodifiers : s.modifiers = [] := List.map_eq_nil_iff.1 hleft.symm
    obtain ⟨t, ht, hcomment⟩ := hstranded.comment
    exact absurd (comments_eq_nil_of_insertKinds h hmodifiers hstranded.next t ht) hcomment

end Signature

namespace Declaration

variable {d e : Declaration} {a : Accessibility}

/-- A declaration declares no accessibility if none of its modifiers does. -/
theorem accessibility?_eq_none_of_forall (h : ∀ t ∈ d.modifiers, ¬ t.isAccessibility) :
    d.accessibility? = none := by
  rw [← Option.not_isSome_iff_eq_none, isSome_accessibility?_iff]
  rintro ⟨k, hk, hcarried⟩
  obtain ⟨t, ht, hkind⟩ := List.any_eq_true.1 hcarried
  apply h t ht
  rw [isAccessibility, (modifierKind?_eq_some_iff t k).2 hkind]
  exact hk

/-- **An accessibility can be inserted** into a declaration that carries modifiers none of which
declares one, and it can be removed again. -/
theorem exists_insertAccessibility_eq (hsome : d.signature?.isSome)
    (hnone : ∀ t ∈ d.modifiers, ¬ t.isAccessibility) (a : Accessibility)
    (order : Option (Comparer ModifierKind)) :
    ∃ e e', d.insertAccessibility a order = .ok e ∧ e.accessibility? = some a ∧
      e.removeAccessibility = .ok e' ∧ e'.modifiers.map word = d.modifiers.map word := by
  obtain ⟨s, hs⟩ := Option.isSome_iff_exists.1 hsome
  obtain ⟨e, he, -⟩ := exists_keywordsAdded hsome a.keywords order
  have hedit : d.insertAccessibility a order = .ok e := he
  have hdeclared :=
    accessibility?_of_insertAccessibility hedit (accessibility?_eq_none_of_forall hnone)
  obtain ⟨t, s', ht, hs', rfl⟩ := editSignature_eq_ok_iff.1 hedit
  obtain rfl : s = t := Option.some.inj (hs.symm.trans ht)
  rw [modifiers_eq hs] at hnone ⊢
  obtain ⟨s'', hs'', hwords⟩ := Signature.exists_removeAccessibility_eq hs' hnone
  have hsignature := signature?_withSignature hsome s'
  refine ⟨_, (d.withSignature s').withSignature s'', hedit, hdeclared, ?_, ?_⟩
  · exact editSignature_eq_ok_iff.2 ⟨s', s'', hsignature, hs'', rfl⟩
  · rw [modifiers_withSignature (by simp [hsignature]), hwords]

/-- What the removal of accessibility leaves of a declaration. -/
theorem words_of_removeAccessibility (h : d.removeAccessibility = .ok e) :
    e.modifiers.map word = (d.modifiers.filter (!·.isAccessibility)).map word := by
  obtain ⟨s, s', hs, hs', rfl⟩ := editSignature_eq_ok_iff.1 h
  rw [modifiers_withSignature (by simp [hs]), modifiers_eq hs]
  exact ModifierRemoval.words_of_onSignature (r := .accessibility) trivial hs'

/-- After the removal of accessibility no modifier declares one. -/
theorem not_isAccessibility_of_removeAccessibility (h : d.removeAccessibility = .ok e) :
    ∀ t ∈ e.modifiers, ¬ t.isAccessibility := by
  intro t ht
  have hword : t.word ∈ e.modifiers.map word := List.mem_map_of_mem ht
  rw [words_of_removeAccessibility h] at hword
  obtain ⟨u, hu, hsame⟩ := List.mem_map.1 hword
  rw [← isAccessibility_eq_of_word_eq hsame]
  simpa using (List.mem_filter.1 hu).2

/-- **Insertion and removal of accessibility undo each other.**  Where no modifier declares
accessibility, any can be inserted, in whatever order, and is declared then; by rank its keywords
come in as a block, in canonical order; and its removal restores the words of the modifiers.  Where
accessibility can be removed, the other modifiers keep their words and their order, and any
accessibility that is inserted is declared. -/
theorem accessibility_round_trip :
    (∀ (d : Declaration) (a : Accessibility), d.signature?.isSome →
      (∀ t ∈ d.modifiers, ¬ t.isAccessibility) →
      (∀ order, ∃ e e', d.insertAccessibility a order = .ok e ∧ e.accessibility? = some a ∧
        e.removeAccessibility = .ok e' ∧ e'.modifiers.map word = d.modifiers.map word) ∧
      ∃ e place, d.insertAccessibility a none = .ok e ∧
        (a.keywords.Pairwise fun k l => k.rank < l.rank) ∧
        InsertedAt place (a.keywords.map fun k => .word (.modifier k) k.keyword)
          (d.modifiers.map word) (e.modifiers.map word)) ∧
    ∀ d e : Declaration, d.removeAccessibility = .ok e →
      e.accessibility? = none ∧
      e.modifiers.map word = (d.modifiers.filter (!·.isAccessibility)).map word ∧
      ∀ a order, ∃ e', e.insertAccessibility a order = .ok e' ∧ e'.accessibility? = some a := by
  refine ⟨?insertion, ?removal⟩
  case insertion =>
    intro d a hsome hnone
    refine ⟨exists_insertAccessibility_eq hsome hnone a, ?_⟩
    obtain ⟨e, -, hedit, -⟩ := exists_insertAccessibility_eq hsome hnone a none
    obtain ⟨place, hblock⟩ :=
      insertAccessibility_together hedit (accessibility?_eq_none_of_forall hnone)
    obtain ⟨k, kinds, hkeywords, hsorted, -⟩ := a.exists_keywords_eq
    rw [← hkeywords] at hsorted
    exact ⟨e, place, hedit, hsorted, hblock.read ignoresTrivia_word⟩
  case removal =>
    intro d e h
    have hnone := not_isAccessibility_of_removeAccessibility h
    refine ⟨accessibility?_eq_none_of_forall hnone, words_of_removeAccessibility h, ?_⟩
    intro a order
    obtain ⟨s, s', hs, -, rfl⟩ := editSignature_eq_ok_iff.1 h
    have hsignature : (d.withSignature s').signature? = some s' :=
      signature?_withSignature (by simp [hs]) s'
    obtain ⟨e', -, hedit, hdeclared, -⟩ :=
      exists_insertAccessibility_eq (by simp [hsignature]) hnone a order
    exact ⟨e', hedit, hdeclared⟩

/-- The opening of `readonly static int`, whose modifiers are out of order. -/
def readonlyStatic : Signature where
  modifiers := [.fresh .readonlyKw, .fresh .staticKw]
  tokens := [.bare .keyword "int"]
  name := none

/-- `private protected` goes in front of `readonly static`, and `internal` can be replaced. -/
theorem accessibility_round_trip_readonlyStatic :
    (∃ e place,
      (plain .field readonlyStatic).insertAccessibility .protectedAndInternal none = .ok e ∧
      InsertedAt place [.word (.modifier .privateKw) "private",
          .word (.modifier .protectedKw) "protected"]
        ((plain .field readonlyStatic).modifiers.map word) (e.modifiers.map word)) ∧
    ∃ d e e', (plain .field readonlyStatic).insertAccessibility .internalAccess none = .ok d ∧
      d.removeAccessibility = .ok e ∧ e.accessibility? = none ∧
      e.insertAccessibility .protectedOrInternal none = .ok e' ∧
      e'.accessibility? = some .protectedOrInternal := by
  have hnone : ∀ t ∈ (plain .field readonlyStatic).modifiers, ¬ t.isAccessibility := by decide
  obtain ⟨e, place, hedit, -, hblock⟩ :=
    (accessibility_round_trip.1 _ .protectedAndInternal rfl hnone).2
  obtain ⟨d, e', hinsert, -, hremove, -⟩ :=
    (accessibility_round_trip.1 _ .internalAccess rfl hnone).1 none
  obtain ⟨hgone, -, hagain⟩ := accessibility_round_trip.2 d e' hremove
  obtain ⟨f, hinsert', hdeclared⟩ := hagain .protectedOrInternal none
  exact ⟨⟨e, place, hedit, hblock⟩, d, e', f, hinsert, hremove, hgone, hinsert', hdeclared⟩

end Declaration

end DeclStyle
