import DeclStyle.Proofs.Edit.Commutation

/-!
# Kinds without a rank

A kind that the canonical order does not list has a rank all the same, which is past those of the
order.  Ranks decide between groups only, so an element of such a kind goes behind the last element
of the greatest rank that is there.  That is the end of the sequence where the greatest rank comes
last, as it does in order, and of no other sequence.

* `Placement.BehindGreatest` — a place right behind the last element of the greatest rank;
* `Placement.behindGreatest_byRank` — the place of a rank that is not exceeded is such a place;
* `Placement.BehindGreatest.eq_length_iff` — such a place is the end of the sequence if the last
  element has the greatest rank;
* `Declaration.unranked_goes_behind_greatest` — the places of modifiers and of members whose kinds
  have no rank.
-/

namespace DeclStyle

/-! ## Ranks past the order -/

theorem ModifierKind.rank_of_unranked {k : ModifierKind} {u : UnrankedKind}
    (h : ModifierRank.find k = .error u) : k.rank = ModifierRank.last := by
  rw [rank, h, Ranking.orLast]

theorem DeclarationKind.rank_of_unranked {k : DeclarationKind} {u : UnrankedKind}
    (h : MemberRank.find k = .error u) : k.rank = MemberRank.last := by
  rw [rank, h, Ranking.orLast]

theorem Declaration.rank_of_unranked {d : Declaration} {u : UnrankedKind}
    (h : MemberRank.find d.kind = .error u) : d.rank = MemberRank.last := by
  have hfield : d.kind ≠ .plain .field := by
    intro hfield
    rw [hfield] at h
    cases h
  rw [rank, if_neg hfield, DeclarationKind.rank_of_unranked h]

theorem Declaration.rank_le_last (d : Declaration) : d.rank ≤ MemberRank.last := by
  unfold rank
  split
  · cases d.isConstField <;> decide
  · exact d.kind.rank_le_last

/-! ## Places -/

namespace Placement

variable {ranks : List Rank} {place : Nat}

/-- A place in a sequence: right behind the last element of the greatest rank, or the only one where
there is no element. -/
inductive BehindGreatest : List Rank → Nat → Prop where
  | nil : BehindGreatest [] 0
  | behind (front back : List Rank) (g : Rank) (hfront : ∀ r ∈ front, r ≤ g)
    (hback : ∀ r ∈ back, r < g) : BehindGreatest (front ++ g :: back) (front.length + 1)

/-- The place of a rank that is not exceeded is behind the greatest rank. -/
theorem behindGreatest_byRank {target : Rank} (h : ∀ r ∈ ranks, r ≤ target) :
    BehindGreatest ranks (byRank ranks target) := by
  obtain ⟨front, back, rfl, hplace, hsplit⟩ := exists_isPlace ranks target
  rw [hplace]
  rcases List.eq_nil_or_concat front with rfl | ⟨init, g, rfl⟩
  · -- with no anchor there is nothing that is not above the target
    cases back with
    | nil => exact .nil
    | cons r back =>
      obtain ⟨g, hg, -⟩ := hsplit.behind r List.mem_cons_self (h r List.mem_cons_self)
      cases hg
  · have hlast : g ∈ (init.concat g).getLast? := by simp
    have hgreatest := (hsplit.anchor g hlast).2
    rw [List.concat_eq_append, List.append_assoc, List.singleton_append, List.length_append,
      List.length_singleton]
    refine .behind init back g (fun r hr => ?_) (fun r hr => ?_)
    · exact hgreatest r (by simp [hr]) (h r (by simp [hr]))
    · obtain ⟨g', hg', hlt⟩ := hsplit.behind r hr (h r (by simp [hr]))
      obtain rfl : g = g' := by simpa using hg'
      exact hlt

/-- The last element of a sequence, if there is one, has the greatest rank. -/
def EndsGreatest (ranks : List Rank) : Prop := ∀ g ∈ ranks.getLast?, ∀ r ∈ ranks, r ≤ g

/-- **The place behind the greatest rank** is the end of the sequence where the last element has
that rank. -/
theorem BehindGreatest.eq_length_iff (h : BehindGreatest ranks place) :
    place = ranks.length ↔ EndsGreatest ranks := by
  rw [EndsGreatest]
  cases h with
  | nil => simp
  | behind front back g hfront hback =>
    rw [List.length_append, List.length_cons]
    rcases List.eq_nil_or_concat back with rfl | ⟨init, last, rfl⟩
    · refine iff_of_true rfl fun g' hg' r hr => ?_
      obtain rfl : g = g' := by simpa using hg'
      rcases List.mem_append.1 hr with hr | hr
      · exact hfront r hr
      · exact le_of_eq (List.mem_singleton.1 hr)
    · have hlast : (front ++ g :: init.concat last).getLast? = some last := by
        rw [List.concat_eq_append, ← List.cons_append, ← List.append_assoc, List.getLast?_concat]
      refine iff_of_false (by simp) fun hall => ?_
      have hle : g ≤ last := hall last hlast g (by simp)
      exact absurd (hback last (by simp)) (not_lt_of_ge hle)

end Placement

/-! ## Modifiers and members -/

namespace Signature

open Token

/-- A newly made modifier of a kind without a rank goes behind the greatest rank. -/
theorem exists_insertKind_unranked (s : Signature) {k : ModifierKind} {u : UnrankedKind}
    (h : ModifierRank.find k = .error u) :
    ∃ s' place, s.insertKind k none = .ok s' ∧
      s'.modifiers.map word = (s.modifiers.map word).insertIdx place (fresh k).word ∧
      Placement.BehindGreatest (s.modifiers.map Token.rank) place := by
  obtain ⟨s', hs', -⟩ := s.insert_eq_ok (.fresh k) none
  refine ⟨s', _, hs', map_modifiers_insert ignoresTrivia_word hs', ?_⟩
  have hlast : (fresh k).rank = ModifierRank.last := ModifierKind.rank_of_unranked h
  show Placement.BehindGreatest _ (Placement.byRank _ (fresh k).rank)
  rw [hlast]
  exact Placement.behindGreatest_byRank (List.forall_mem_map.2 fun t _ => t.rank_le_last)

end Signature

namespace Members

theorem behindGreatest_placeOfRank_last (members : List Declaration) :
    Placement.BehindGreatest (members.map Declaration.rank)
      (placeOfRank members MemberRank.last) :=
  Placement.behindGreatest_byRank (List.forall_mem_map.2 fun d _ => d.rank_le_last)

end Members

namespace Declaration

open Token

/-- **An element whose kind has no rank goes behind the greatest rank.**  A newly made modifier of
such a kind comes right behind the last modifier of the greatest rank, on every declaration that
carries modifiers, and so does a member of such a kind, or that kind itself, among members.  It goes
to the end exactly if the last element has the greatest rank. -/
theorem unranked_goes_behind_greatest (d : Declaration) (members : List Declaration) :
    (d.signature?.isSome → ∀ (k : ModifierKind) (u : UnrankedKind),
      ModifierRank.find k = .error u → ∃ e place, d.insertKind k none = .ok e ∧
        e.modifiers.map word = (d.modifiers.map word).insertIdx place (fresh k).word ∧
        Placement.BehindGreatest (d.modifiers.map Token.rank) place ∧
        (place = d.modifiers.length ↔ Placement.EndsGreatest (d.modifiers.map Token.rank))) ∧
    (∀ (m : Declaration) (u : UnrankedKind), MemberRank.find m.kind = .error u →
      Placement.BehindGreatest (members.map rank) (Members.placeOf members m) ∧
        (Members.placeOf members m = members.length ↔
          Placement.EndsGreatest (members.map rank))) ∧
    (∀ (k : DeclarationKind) (u : UnrankedKind), MemberRank.find k = .error u →
      Placement.BehindGreatest (members.map rank) (Members.placeOfKind members k) ∧
        (Members.placeOfKind members k = members.length ↔
          Placement.EndsGreatest (members.map rank))) := by
  have hmembers := Members.behindGreatest_placeOfRank_last members
  have hend := hmembers.eq_length_iff
  rw [List.length_map] at hend
  refine ⟨?_, ?_, ?_⟩
  · intro hd k u hk
    obtain ⟨s, hs⟩ := Option.isSome_iff_exists.1 hd
    obtain ⟨s', place, hs', hwords, hplace⟩ := s.exists_insertKind_unranked hk
    have hlength := hplace.eq_length_iff
    rw [List.length_map] at hlength
    refine ⟨d.withSignature s', place, editSignature_eq_ok_iff.2 ⟨s, s', hs, hs', rfl⟩, ?_⟩
    rw [modifiers_withSignature hd, modifiers_eq hs]
    exact ⟨hwords, hplace, hlength⟩
  · intro m u hm
    rw [Members.placeOf, rank_of_unranked hm]
    exact ⟨hmembers, hend⟩
  · intro k u hk
    rw [Members.placeOfKind, DeclarationKind.rank_of_unranked hk]
    exact ⟨hmembers, hend⟩

/-- A class in front of a field, which is not their order. -/
def unsortedMembers : List Declaration :=
  [.type .classType default [] [], .plain .field default]

/-- On `async public void M` the parameter modifier `ref` does not go to the end, nor does an
accessor behind a class and a field. -/
theorem unranked_goes_behind_greatest_unsorted :
    (∃ e place, unsortedMethod.insertKind .refKw none = .ok e ∧ place ≠ 2 ∧
      e.modifiers.map word = (unsortedMethod.modifiers.map word).insertIdx place
        (.word (.modifier .refKw) "ref")) ∧
    Members.placeOf unsortedMembers (.plain .accessor default) ≠ 2 ∧
    Members.placeOfKind unsortedMembers (.plain .accessor) ≠ 2 := by
  obtain ⟨hmodifier, hmember, hkind⟩ :=
    unranked_goes_behind_greatest unsortedMethod unsortedMembers
  have hunsorted : ¬ Placement.EndsGreatest [15, 1] := fun h =>
    absurd (h 1 rfl 15 List.mem_cons_self) (by decide)
  obtain ⟨e, place, he, hwords, -, hend⟩ := hmodifier rfl .refKw _ rfl
  exact ⟨⟨e, place, he, mt hend.1 hunsorted, hwords⟩,
    mt (hmember (.plain .accessor default) _ rfl).2.1 hunsorted,
    mt (hkind (.plain .accessor) _ rfl).2.1 hunsorted⟩

/-- An element whose kind has no rank need not go to the end: not among modifiers, nor as a member,
nor as a kind of member. -/
theorem unranked_not_at_end_unsorted :
    (¬ ∀ (k : ModifierKind) (u : UnrankedKind), ModifierRank.find k = .error u →
      ∀ d e : Declaration, d.insertKind k none = .ok e →
        e.modifiers.map word = d.modifiers.map word ++ [(fresh k).word]) ∧
    (¬ ∀ (d : Declaration) (u : UnrankedKind), MemberRank.find d.kind = .error u →
      ∀ members, Members.placeOf members d = members.length) ∧
    (¬ ∀ (k : DeclarationKind) (u : UnrankedKind), MemberRank.find k = .error u →
      ∀ members, Members.placeOfKind members k = members.length) := by
  refine ⟨fun h => ?_, fun h => ?_, fun h => ?_⟩
  · have hend := h .refKw _ rfl unsortedMethod _ rfl
    revert hend
    decide
  · exact absurd (h (.plain .accessor default) _ rfl unsortedMembers) (by decide)
  · exact absurd (h (.plain .accessor) _ rfl unsortedMembers) (by decide)

end Declaration

end DeclStyle
