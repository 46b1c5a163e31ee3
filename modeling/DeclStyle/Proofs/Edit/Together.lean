import DeclStyle.Proofs.Edit.Gaps
import DeclStyle.Proofs.Edit.Keywords
import DeclStyle.Proofs.Order.Incremental

/-!
# Modifiers inserted together

Modifiers that are inserted one after another by rank, the lowest first, come to stand next to each
other if none of those that are there has a rank between them.  So the keywords of an accessibility
do wherever none is declared, as no rank lies between theirs.

* `InsertedAt` — a block of entries has come into a list at a place;
* `Signature.insertKinds_together` — the modifiers and the text after such insertions;
* `Signature.pairwise_rank_insertKinds` — modifiers in order of rank stay so;
* `Declaration.BlockInserted`, `Declaration.insertKinds_together` — both, for a declaration.
-/

namespace DeclStyle

/-- A list is another one with a block of entries put in at a place. -/
def InsertedAt {α : Type} (place : Nat) (block l l' : List α) : Prop :=
  ∃ before after, l = before ++ after ∧ before.length = place ∧ l' = before ++ (block ++ after)

namespace InsertedAt

variable {α : Type} {place : Nat} {a : α} {block l l₁ l₂ : List α}

theorem insertIdx (h : place ≤ l.length) (a : α) :
    InsertedAt place [a] l (l.insertIdx place a) := by
  refine ⟨l.take place, l.drop place, (List.take_append_drop place l).symm,
    List.length_take_of_le h, ?_⟩
  have hinsert := insertIdx_append_length (l.take place) (l.drop place) a
  rwa [List.take_append_drop, List.length_take_of_le h] at hinsert

/-- What comes in right behind an entry that has come in forms a block with it. -/
theorem cons (h : InsertedAt place [a] l l₁) (h' : InsertedAt (place + 1) block l₁ l₂) :
    InsertedAt place (a :: block) l l₂ := by
  obtain ⟨before, after, rfl, rfl, rfl⟩ := h
  obtain ⟨before', after', hsplit, hlength, rfl⟩ := h'
  have hone : before ++ ([a] ++ after) = (before ++ [a]) ++ after := by simp
  obtain ⟨rfl, rfl⟩ := List.append_inj (hone.symm.trans hsplit) (by simp [hlength])
  exact ⟨before, after, rfl, rfl, by simp⟩

theorem perm (h : InsertedAt place block l l₁) : l₁.Perm (block ++ l) := by
  obtain ⟨before, after, rfl, -, rfl⟩ := h
  rw [← List.append_assoc, ← List.append_assoc]
  exact List.perm_append_comm.append_right after

theorem length_eq (h : InsertedAt place block l l₁) : l₁.length = l.length + block.length := by
  obtain ⟨before, after, rfl, -, rfl⟩ := h
  simp only [List.length_append]
  omega

end InsertedAt

namespace Signature

open Token

variable {s s' : Signature} {k : ModifierKind} {kinds : List ModifierKind}

/-- The place that a newly made modifier is given by its rank. -/
def rankedPlace (s : Signature) (k : ModifierKind) : Nat :=
  Placement.byRank (s.modifiers.map rank) k.rank

theorem rankedPlace_le_length (s : Signature) (k : ModifierKind) :
    s.rankedPlace k ≤ s.modifiers.length :=
  Placement.byRank_map_le_length rank s.modifiers k.rank

/-- What is read off the modifiers after one insertion. -/
theorem insertedAt_of_insertKind {β : Type} {f : Token → β} (hf : IgnoresTrivia f)
    (h : s.insertKind k none = .ok s') :
    InsertedAt (s.rankedPlace k) [f (.fresh k)] (s.modifiers.map f) (s'.modifiers.map f) := by
  rw [map_modifiers_insert hf h]
  exact .insertIdx (by simpa using s.rankedPlace_le_length k) _

theorem gappedWords_insertedAt (h : s.insertKind k none = .ok s') :
    InsertedAt (s.rankedPlace k) [⟨(fresh k).word, " "⟩] (gappedWords s.allTokens)
      (gappedWords s'.allTokens) := by
  rw [(gappedWords_insertKind h).1]
  refine .insertIdx ?_ _
  rw [length_gappedWords, allTokens, List.length_append]
  exact Nat.le_add_right_of_le (s.rankedPlace_le_length k)

/-- **Modifiers with no rank between them come in as a block**, among the modifiers and in the
text. -/
theorem insertKinds_together (h : s.insertKinds (k :: kinds) none = .ok s')
    (hsorted : (k :: kinds).Pairwise fun a b => a.rank < b.rank)
    (hnone : ∀ r ∈ s.modifiers.map rank, ∀ k' ∈ kinds, r ≤ k'.rank → r ≤ k.rank) :
    (∀ {β : Type} {f : Token → β}, IgnoresTrivia f →
      InsertedAt (s.rankedPlace k) ((k :: kinds).map (f ∘ fresh)) (s.modifiers.map f)
        (s'.modifiers.map f)) ∧
    InsertedAt (s.rankedPlace k) ((k :: kinds).map fun k => ⟨(fresh k).word, " "⟩)
      (gappedWords s.allTokens) (gappedWords s'.allTokens) ∧
    textInFront s'.allTokens = textInFront s.allTokens := by
  induction kinds generalizing s k with
  | nil =>
    obtain ⟨s₁, hfirst, hrest⟩ := bind_eq_ok_iff.1 h
    obtain rfl := Except.ok.inj hrest
    exact ⟨fun hf => insertedAt_of_insertKind hf hfirst, gappedWords_insertedAt hfirst,
      (gappedWords_insertKind hfirst).2⟩
  | cons k' kinds ih =>
    obtain ⟨s₁, hfirst, hrest⟩ := bind_eq_ok_iff.1 h
    obtain ⟨hbelow, hsorted⟩ := List.pairwise_cons.1 hsorted
    have hlt : k.rank < k'.rank := hbelow k' List.mem_cons_self
    have hranks : s₁.modifiers.map rank =
        (s.modifiers.map rank).insertIdx (s.rankedPlace k) k.rank :=
      map_modifiers_insert ignoresTrivia_rank hfirst
    have hplace : s₁.rankedPlace k' = s.rankedPlace k + 1 := by
      rw [rankedPlace, hranks]
      exact Placement.byRank_behind_low hlt fun r hr => hnone r hr k' List.mem_cons_self
    have hnone' : ∀ r ∈ s₁.modifiers.map rank, ∀ k'' ∈ kinds, r ≤ k''.rank → r ≤ k'.rank := by
      intro r hr k'' hk'' hle
      rw [hranks] at hr
      rcases List.eq_or_mem_of_mem_insertIdx hr with rfl | hr
      · exact hlt.le
      · exact (hnone r hr k'' (List.mem_cons_of_mem k' hk'') hle).trans hlt.le
    obtain ⟨hread, hwords, htext⟩ := ih hrest hsorted hnone'
    rw [hplace] at hread hwords
    exact ⟨fun hf => (insertedAt_of_insertKind hf hfirst).cons (hread hf),
      (gappedWords_insertedAt hfirst).cons hwords, htext.trans (gappedWords_insertKind hfirst).2⟩

/-- The text that newly made modifiers add. -/
def textOfKinds (kinds : List ModifierKind) : String :=
  String.join (kinds.map fun k => k.keyword ++ " ")

/-- The text of a signature in which modifiers have come in as a block. -/
theorem exists_text_of_insertedAt {place : Nat}
    (hwords : InsertedAt place (kinds.map fun k => ⟨(fresh k).word, " "⟩)
      (gappedWords s.allTokens) (gappedWords s'.allTokens))
    (htext : textInFront s'.allTokens = textInFront s.allTokens) :
    ∃ before after, renderAll s.allTokens = before ++ after ∧
      renderAll s'.allTokens = before ++ (textOfKinds kinds ++ after) := by
  obtain ⟨before, after, hold, -, hnew⟩ := hwords
  refine ⟨textInFront s.allTokens ++ String.join (before.map GappedWord.text),
    String.join (after.map GappedWord.text), ?_, ?_⟩
  · rw [renderAll_eq_gappedWords, hold, List.map_append, String.join_append, String.append_assoc]
  · have hblock : (kinds.map fun k => (⟨(fresh k).word, " "⟩ : GappedWord)).map GappedWord.text =
        kinds.map fun k => k.keyword ++ " " := by
      rw [List.map_map]
      rfl
    rw [renderAll_eq_gappedWords, htext, hnew, List.map_append, List.map_append, hblock,
      String.join_append, String.join_append, textOfKinds, String.append_assoc]

/-- **Insertions by rank keep modifiers in order of rank.** -/
theorem pairwise_rank_insertKinds (h : s.insertKinds kinds none = .ok s')
    (horder : s.modifiers.Pairwise fun t u => t.rank ≤ u.rank) :
    s'.modifiers.Pairwise fun t u => t.rank ≤ u.rank := by
  induction kinds generalizing s with
  | nil =>
    obtain rfl := Except.ok.inj h
    exact horder
  | cons k kinds ih =>
    obtain ⟨s₁, hfirst, hrest⟩ := bind_eq_ok_iff.1 h
    refine ih hrest (List.pairwise_map.1 ?_)
    rw [map_modifiers_insert ignoresTrivia_rank hfirst]
    exact Placement.pairwise_insertIdx_byRank (List.pairwise_map.2 horder) k.rank

end Signature

namespace Declaration

open Token Signature

variable {d e : Declaration} {k : ModifierKind} {kinds : List ModifierKind}

/-- Newly made modifiers have come into a declaration as a block, with nothing between them. -/
structure BlockInserted (place : Nat) (kinds : List ModifierKind) (d e : Declaration) : Prop where
  /-- The modifiers, as far as they can be told from their words. -/
  read {β : Type} {f : Token → β} (hf : IgnoresTrivia f) :
    InsertedAt place (kinds.map (f ∘ fresh)) (d.modifiers.map f) (e.modifiers.map f)
  text : ∃ before after, renderAll d.opening = before ++ after ∧
    renderAll e.opening = before ++ (textOfKinds kinds ++ after)
  inOrder : (d.modifiers.Pairwise fun t u => t.rank ≤ u.rank) →
    e.modifiers.Pairwise fun t u => t.rank ≤ u.rank

theorem BlockInserted.modifiers_ne {place : Nat} (h : BlockInserted place kinds d e)
    (hkinds : kinds ≠ []) : e.modifiers ≠ d.modifiers := by
  intro hsame
  have hlength := (h.read ignoresTrivia_word).length_eq
  rw [hsame] at hlength
  exact hkinds (by simpa using hlength)

/-- **Modifiers with no rank between them come into a declaration as a block**, at the place of the
first of them. -/
theorem insertKinds_together (h : d.editSignature (·.insertKinds (k :: kinds) none) = .ok e)
    (hsorted : (k :: kinds).Pairwise fun a b => a.rank < b.rank)
    (hnone : ∀ t ∈ d.modifiers, ∀ k' ∈ kinds, t.rank ≤ k'.rank → t.rank ≤ k.rank) :
    BlockInserted (Placement.byRank (d.modifiers.map Token.rank) k.rank) (k :: kinds) d e := by
  obtain ⟨s, s', hs, hs', rfl⟩ := editSignature_eq_ok_iff.1 h
  have hsome : d.signature?.isSome := by simp [hs]
  have hmodifiers := modifiers_eq hs
  have hmodifiers' := modifiers_withSignature hsome s'
  rw [hmodifiers] at hnone
  obtain ⟨hread, hwords, htext⟩ :=
    Signature.insertKinds_together hs' hsorted (List.forall_mem_map.2 hnone)
  refine ⟨?read, ?text, ?inOrder⟩
  case read =>
    intro β f hf
    rw [hmodifiers, hmodifiers']
    exact hread hf
  case text =>
    rw [opening_eq_allTokens hs, opening_eq_allTokens (signature?_withSignature hsome s')]
    exact exists_text_of_insertedAt hwords htext
  case inOrder =>
    rw [hmodifiers, hmodifiers']
    exact pairwise_rank_insertKinds hs'

theorem tail_of_editSignature {edit : Signature → Except EditError Signature}
    (h : d.editSignature edit = .ok e) : e.tail = d.tail := by
  obtain ⟨s, s', -, -, rfl⟩ := editSignature_eq_ok_iff.1 h
  cases d <;> rfl

end Declaration

end DeclStyle
