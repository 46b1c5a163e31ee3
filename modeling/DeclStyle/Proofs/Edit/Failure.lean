import DeclStyle.Proofs.Stretch.Failure

/-!
# Edits that fail

Every edit of modifiers is refused on a namespace, which has none.  Elsewhere insertions always
succeed, and a removal fails only where it would lose a comment: when it is to take every modifier
of a declaration that has no token after them.

* `ModifierRemoval`, `ModifierEdit` — the removals of modifiers, and all edits of them, to be
  carried out on declarations or on signatures;
* `ModifierRemoval.left` — the modifiers that a removal is to leave;
* `Declaration.Stranded` — a declaration that has a comment at its modifiers and nothing behind them
  that could take it over;
* `ModifierRemoval.onSignature_eq_error_iff` — when a removal fails, and with which error;
* `Declaration.removeKind_eq_error_iff` — the removal of a modifier of a kind, in particular;
* `Declaration.modifier_edits_fail` — the same for all edits of a declaration.
-/

namespace DeclStyle

open Token

/-! ## Errors of signatures and declarations -/

namespace Signature

theorem editStretch_eq_error_iff {s : Signature} {edit : Stretch → Except EditError Stretch}
    {e : EditError} : s.editStretch edit = .error e ↔ edit s.stretch = .error e := by
  rw [editStretch, bind_eq_error_iff]
  constructor
  · rintro (h | ⟨edited, -, h⟩)
    · exact h
    · cases h
  · exact .inl

/-- The removal of the modifier at a position fails where it is the only one and leaves a comment
behind that nothing could take over. -/
theorem removeAt_eq_error_iff {s : Signature} {index : Nat} (h : index < s.modifiers.length)
    {e : EditError} :
    s.removeAt index = .error e ↔ s.modifiers.eraseIdx index = [] ∧
      ∃ kind, s.stretch.Stranded kind ∧ e = .noAnchorToken kind := by
  rw [removeAt, editStretch_eq_error_iff, Stretch.remove_eq_error_iff h, List.eraseIdx_eq_nil_iff]
  constructor
  · rintro ⟨hone, hstranded⟩
    have hone' : s.modifiers.length = 1 := hone
    exact ⟨.inr ⟨hone', by omega⟩, hstranded⟩
  · rintro ⟨hnil | ⟨hone, -⟩, hstranded⟩
    · rw [hnil] at h
      cases h
    · exact ⟨hone, hstranded⟩

/-- A position is out of bounds where there is no modifier. -/
theorem removeAt_eq_indexOutOfBounds_iff {s : Signature} {index i n : Nat} :
    s.removeAt index = .error (.indexOutOfBounds i n) ↔
      s.modifiers.length ≤ index ∧ i = index ∧ n = s.modifiers.length := by
  by_cases h : index < s.modifiers.length
  · rw [removeAt_eq_error_iff h]
    constructor
    · rintro ⟨-, kind, -, hkind⟩
      cases hkind
    · rintro ⟨hle, -⟩
      omega
  · have hle : s.stretch.tokens.length ≤ index := Nat.not_lt.1 h
    rw [removeAt, editStretch_eq_error_iff, Stretch.remove_of_length_le hle]
    constructor
    · intro he
      cases he
      exact ⟨hle, rfl, rfl⟩
    · rintro ⟨-, rfl, rfl⟩
      rfl

/-- The removal of the first modifier that passes a test fails where it is the only one and leaves a
comment behind that nothing could take over. -/
theorem removeFirst_eq_error_iff {s : Signature} {p : Token → Bool} {e : EditError} :
    s.removeFirst p = .error e ↔
      s.modifiers.eraseP p = [] ∧ ∃ kind, s.stretch.Stranded kind ∧ e = .noAnchorToken kind := by
  rw [removeFirst, List.eraseP_eq_eraseIdx]
  cases hfind : s.modifiers.findIdx? p with
  | none =>
    refine iff_of_false (fun he => ?_) ?_
    · cases he
    · rintro ⟨hnil, kind, hstranded, -⟩
      exact hstranded.tokens_ne_nil hnil
  | some index =>
    obtain ⟨hlt, -⟩ := List.findIdx?_eq_some_iff_getElem.1 hfind
    exact removeAt_eq_error_iff hlt

end Signature

namespace Declaration

variable {d : Declaration} {s : Signature} {edit : Signature → Except EditError Signature}

/-- Only a namespace has no signature. -/
theorem signature?_eq_none_iff : d.signature? = none ↔ d.kind = .space := by
  cases d <;> simp [signature?, kind]

theorem editSignature_of_none (h : d.signature? = none) :
    d.editSignature edit = .error (.noModifiers d.kind) := by
  rw [editSignature, h]

theorem editSignature_eq_error_iff (h : d.signature? = some s) {e : EditError} :
    d.editSignature edit = .error e ↔ edit s = .error e := by
  rw [editSignature, h]
  exact map_eq_error_iff

/-- A declaration with a comment at its modifiers and no token behind them that could take it over.
Its first modifier is of the given kind. -/
structure Stranded (d : Declaration) (kind : TokenKind) : Prop where
  next : d.signature?.bind Signature.next? = none
  first : d.modifiers.head?.map Token.kind = some kind
  comment : ∃ t ∈ d.modifiers, t.comments ≠ []

theorem stranded_iff (h : d.signature? = some s) (kind : TokenKind) :
    d.Stranded kind ↔ s.stretch.Stranded kind := by
  have hmodifiers : d.modifiers = s.stretch.tokens := modifiers_eq h
  have hnext : d.signature?.bind Signature.next? = s.stretch.next := by rw [h]; rfl
  constructor
  · rintro ⟨hn, hfirst, hcomment⟩
    exact ⟨rfl, hnext ▸ hn, hmodifiers ▸ hfirst, hmodifiers ▸ hcomment⟩
  · rintro ⟨-, hn, hfirst, hcomment⟩
    exact ⟨hnext ▸ hn, hmodifiers ▸ hfirst, hmodifiers ▸ hcomment⟩

end Declaration

/-! ## Removals -/

/-- A removal of modifiers from a declaration. -/
inductive ModifierRemoval where
  | position (index : Nat)
  /-- The first modifier that equals a token in every field. -/
  | token (t : Token)
  /-- The first modifier of a kind. -/
  | kind (k : ModifierKind)
  | all
  | matching (p : Token → Bool)
  | accessibility

namespace ModifierRemoval

/-- Carries a removal out on a declaration. -/
def apply : ModifierRemoval → Declaration → Except EditError Declaration
  | position index, d => d.removeAt index
  | token t, d => d.remove t
  | kind k, d => d.removeKind k
  | all, d => d.removeAll
  | matching p, d => d.removeMatching p
  | accessibility, d => d.removeAccessibility

/-- Carries a removal out on a signature. -/
def onSignature : ModifierRemoval → Signature → Except EditError Signature
  | position index, s => s.removeAt index
  | token t, s => s.remove t
  | kind k, s => s.removeKind k
  | all, s => s.removeAll
  | matching p, s => s.removeMatching p
  | accessibility, s => s.removeAccessibility

theorem apply_eq (r : ModifierRemoval) (d : Declaration) :
    r.apply d = d.editSignature r.onSignature := by
  cases r <;> rfl

/-- The modifiers that a removal is to leave. -/
def left : ModifierRemoval → List Token → List Token
  | position index, modifiers => modifiers.eraseIdx index
  | token t, modifiers => modifiers.eraseP (· == t)
  | kind k, modifiers => modifiers.eraseP (·.isModifier k)
  | all, _ => []
  | matching p, modifiers => modifiers.filter (!p ·)
  | accessibility, modifiers => modifiers.filter (!·.isAccessibility)

/-- A removal at a position that there is, or by a test that does not look at trivia. -/
def Proper : ModifierRemoval → List Token → Prop
  | position index, modifiers => index < modifiers.length
  | matching p, _ => IgnoresTrivia p
  | _, _ => True

/-- The tokens that are to remain when those that pass a test go are none if all pass. -/
theorem filter_not_eq_nil_iff {p : Token → Bool} {ts : List Token} :
    ts.filter (!p ·) = [] ↔ ∀ t ∈ ts, p t := by
  simp [List.filter_eq_nil_iff]

/-- **A removal fails** exactly if it is to leave no modifier, there has been one, there is no token
after the modifiers, and a comment stands at one of them. -/
theorem onSignature_eq_error_iff {r : ModifierRemoval} {s : Signature} (h : r.Proper s.modifiers)
    {e : EditError} :
    r.onSignature s = .error e ↔
      r.left s.modifiers = [] ∧ ∃ kind, s.stretch.Stranded kind ∧ e = .noAnchorToken kind := by
  cases r with
  | position index => exact Signature.removeAt_eq_error_iff h
  | token t => exact Signature.removeFirst_eq_error_iff
  | kind k => exact Signature.removeFirst_eq_error_iff
  | all =>
    show s.editStretch Stretch.removeAll = .error e ↔ _
    rw [Signature.editStretch_eq_error_iff, Stretch.removeAll_eq_error_iff]
    exact (and_iff_right rfl).symm
  | matching p =>
    show s.editStretch (Stretch.removeMatching p) = .error e ↔ _
    rw [Signature.editStretch_eq_error_iff, Stretch.removeMatching_eq_error_iff h, left,
      filter_not_eq_nil_iff]
    rfl
  | accessibility =>
    show s.editStretch (Stretch.removeMatching isAccessibility) = .error e ↔ _
    rw [Signature.editStretch_eq_error_iff,
      Stretch.removeMatching_eq_error_iff ignoresTrivia_isAccessibility, left,
      filter_not_eq_nil_iff]
    rfl

/-- A removal that succeeds leaves the words of the modifiers that it is to leave. -/
theorem words_of_onSignature {r : ModifierRemoval} {s s' : Signature} (h : r.Proper s.modifiers)
    (hs : r.onSignature s = .ok s') :
    s'.modifiers.map word = (r.left s.modifiers).map word := by
  cases r with
  | position index => exact Signature.map_modifiers_removeAt ignoresTrivia_word hs
  | token t => exact Signature.map_modifiers_removeFirst ignoresTrivia_word hs
  | kind k => exact Signature.map_modifiers_removeFirst ignoresTrivia_word hs
  | all =>
    obtain ⟨edited, hedit, rfl⟩ := Signature.editStretch_eq_ok_iff.1 hs
    rw [Signature.modifiers_store, (Stretch.removesOnly_of_removeAll hedit).words,
      Stretch.wordsKept_replicate_false]
    rfl
  | matching p =>
    obtain ⟨edited, hedit, rfl⟩ := Signature.editStretch_eq_ok_iff.1 hs
    rw [Signature.modifiers_store, Stretch.words_of_removeMatching h hedit]
    rfl
  | accessibility =>
    obtain ⟨edited, hedit, rfl⟩ := Signature.editStretch_eq_ok_iff.1 hs
    rw [Signature.modifiers_store,
      Stretch.words_of_removeMatching ignoresTrivia_isAccessibility hedit]
    rfl

/-- No removal takes the want of modifiers for an error, whatever the position or the test. -/
theorem onSignature_ne_noModifiers (r : ModifierRemoval) (s : Signature) (k : DeclarationKind) :
    r.onSignature s ≠ .error (.noModifiers k) := by
  intro he
  by_cases hproper : r.Proper s.modifiers
  · obtain ⟨-, kind, -, hkind⟩ := (onSignature_eq_error_iff hproper).1 he
    cases hkind
  · cases r with
    | position index =>
      have herror : s.removeAt index = .error (.noModifiers k) := he
      rw [Signature.removeAt, Signature.editStretch_eq_error_iff,
        Stretch.remove_of_length_le (Nat.not_lt.1 hproper)] at herror
      cases herror
    | matching p =>
      have herror : s.stretch.removeMatching p = .error (.noModifiers k) :=
        Signature.editStretch_eq_error_iff.1 he
      obtain ⟨kind, hkind⟩ :=
        Stretch.exists_noAnchorToken_of_removeMatchingBefore (Nat.le_refl _) herror
      cases hkind
    | _ => exact hproper trivial

end ModifierRemoval

/-! ## The only modifier -/

namespace Declaration

/-- A declaration whose only modifier is of a kind, with a comment at it and no token behind it that
could take the comment over. -/
def LoneCommented (d : Declaration) (k : ModifierKind) : Prop :=
  ∃ t, d.modifiers = [t] ∧ t.isModifier k ∧ t.comments ≠ [] ∧
    d.signature?.bind Signature.next? = none

/-- **The removal of a modifier that is there** fails where it is the only one, has a comment, and
no token stands behind it. -/
theorem removeKind_eq_error_iff {d : Declaration} {k : ModifierKind} (h : d.hasModifier k)
    {e : EditError} :
    d.removeKind k = .error e ↔ d.LoneCommented k ∧ e = .noAnchorToken (.modifier k) := by
  cases hs : d.signature? with
  | none =>
    rw [hasModifier, modifiers_eq_nil hs] at h
    cases h
  | some s =>
    have hmodifiers : d.modifiers = s.modifiers := modifiers_eq hs
    have hremoval : d.removeKind k = .error e ↔ s.modifiers.eraseP (·.isModifier k) = [] ∧
        ∃ kind, d.Stranded kind ∧ e = .noAnchorToken kind := by
      rw [removeKind, editSignature_eq_error_iff hs]
      simp only [stranded_iff hs]
      exact Signature.removeFirst_eq_error_iff
    rw [hremoval, ← hmodifiers, List.eraseP_eq_nil_iff]
    constructor
    · rintro ⟨hnil | ⟨t, ht, htokens⟩, kind, ⟨hnext, hfirst, u, hu, hcomment⟩, rfl⟩
      · rw [hnil] at hu
        cases hu
      · rw [htokens] at hfirst hu
        obtain rfl := List.mem_singleton.1 hu
        have hkind : u.kind = .modifier k := by simpa [isModifier] using ht
        obtain rfl : u.kind = kind := Option.some.inj hfirst
        rw [hkind]
        exact ⟨⟨u, htokens, ht, hcomment, hnext⟩, rfl⟩
    · rintro ⟨⟨t, htokens, ht, hcomment, hnext⟩, rfl⟩
      have hkind : t.kind = .modifier k := by simpa [isModifier] using ht
      refine ⟨.inr ⟨t, ht, htokens⟩, _, ⟨hnext, ?_, t, ?_, hcomment⟩, rfl⟩
      · rw [htokens, ← hkind]
        rfl
      · rw [htokens]
        exact List.mem_cons_self

end Declaration

/-! ## All edits -/

/-- An edit of the modifiers of a declaration. -/
inductive ModifierEdit where
  | insert (t : Token) (order : Option (Comparer Token))
  | insertKind (k : ModifierKind) (order : Option (Comparer ModifierKind))
  | insertAccessibility (a : Accessibility) (order : Option (Comparer ModifierKind))
  | removal (r : ModifierRemoval)

namespace ModifierEdit

/-- Carries an edit out. -/
def apply : ModifierEdit → Declaration → Except EditError Declaration
  | insert t order, d => d.insert t order
  | insertKind k order, d => d.insertKind k order
  | insertAccessibility a order, d => d.insertAccessibility a order
  | removal r, d => r.apply d

/-- Carries an edit out on a signature. -/
def onSignature : ModifierEdit → Signature → Except EditError Signature
  | insert t order, s => s.insert t order
  | insertKind k order, s => s.insertKind k order
  | insertAccessibility a order, s => s.insertAccessibility a order
  | removal r, s => r.onSignature s

theorem apply_eq (edit : ModifierEdit) (d : Declaration) :
    edit.apply d = d.editSignature edit.onSignature := by
  cases edit with
  | removal r => exact r.apply_eq d
  | _ => rfl

end ModifierEdit

namespace Declaration

/-- Insertions succeed on every declaration that carries modifiers. -/
theorem exists_apply_eq_ok (edit : ModifierEdit) (hedit : ∀ r, edit ≠ .removal r) {d : Declaration}
    {s : Signature} (h : d.signature? = some s) : ∃ e, edit.apply d = .ok e := by
  cases edit with
  | insert t order =>
    obtain ⟨e, he, -⟩ := exists_textAdded_of_insert h t order
    exact ⟨e, he⟩
  | insertKind k order =>
    obtain ⟨e, he, -⟩ := exists_textAdded_of_insertKind h k order
    exact ⟨e, he⟩
  | insertAccessibility a order =>
    have hsome : d.signature?.isSome := by simp [h]
    obtain ⟨e, he, -⟩ := exists_keywordsAdded hsome a.keywords order
    exact ⟨e, he⟩
  | removal r => exact absurd rfl (hedit r)

/-- An edit is refused for want of modifiers on a namespace and nowhere else. -/
theorem apply_eq_noModifiers_iff (edit : ModifierEdit) (d : Declaration) (k : DeclarationKind) :
    edit.apply d = .error (.noModifiers k) ↔ d.kind = .space ∧ k = .space := by
  cases hs : d.signature? with
  | none =>
    have hkind : d.kind = .space := signature?_eq_none_iff.1 hs
    rw [edit.apply_eq, editSignature_of_none hs, hkind]
    constructor
    · intro h
      cases h
      exact ⟨rfl, rfl⟩
    · rintro ⟨-, rfl⟩
      rfl
  | some s =>
    have hkind : d.kind ≠ .space := by
      rw [ne_eq, ← signature?_eq_none_iff, hs]
      exact Option.some_ne_none s
    refine iff_of_false (fun he => ?_) (fun h => hkind h.1)
    by_cases hedit : ∀ r, edit ≠ .removal r
    · obtain ⟨e, hok⟩ := exists_apply_eq_ok edit hedit hs
      rw [hok] at he
      cases he
    · obtain ⟨r, rfl⟩ : ∃ r, edit = .removal r := by simpa using hedit
      rw [ModifierEdit.apply, r.apply_eq, editSignature_eq_error_iff hs] at he
      exact r.onSignature_ne_noModifiers s k he

/-- **When edits of modifiers fail.**  Every edit is refused for want of modifiers on a namespace
and nowhere else.  On any other declaration insertions always succeed, and the removal of the
modifier at a position reports a position out of bounds exactly where there is none.  Otherwise, the
tests being such that do not look at trivia, a removal leaves the words of the modifiers that it is
to leave, and it fails exactly if it is to leave none of those that there are, the declaration has
no token after its modifiers, and a comment stands at one of them.  The error names the kind of the
first modifier. -/
theorem modifier_edits_fail (d : Declaration) :
    (∀ (edit : ModifierEdit) (k : DeclarationKind),
      edit.apply d = .error (.noModifiers k) ↔ d.kind = .space ∧ k = .space) ∧
    (d.kind ≠ .space →
      (∀ t order, ∃ e, d.insert t order = .ok e) ∧
      (∀ k order, ∃ e, d.insertKind k order = .ok e) ∧
      (∀ a order, ∃ e, d.insertAccessibility a order = .ok e) ∧
      (∀ index i n, d.removeAt index = .error (.indexOutOfBounds i n) ↔
        d.modifiers.length ≤ index ∧ i = index ∧ n = d.modifiers.length) ∧
      ∀ r : ModifierRemoval, r.Proper d.modifiers →
        (∀ e, r.apply d = .error e ↔
          r.left d.modifiers = [] ∧ ∃ kind, d.Stranded kind ∧ e = .noAnchorToken kind) ∧
        ∀ e, r.apply d = .ok e → e.modifiers.map word = (r.left d.modifiers).map word) := by
  refine ⟨fun edit k => apply_eq_noModifiers_iff edit d k, fun hkind => ?_⟩
  obtain ⟨s, hs⟩ := Option.ne_none_iff_exists'.1 fun hnone => hkind (signature?_eq_none_iff.1 hnone)
  have hmodifiers : d.modifiers = s.modifiers := modifiers_eq hs
  refine ⟨?_, ?_, ?_, ?_, ?_⟩
  · intro t order
    exact exists_apply_eq_ok (.insert t order) (fun _ => ModifierEdit.noConfusion) hs
  · intro k order
    exact exists_apply_eq_ok (.insertKind k order) (fun _ => ModifierEdit.noConfusion) hs
  · intro a order
    exact exists_apply_eq_ok (.insertAccessibility a order) (fun _ => ModifierEdit.noConfusion) hs
  · intro index i n
    rw [removeAt, editSignature_eq_error_iff hs, hmodifiers,
      Signature.removeAt_eq_indexOutOfBounds_iff]
  · intro r hr
    rw [hmodifiers] at hr
    constructor
    · intro e
      rw [r.apply_eq, editSignature_eq_error_iff hs, r.onSignature_eq_error_iff hr, hmodifiers]
      simp only [stranded_iff hs]
    · intro e he
      rw [r.apply_eq] at he
      obtain ⟨s₀, s', hs₀, hs', rfl⟩ := editSignature_eq_ok_iff.1 he
      obtain rfl := Option.some.inj (hs.symm.trans hs₀)
      rw [modifiers_withSignature (by simp [hs]), hmodifiers, r.words_of_onSignature hr hs']

/-- A declaration cut off behind `unsafe` with a comment and `extern`. -/
def stump : Declaration :=
  .plain .incompleteMember
    ⟨[⟨.modifier .unsafeKw, "unsafe", [], [.space, ⟨.multiLineComment, "/* a */"⟩]⟩,
      .bare (.modifier .externKw) "extern"], [], none⟩

/-- On the stump a modifier can be removed, both cannot, and there is none at position 2. -/
theorem modifier_edits_fail_stump :
    stump.kind ≠ .space ∧
    stump.removeAt 2 = .error (.indexOutOfBounds 2 2) ∧
    (ModifierRemoval.position 1).Proper stump.modifiers ∧
    (∀ e, stump.removeAt 1 = .ok e →
      e.modifiers.map word = [.word (.modifier .unsafeKw) "unsafe"]) ∧
    (ModifierRemoval.matching fun t => t.text != "").Proper stump.modifiers ∧
    stump.removeMatching (fun t => t.text != "") =
      .error (.noAnchorToken (.modifier .unsafeKw)) := by
  have hkind : stump.kind ≠ .space := by decide
  have hposition : (ModifierRemoval.position 1).Proper stump.modifiers := Nat.lt_succ_self 1
  have htest : (ModifierRemoval.matching fun t => t.text != "").Proper stump.modifiers :=
    fun _ _ _ => rfl
  have hstranded : stump.Stranded (.modifier .unsafeKw) :=
    ⟨rfl, rfl, _, List.mem_cons_self, by decide⟩
  obtain ⟨-, -, -, hindex, hremoval⟩ := (modifier_edits_fail stump).2 hkind
  refine ⟨hkind, (hindex 2 2 2).2 ⟨by decide, rfl, rfl⟩, hposition, ?_, htest, ?_⟩
  · exact (hremoval (.position 1) hposition).2
  · exact ((hremoval (.matching fun t => t.text != "") htest).1 _).2 ⟨rfl, _, hstranded, rfl⟩

end Declaration

end DeclStyle
