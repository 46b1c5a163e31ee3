import DeclStyle.Traversal.Transform
import Mathlib.Data.List.Forall2

/-!
# Induction over a pass

What holds of every step of a pass holds of the pass.  A step shows a declaration to the transformer
in its container, which has been transformed already; the members of the replacement are transformed
after that.  So a property of the container, the declaration and its result holds throughout, once
it holds of a declaration whose members have it (`Transformer.transform_induction`).

A pass fails only where one of its steps does, with the error of that step
(`Transformer.exists_step_of_transform_eq_failed`); over a list, if it fails at one of the elements
(`PassResult.mapAll_fails_iff`).
-/

namespace DeclStyle

/-- Lists that are related element by element are related at every place. -/
theorem rel_getElem?_of_forall₂ {α β : Type} {R : α → β → Prop} {as : List α} {bs : List β}
    (h : List.Forall₂ R as bs) (i : Nat) : Option.Rel R as[i]? bs[i]? := by
  induction h generalizing i with
  | nil => exact .none
  | cons hab _ ih =>
    cases i with
    | zero => exact .some hab
    | succ i => exact ih i

namespace Declaration

/-- Members that stand one by one for those of a declaration can take their places. -/
theorem members_withMembers_of_forall₂ {R : Declaration → Declaration → Prop} {d : Declaration}
    {ms : List Declaration} (h : List.Forall₂ R d.members ms) :
    (d.withMembers ms).members = ms := by
  cases d with
  | plain k s =>
    cases h
    rfl
  | type k s ms' tl => rfl
  | space hd ms' tl => rfl

/-- A member that has taken the place of another one is related to it. -/
theorem exists_mem_of_forall₂ {R : Declaration → Declaration → Prop} {ds es : List Declaration}
    {e : Declaration} (h : List.Forall₂ R ds es) (he : e ∈ es) : ∃ d ∈ ds, R d e := by
  induction h with
  | nil => cases he
  | @cons d e' ds es hde _ ih =>
    rcases List.mem_cons.1 he with rfl | he
    · exact ⟨d, List.mem_cons_self, hde⟩
    · obtain ⟨d', hd', hrel⟩ := ih he
      exact ⟨d', List.mem_cons_of_mem d hd', hrel⟩

end Declaration

namespace PassResult

variable {σ α β : Type}

theorem bind_eq_done_iff {x : PassResult σ α} {f : α → σ → PassResult σ β} {b : β} {s' : σ} :
    x.bind f = .done b s' ↔ ∃ a s, x = .done a s ∧ f a s = .done b s' := by
  cases x <;> simp [bind]

/-- The elements of a list are passed over one by one. -/
theorem forall₂_of_mapAll_eq_done {f : α → σ → PassResult σ β} {as : List α} {bs : List β}
    {s s' : σ} (h : mapAll f as s = .done bs s') :
    List.Forall₂ (fun a b => ∃ s s', f a s = .done b s') as bs := by
  induction as generalizing s s' bs with
  | nil =>
    obtain ⟨rfl, -⟩ := PassResult.done.inj h
    exact .nil
  | cons a as ih =>
    obtain ⟨b, s₁, ha, hrest⟩ := bind_eq_done_iff.1 h
    obtain ⟨bs', s₂, has, hdone⟩ := bind_eq_done_iff.1 hrest
    obtain ⟨rfl, -⟩ := PassResult.done.inj hdone
    exact .cons ⟨s, s₁, ha⟩ (ih has)

/-- A list whose elements are all kept, the state included, is kept. -/
theorem mapAll_eq_done_self {f : α → σ → PassResult σ α} {as : List α} {s : σ}
    (h : ∀ a ∈ as, f a s = .done a s) : mapAll f as s = .done as s := by
  induction as with
  | nil => rfl
  | cons a as ih =>
    have hrest := ih fun b hb => h b (List.mem_cons_of_mem a hb)
    rw [mapAll, h a List.mem_cons_self, bind, hrest, bind]

theorem bind_eq_failed_iff {x : PassResult σ α} {f : α → σ → PassResult σ β} {e : EditError}
    {s' : σ} :
    x.bind f = .failed e s' ↔
      x = .failed e s' ∨ ∃ a s, x = .done a s ∧ f a s = .failed e s' := by
  cases x <;> simp [bind]

/-- A pass over a list fails with the error of one of its elements. -/
theorem exists_of_mapAll_eq_failed {f : α → σ → PassResult σ β} {as : List α} {s s' : σ}
    {e : EditError} (h : mapAll f as s = .failed e s') :
    ∃ a ∈ as, ∃ s₁, f a s₁ = .failed e s' := by
  induction as generalizing s with
  | nil => cases h
  | cons a as ih =>
    rcases bind_eq_failed_iff.1 h with ha | ⟨b, s₁, -, hrest⟩
    · exact ⟨a, List.mem_cons_self, s, ha⟩
    · rcases bind_eq_failed_iff.1 hrest with has | ⟨bs, s₂, -, hdone⟩
      · obtain ⟨a', ha', hfailed⟩ := ih has
        exact ⟨a', List.mem_cons_of_mem a ha', hfailed⟩
      · cases hdone

/-- A pass that failed, with whatever error. -/
def Fails (x : PassResult σ α) : Prop := ∃ e s, x = .failed e s

/-- What is done to the value of a pass does not make it fail. -/
theorem bind_done_fails_iff {x : PassResult σ α} {g : α → β} :
    (x.bind fun a s => .done (g a) s).Fails ↔ x.Fails := by
  cases x <;> simp [bind, Fails]

/-- **A pass over a list fails** if it fails at one of the elements, where it depends on the element
alone whether it fails there. -/
theorem mapAll_fails_iff {f : α → σ → PassResult σ β} {P : α → Prop} {as : List α}
    (hends : ∀ a ∈ as, ∀ s, f a s ≠ .unfinished) (h : ∀ a ∈ as, ∀ s, (f a s).Fails ↔ P a)
    (s : σ) : (mapAll f as s).Fails ↔ ∃ a ∈ as, P a := by
  induction as generalizing s with
  | nil =>
    refine iff_of_false (fun ⟨e, s', hfailed⟩ => ?_) ?_
    · cases hfailed
    · rintro ⟨a, ha, -⟩
      cases ha
  | cons a as ih =>
    rw [List.forall_mem_cons] at hends h
    simp only [List.mem_cons, exists_eq_or_imp]
    rw [mapAll]
    have ha := h.1 s
    cases hfirst : f a s with
    | done b s₁ =>
      rw [hfirst] at ha
      have hfine : ¬ P a := fun hp => by
        obtain ⟨e, s', hfailed⟩ := ha.2 hp
        cases hfailed
      rw [bind, bind_done_fails_iff, ih hends.2 h.2]
      exact (or_iff_right hfine).symm
    | failed e s₁ => exact iff_of_true ⟨e, s₁, rfl⟩ (.inl (ha.1 ⟨e, s₁, hfirst⟩))
    | unfinished => exact absurd hfirst (hends.1 s)

end PassResult

namespace Transformer

variable {σ : Type} {t : Transformer σ}

/-- What a pass that came to an end has done at its first declaration. -/
theorem exists_of_transform_eq_done {levels : Nat} {parent : Option Declaration}
    {d e : Declaration} {s s' : σ} (h : t.transform (levels + 1) parent d s = .done e s') :
    ∃ replacement s₁ members, t d parent s = (.ok replacement, s₁) ∧
      List.Forall₂
        (fun m m' => ∃ s s', t.transform levels (some (replacement.getD d)) m s = .done m' s')
        (replacement.getD d).members members ∧
      e = (replacement.getD d).withMembers members := by
  rw [transform] at h
  split at h
  · cases h
  · rename_i replacement s₁ hshown
    obtain ⟨members, s₂, hmembers, hdone⟩ := PassResult.bind_eq_done_iff.1 h
    obtain ⟨rfl, -⟩ := PassResult.done.inj hdone
    exact ⟨replacement, s₁, members, hshown, PassResult.forall₂_of_mapAll_eq_done hmembers, rfl⟩

/-- **Induction over a pass.**  A property of a container, a declaration in it and what became of
that declaration holds throughout a pass, if it holds of a declaration once it holds of the members
of its replacement. -/
theorem transform_induction {P : Option Declaration → Declaration → Declaration → Prop}
    (hnode : ∀ parent d s replacement s₁ members, t d parent s = (.ok replacement, s₁) →
      List.Forall₂ (P (some (replacement.getD d))) (replacement.getD d).members members →
      P parent d ((replacement.getD d).withMembers members))
    {levels : Nat} {parent : Option Declaration} {d e : Declaration} {s s' : σ}
    (h : t.transform levels parent d s = .done e s') : P parent d e := by
  induction levels generalizing parent d e s s' with
  | zero => cases h
  | succ levels ih =>
    obtain ⟨replacement, s₁, members, hshown, hmembers, rfl⟩ := exists_of_transform_eq_done h
    exact hnode parent d s replacement s₁ members hshown
      (hmembers.imp fun m m' ⟨_, _, hm⟩ => ih hm)

/-- **A pass fails with the error of one of its steps.** -/
theorem exists_step_of_transform_eq_failed {levels : Nat} {parent : Option Declaration}
    {d : Declaration} {s s' : σ} {e : EditError}
    (h : t.transform levels parent d s = .failed e s') :
    ∃ d' parent' s₁, t d' parent' s₁ = (.error e, s') := by
  induction levels generalizing parent d s with
  | zero => cases h
  | succ levels ih =>
    rw [transform] at h
    split at h
    · rename_i e' s₁ hshown
      cases h
      exact ⟨d, parent, s, hshown⟩
    · rename_i replacement s₁ hshown
      rcases PassResult.bind_eq_failed_iff.1 h with hmembers | ⟨members, s₂, -, hdone⟩
      · obtain ⟨m, -, s₃, hm⟩ := PassResult.exists_of_mapAll_eq_failed hmembers
        exact ih hm
      · cases hdone

/-- A pass whose steps never fail does not fail. -/
theorem transform_ne_failed
    (ht : ∀ d parent s, ∃ replacement s', t d parent s = (.ok replacement, s'))
    (levels : Nat) (parent : Option Declaration) (d : Declaration) (s : σ) (e : EditError)
    (s' : σ) : t.transform levels parent d s ≠ .failed e s' := by
  intro h
  obtain ⟨d', parent', s₁, hfailed⟩ := exists_step_of_transform_eq_failed h
  obtain ⟨replacement, s₂, hok⟩ := ht d' parent' s₁
  rw [hok] at hfailed
  cases hfailed

end Transformer

end DeclStyle
