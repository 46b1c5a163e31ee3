import DeclStyle.Proofs.Traversal.Induction
import DeclStyle.Proofs.Traversal.Listing

/-!
# The calls of a pass

A pass shows declarations to a transformer one after another.  Which ones, in which containers and
in which order is told by a list of those that wait for their turn: once a declaration has been
shown, the members of what replaced it are put in front of those that wait, and a refusal ends it
all.

* `Transformer.recorded` — the transformer that also keeps a log of its calls
  (`Transformer.transform_recorded`: the log makes no difference to a pass);
* `Transformer.Calls` — the calls that work off those that wait, from one state to another;
* `Transformer.logged_transform` — the log of a pass is such a list of calls;
* `Transformer.Calls.perm_preorder` — where members are at most reordered, each declaration of the
  tree is shown once;
* `Transformer.Report`, `Transformer.exists_report` — how a pass of such a transformer ends, and
  after which calls;
* `Transformer.exists_calls_of_keeps` — the pass that keeps everything.
-/

namespace DeclStyle

/-- One call of a transformer: what it was shown, and what it answered. -/
structure Call where
  node : Declaration
  container : Option Declaration
  answer : Except EditError (Option Declaration)

/-- The members of a declaration, each in it. -/
def Declaration.inside (d : Declaration) : List (Declaration × Option Declaration) :=
  d.members.map (·, some d)

/-! ## The state of a pass -/

namespace PassResult

variable {σ τ α β : Type}

/-- A pass with its state seen in another way. -/
def mapState (g : σ → τ) : PassResult σ α → PassResult τ α
  | done a s => done a (g s)
  | failed e s => failed e (g s)
  | unfinished => unfinished

theorem mapState_bind {g : σ → τ} {x : PassResult σ α} {f : α → σ → PassResult σ β}
    {f' : α → τ → PassResult τ β} (h : ∀ a s, (f a s).mapState g = f' a (g s)) :
    (x.bind f).mapState g = (x.mapState g).bind f' := by
  cases x with
  | done a s => exact h a s
  | _ => rfl

theorem mapState_mapAll {g : σ → τ} {f : α → σ → PassResult σ β} {f' : α → τ → PassResult τ β}
    (h : ∀ a s, (f a s).mapState g = f' a (g s)) (as : List α) (s : σ) :
    (mapAll f as s).mapState g = mapAll f' as (g s) := by
  induction as generalizing s with
  | nil => rfl
  | cons a as ih =>
    rw [mapAll, mapAll, ← h]
    apply mapState_bind
    intro b s'
    rw [← ih]
    apply mapState_bind
    intro bs s''
    rfl

/-- A pass that comes to an end can be told from how it ends without a part of its state, and what
that part is at the end. -/
theorem exists_eq_mapState {x : PassResult (σ × τ) α} (h : x ≠ unfinished) :
    ∃ u, x = (x.mapState Prod.fst).mapState (·, u) := by
  cases x with
  | done a s => exact ⟨s.2, rfl⟩
  | failed e s => exact ⟨s.2, rfl⟩
  | unfinished => exact absurd rfl h

theorem ne_unfinished_of_bind {x : PassResult σ α} {f : α → σ → PassResult σ β}
    (h : x.bind f ≠ unfinished) : x ≠ unfinished := by
  rintro rfl
  exact h rfl

/-- A pass over a list that comes to an end does not depend on what would be done to an element
where that does not come to an end. -/
theorem mapAll_eq_of_ne_unfinished {f g : α → σ → PassResult σ β}
    (h : ∀ a s, f a s ≠ unfinished → g a s = f a s) {as : List α} {s : σ}
    (hne : mapAll f as s ≠ unfinished) : mapAll g as s = mapAll f as s := by
  induction as generalizing s with
  | nil => rfl
  | cons a as ih =>
    rw [mapAll] at hne
    rw [mapAll, mapAll, h a s (ne_unfinished_of_bind hne)]
    cases hfirst : f a s with
    | done b s' =>
      rw [hfirst] at hne
      rw [bind, bind, ih (ne_unfinished_of_bind hne)]
    | _ => rfl

end PassResult

namespace Transformer

open Declaration

variable {σ : Type} {t : Transformer σ} {container : Option Declaration} {d : Declaration}
  {s s₁ s' : σ} {log : List Call} {todo waiting : List (Declaration × Option Declaration)}
  {calls : List Call} {stop : Option EditError}

/-- **A pass that comes to an end** comes to the same end if it may go further down. -/
theorem transform_eq_of_le {levels levels' : Nat} (hle : levels ≤ levels')
    (h : t.transform levels container d s ≠ .unfinished) :
    t.transform levels' container d s = t.transform levels container d s := by
  induction levels generalizing levels' container d s with
  | zero => exact absurd rfl h
  | succ levels ih =>
    cases levels' with
    | zero => omega
    | succ levels' =>
      rw [transform] at h ⊢
      rw [transform]
      split
      · rfl
      · rename_i replacement s₁ hshown
        rw [hshown] at h
        have hmembers := PassResult.mapAll_eq_of_ne_unfinished
          (fun m s₂ hm => ih (Nat.le_of_succ_le_succ hle) hm) (PassResult.ne_unfinished_of_bind h)
        simp only [hmembers]

/-! ## Calls on record -/

/-- The transformer that also keeps a log of its calls. -/
def recorded (t : Transformer σ) : Transformer (σ × List Call) := fun d container s =>
  match t d container s.1 with
  | (answer, s') => (answer, s', s.2 ++ [⟨d, container, answer⟩])

/-- **The log makes no difference** to what a pass does. -/
theorem transform_recorded (t : Transformer σ) (levels : Nat) (container : Option Declaration)
    (d : Declaration) (s : σ × List Call) :
    (t.recorded.transform levels container d s).mapState Prod.fst =
      t.transform levels container d s.1 := by
  induction levels generalizing container d s with
  | zero => rfl
  | succ levels ih =>
    rw [transform, transform, recorded]
    obtain ⟨answer, s₁⟩ := t d container s.1
    cases answer with
    | error e => rfl
    | ok replacement =>
      simp only
      rw [← PassResult.mapState_mapAll (ih (some (replacement.getD d))) _
        (s₁, s.2 ++ [⟨d, container, .ok replacement⟩])]
      apply PassResult.mapState_bind
      intro members s₂
      rfl

theorem recorded_keepsMembers (ht : t.KeepsMembers) : t.recorded.KeepsMembers := by
  intro d container s e s' h
  obtain ⟨hanswer, -⟩ := Prod.mk.inj h
  exact ht d container s.1 e (t d container s.1).2 (Prod.ext hanswer rfl)

/-! ## What is called for -/

/-- The calls that work off a list of declarations that wait for their turn, each in its container,
with the error that stopped them if there was one.  They take the transformer from one state to
another. -/
inductive Calls (t : Transformer σ) :
    σ → List (Declaration × Option Declaration) → List Call → Option EditError → σ → Prop where
  | finished (s : σ) : Calls t s [] [] none s
  /-- A refusal is the last call. -/
  | refused {container : Option Declaration} {d : Declaration} {s s' : σ} {e : EditError}
      (h : t d container s = (.error e, s')) (waiting : List (Declaration × Option Declaration)) :
      Calls t s ((d, container) :: waiting) [⟨d, container, .error e⟩] (some e) s'
  /-- Any other answer is followed by the calls for the members of the replacement, in it and in
  their order, before those for what has been waiting. -/
  | answered {container : Option Declaration} {d : Declaration} {s s₁ s' : σ}
      {replacement : Option Declaration} {waiting : List (Declaration × Option Declaration)}
      {calls : List Call} {stop : Option EditError}
      (h : t d container s = (.ok replacement, s₁))
      (hrest : Calls t s₁ ((replacement.getD d).inside ++ waiting) calls stop s') :
      Calls t s ((d, container) :: waiting) (⟨d, container, .ok replacement⟩ :: calls) stop s'

/-- The log of a pass has grown by the calls that work off certain declarations.  Whatever else
waits is worked off after that, unless the pass has failed. -/
def Logged {α : Type} (t : Transformer σ) (s : σ) (log : List Call)
    (todo : List (Declaration × Option Declaration)) : PassResult (σ × List Call) α → Prop
  | .done _ (s', log') => ∃ calls, log' = log ++ calls ∧
      ∀ waiting rest stop s'', Calls t s' waiting rest stop s'' →
        Calls t s (todo ++ waiting) (calls ++ rest) stop s''
  | .failed e (s', log') => ∃ calls, log' = log ++ calls ∧
      ∀ waiting, Calls t s (todo ++ waiting) calls (some e) s'
  | .unfinished => True

namespace Logged

variable {α β : Type}

theorem nothing (t : Transformer σ) (s : σ) (log : List Call) (a : α) :
    Logged t s log [] (.done a (s, log)) :=
  ⟨[], (List.append_nil log).symm, fun _ _ _ _ h => h⟩

/-- What is done after a pass is on record after it. -/
theorem bind {x : PassResult (σ × List Call) α}
    {f : α → σ × List Call → PassResult (σ × List Call) β}
    {todo' : List (Declaration × Option Declaration)} (hx : Logged t s log todo x)
    (hf : ∀ a s' log', Logged t s' log' todo' (f a (s', log'))) :
    Logged t s log (todo ++ todo') (x.bind f) := by
  cases x with
  | unfinished => trivial
  | failed e s' =>
    obtain ⟨calls, hlog, hcalls⟩ := hx
    refine ⟨calls, hlog, fun waiting => ?_⟩
    rw [List.append_assoc]
    exact hcalls (todo' ++ waiting)
  | done a s' =>
    obtain ⟨s', log'⟩ := s'
    obtain ⟨calls, rfl, hcalls⟩ := hx
    have hnext := hf a s' (log ++ calls)
    rw [PassResult.bind]
    cases hend : f a (s', log ++ calls) with
    | unfinished => trivial
    | failed e s'' =>
      rw [hend] at hnext
      obtain ⟨calls', hlog, hcalls'⟩ := hnext
      refine ⟨calls ++ calls', by rw [hlog, List.append_assoc], fun waiting => ?_⟩
      rw [List.append_assoc]
      exact hcalls _ _ _ _ (hcalls' waiting)
    | done b s'' =>
      rw [hend] at hnext
      obtain ⟨calls', hlog, hcalls'⟩ := hnext
      refine ⟨calls ++ calls', by rw [hlog, List.append_assoc], ?_⟩
      intro waiting rest stop s''' h
      rw [List.append_assoc, List.append_assoc]
      exact hcalls _ _ _ _ (hcalls' waiting rest stop s''' h)

/-- What is made of the value of a pass is not on record. -/
theorem bind_done {x : PassResult (σ × List Call) α} (g : α → β) (hx : Logged t s log todo x) :
    Logged t s log todo (x.bind fun a s => .done (g a) s) := by
  have hbind := hx.bind fun a s' log' => nothing t s' log' (g a)
  rwa [List.append_nil] at hbind

/-- A pass over a list is on record if it is for each element. -/
theorem mapAll {f : Declaration → σ × List Call → PassResult (σ × List Call) β}
    (hf : ∀ m s log, Logged t s log [(m, container)] (f m (s, log))) (ms : List Declaration)
    (s : σ) (log : List Call) :
    Logged t s log (ms.map (·, container)) (PassResult.mapAll f ms (s, log)) := by
  induction ms generalizing s log with
  | nil => exact nothing t s log []
  | cons m ms ih =>
    refine (hf m s log).bind fun b s' log' => ?_
    exact (ih s' log').bind_done (b :: ·)

/-- The record goes back to the call from which the members come. -/
theorem answered {replacement : Option Declaration} {x : PassResult (σ × List Call) α}
    (h : t d container s = (.ok replacement, s₁))
    (hx : Logged t s₁ (log ++ [⟨d, container, .ok replacement⟩]) (replacement.getD d).inside x) :
    Logged t s log [(d, container)] x := by
  cases x with
  | unfinished => trivial
  | failed e s' =>
    obtain ⟨calls, hlog, hcalls⟩ := hx
    refine ⟨⟨d, container, .ok replacement⟩ :: calls, by rw [hlog, List.append_assoc]; rfl, ?_⟩
    intro waiting
    exact .answered h (hcalls waiting)
  | done a s' =>
    obtain ⟨calls, hlog, hcalls⟩ := hx
    refine ⟨⟨d, container, .ok replacement⟩ :: calls, by rw [hlog, List.append_assoc]; rfl, ?_⟩
    intro waiting rest stop s'' hrest
    exact .answered h (hcalls waiting rest stop s'' hrest)

end Logged

/-- **The log of a pass** has grown by the calls that work off the declaration it is about. -/
theorem logged_transform (t : Transformer σ) (levels : Nat) (container : Option Declaration)
    (d : Declaration) (s : σ) (log : List Call) :
    Logged t s log [(d, container)] (t.recorded.transform levels container d (s, log)) := by
  induction levels generalizing container d s log with
  | zero => trivial
  | succ levels ih =>
    rw [transform, recorded]
    cases hshown : t d container s with
    | mk answer s₁ =>
      cases answer with
      | error e => exact ⟨_, rfl, fun waiting => .refused hshown waiting⟩
      | ok replacement =>
        refine .answered hshown (.bind_done _ ?_)
        exact .mapAll (ih (some (replacement.getD d))) _ s₁ _

/-! ## What the calls are -/

/-- **Each declaration of a tree is shown once**, if members are at most reordered and no call is
refused. -/
theorem Calls.perm_preorder (ht : t.KeepsMembers) (h : Calls t s waiting calls stop s')
    (hstop : stop = none) :
    (calls.map Call.node).Perm (waiting.flatMap fun x => x.1.preorder) := by
  induction h with
  | finished s => exact .nil
  | refused h waiting => cases hstop
  | @answered container d s s₁ s' replacement waiting calls stop hshown hrest ih =>
    have hmembers : (replacement.getD d).members.Perm d.members := by
      cases replacement with
      | none => exact .refl _
      | some e => exact ht d container s e s₁ hshown
    have hinside : (replacement.getD d).inside.flatMap (fun x => x.1.preorder) =
        (replacement.getD d).members.flatMap preorder := by
      rw [inside, List.flatMap_map]
    have hrest := ih hstop
    rw [List.flatMap_append, hinside] at hrest
    rw [List.map_cons, List.flatMap_cons, preorder_eq, List.cons_append]
    exact (hrest.trans ((hmembers.flatMap_right preorder).append_right _)).cons d

/-- No call is refused unless it stops the pass. -/
theorem Calls.forall_ok (h : Calls t s waiting calls stop s') (hstop : stop = none) :
    ∀ c ∈ calls, ∃ replacement, c.answer = .ok replacement := by
  induction h with
  | finished s => simp
  | refused h waiting => cases hstop
  | answered h hrest ih => exact List.forall_mem_cons.2 ⟨⟨_, rfl⟩, ih hstop⟩

/-- **The first refusal is the last call.** -/
theorem Calls.exists_eq_append (h : Calls t s waiting calls stop s') {e : EditError}
    (hstop : stop = some e) :
    ∃ before last, calls = before ++ [last] ∧ last.answer = .error e ∧
      ∀ c ∈ before, ∃ replacement, c.answer = .ok replacement := by
  induction h with
  | finished s => cases hstop
  | refused h waiting =>
    obtain rfl := Option.some.inj hstop
    exact ⟨[], _, rfl, rfl, by simp⟩
  | answered h hrest ih =>
    obtain ⟨before, last, rfl, hlast, hbefore⟩ := ih hstop
    exact ⟨_ :: before, last, rfl, hlast, List.forall_mem_cons.2 ⟨⟨_, rfl⟩, hbefore⟩⟩

/-- **A container is shown before its members**: what is shown has been waiting from the start, or
it is a member of an earlier replacement and is shown in that. -/
theorem Calls.exists_container (h : Calls t s waiting calls stop s') {before after : List Call}
    {c : Call} (hsplit : calls = before ++ c :: after) :
    (c.node, c.container) ∈ waiting ∨ ∃ b ∈ before, ∃ replacement,
      b.answer = .ok replacement ∧ (c.node, c.container) ∈ (replacement.getD b.node).inside := by
  induction h generalizing before with
  | finished s => simp at hsplit
  | refused h waiting =>
    cases before with
    | nil =>
      obtain ⟨rfl, -⟩ := List.cons.inj hsplit
      exact .inl List.mem_cons_self
    | cons b before => simp at hsplit
  | @answered container d s s₁ s' replacement waiting calls stop h hrest ih =>
    cases before with
    | nil =>
      obtain ⟨rfl, -⟩ := List.cons.inj hsplit
      exact .inl List.mem_cons_self
    | cons b before =>
      obtain ⟨rfl, hcalls⟩ := List.cons.inj hsplit
      rcases ih hcalls with hwaiting | ⟨b, hb, earlier⟩
      · rcases List.mem_append.1 hwaiting with hinside | hwaiting
        · exact .inr ⟨_, List.mem_cons_self, replacement, rfl, hinside⟩
        · exact .inl (List.mem_cons_of_mem _ hwaiting)
      · exact .inr ⟨b, List.mem_cons_of_mem _ hb, earlier⟩

/-! ## How a pass ends -/

/-- How a pass over a tree ends, and the calls it makes. -/
inductive Report (t : Transformer σ) (container : Option Declaration) (d : Declaration) (s : σ) :
    PassResult σ Declaration → List Call → Prop where
  /-- Each declaration of the tree is shown once, and in what replaced its container before. -/
  | done {e : Declaration} {s' : σ} {calls : List Call}
      (calls_eq : Calls t s [(d, container)] calls none s')
      (ok : ∀ c ∈ calls, ∃ replacement, c.answer = .ok replacement)
      (once : (calls.map Call.node).Perm d.preorder)
      (nested : ∀ before c after, calls = before ++ c :: after →
        (c.node, c.container) = (d, container) ∨ ∃ b ∈ before, ∃ replacement,
          b.answer = .ok replacement ∧ (c.node, c.container) ∈ (replacement.getD b.node).inside) :
      Report t container d s (.done e s') calls
  /-- The error is that of the last call, and no call before it is refused. -/
  | failed {e : EditError} {s' : σ} {before : List Call} {last : Call}
      (calls_eq : Calls t s [(d, container)] (before ++ [last]) (some e) s')
      (ok : ∀ c ∈ before, ∃ replacement, c.answer = .ok replacement)
      (error : last.answer = .error e) :
      Report t container d s (.failed e s') (before ++ [last])

/-- A pass over a tree ends in a certain way, however far down it may go, and the log of its calls
is the given one. -/
structure EndsWith (t : Transformer σ) (container : Option Declaration) (d : Declaration) (s : σ)
    (result : PassResult σ Declaration) (calls : List Call) : Prop where
  transform (levels : Nat) (h : d.depth ≤ levels) : t.transform levels container d s = result
  recorded (levels : Nat) (h : d.depth ≤ levels) :
    t.recorded.transform levels container d (s, []) = result.mapState (·, calls)

/-- A pass of a transformer that at most reorders members comes to one end, with a log of its
calls. -/
theorem exists_endsWith (ht : t.KeepsMembers) (container : Option Declaration) (d : Declaration)
    (s : σ) : ∃ calls, t.EndsWith container d s (t.transform d.depth container d s) calls := by
  have hends := transform_ne_unfinished ht (Nat.le_refl d.depth) container s
  have hends' := transform_ne_unfinished (recorded_keepsMembers ht) (Nat.le_refl d.depth) container
    (s, [])
  obtain ⟨calls, hcalls⟩ := PassResult.exists_eq_mapState hends'
  rw [transform_recorded] at hcalls
  refine ⟨calls, ?transform, ?recorded⟩
  case transform =>
    intro levels hle
    exact transform_eq_of_le hle hends
  case recorded =>
    intro levels hle
    rw [transform_eq_of_le hle hends', hcalls]

/-- **A pass of a transformer that at most reorders members** comes to an end, and its calls are as
reported. -/
theorem exists_report (ht : t.KeepsMembers) (container : Option Declaration) (d : Declaration)
    (s : σ) : ∃ result calls, t.EndsWith container d s result calls ∧
      t.Report container d s result calls := by
  obtain ⟨calls, hends⟩ := exists_endsWith ht container d s
  have hlogged := logged_transform t d.depth container d s []
  rw [hends.recorded d.depth (Nat.le_refl _)] at hlogged
  refine ⟨_, calls, hends, ?_⟩
  cases hresult : t.transform d.depth container d s with
  | unfinished => exact absurd hresult (transform_ne_unfinished ht (Nat.le_refl _) container s)
  | failed e s' =>
    rw [hresult] at hlogged
    obtain ⟨calls', hlog, hcalls⟩ := hlogged
    obtain rfl : calls = calls' := hlog
    obtain ⟨before, last, rfl, hlast, hbefore⟩ := (hcalls []).exists_eq_append rfl
    exact .failed (hcalls []) hbefore hlast
  | done e s' =>
    rw [hresult] at hlogged
    obtain ⟨calls', hlog, hcalls⟩ := hlogged
    obtain rfl : calls = calls' := hlog
    have hcalls := hcalls [] [] none s' (.finished s')
    rw [List.append_nil, List.append_nil] at hcalls
    refine .done hcalls (hcalls.forall_ok rfl) ?once ?nested
    case once => simpa using hcalls.perm_preorder ht rfl
    case nested =>
      intro before c after hsplit
      simpa using hcalls.exists_container hsplit

/-! ## Passes that keep everything -/

theorem answer_eq_of_keeps (ht : ∀ d container s, (t d container s).1 = .ok none)
    {d : Declaration} {container : Option Declaration}
    {answer : Except EditError (Option Declaration)} (h : t d container s = (answer, s')) :
    answer = .ok none := by
  rw [← ht d container s, h]

/-- A transformer that keeps everything is shown all of what waits, and is never refused. -/
theorem Calls.map_of_keeps (ht : ∀ d container s, (t d container s).1 = .ok none)
    (h : Calls t s waiting calls stop s') :
    stop = none ∧ calls.map (fun c => (c.node, c.container)) =
      waiting.flatMap fun x => listed x.2 x.1 := by
  induction h with
  | finished s => exact ⟨rfl, rfl⟩
  | refused h waiting => cases answer_eq_of_keeps ht h
  | answered h hrest ih =>
    obtain rfl := Except.ok.inj (answer_eq_of_keeps ht h)
    obtain ⟨hstop, hcalls⟩ := ih
    refine ⟨hstop, ?_⟩
    rw [List.map_cons, hcalls, List.flatMap_append, List.flatMap_cons, listed_eq, List.cons_append,
      inside, List.flatMap_map]
    rfl

theorem keepsMembers_of_keeps (ht : ∀ d container s, (t d container s).1 = .ok none) :
    t.KeepsMembers := by
  intro d container s e s' h
  cases answer_eq_of_keeps ht h

/-- A pass that keeps everything leaves a tree as it is. -/
theorem eq_of_keeps (ht : ∀ d container s, (t d container s).1 = .ok none) {levels : Nat}
    {container : Option Declaration} {d e : Declaration}
    (h : t.transform levels container d s = .done e s') : e = d := by
  refine transform_induction (P := fun _ d e => e = d) ?_ h
  intro container d s replacement s₁ members hshown hmembers
  obtain rfl := Except.ok.inj (answer_eq_of_keeps ht hshown)
  have hsame : d.members = members := by
    have hall := hmembers.imp fun m m' (hm : m' = m) => hm.symm
    exact List.forall₂_eq_eq_eq ▸ hall
  show d.withMembers members = d
  rw [← hsame, withMembers_members]

/-- **A pass that keeps everything** leaves a tree as it is and shows all of it. -/
theorem exists_calls_of_keeps (ht : ∀ d container s, (t d container s).1 = .ok none)
    (container : Option Declaration) (d : Declaration) (s : σ) :
    ∃ s' calls, t.EndsWith container d s (.done d s') calls ∧
      calls.map (fun c => (c.node, c.container)) = listed container d := by
  obtain ⟨result, calls, hends, hreport⟩ := exists_report (keepsMembers_of_keeps ht) container d s
  cases hreport with
  | failed hcalls hok herror => cases (hcalls.map_of_keeps ht).1
  | @done e s' calls hcalls hok honce =>
    obtain rfl := eq_of_keeps ht (hends.transform d.depth (Nat.le_refl _))
    refine ⟨s', calls, hends, ?_⟩
    simpa using (hcalls.map_of_keeps ht).2

end Transformer

end DeclStyle
