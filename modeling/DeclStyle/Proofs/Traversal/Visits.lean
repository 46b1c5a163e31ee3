import DeclStyle.Proofs.Traversal.Calls
import DeclStyle.StyleRule.Run
import DeclStyle.Traversal.Visit

/-!
# The declarations that are visited

A visitor may decide anew at each declaration whether to skip its members, and its state may have a
say in that.  Whatever it decides, the decisions of one run mark some positions of the tree, and it
is shown the declarations with no marked position above them, in the order in which they begin.

* `Declaration.entries` — the declarations of a tree with their positions
  (`Declaration.mem_entries_iff`, `Declaration.pairwise_path_entries`);
* `Position.reached` — a position with none above it that is marked (`Position.reached_iff`);
* `Visitor.recorded`, `Visitor.exists_shows` — what a visitor is shown;
* `calls_and_visits_in_order` — transformers and visitors go through a tree in the same order.
-/

namespace DeclStyle

/-! ## Declarations with their positions -/

/-- A declaration of a tree, with its position and its container. -/
structure Entry where
  path : List Nat
  node : Declaration
  container : Option Declaration

/-- An entry of a member, with its position in the whole tree. -/
def Entry.below (i : Nat) (x : Entry) : Entry := { x with path := i :: x.path }

namespace Declaration

mutual

/-- The declarations of a tree with their positions, in the order in which they begin. -/
def entries (container : Option Declaration) : Declaration → List Entry
  | plain k s => [⟨[], plain k s, container⟩]
  | type k s ms tl => ⟨[], type k s ms tl, container⟩ :: entriesFrom (some (type k s ms tl)) 0 ms
  | space hd ms tl => ⟨[], space hd ms tl, container⟩ :: entriesFrom (some (space hd ms tl)) 0 ms

/-- The same for declarations in a common container, the first of which is at the given place. -/
def entriesFrom (container : Option Declaration) : Nat → List Declaration → List Entry
  | _, [] => []
  | i, d :: ds => (entries container d).map (Entry.below i) ++ entriesFrom container (i + 1) ds

end

theorem entriesFrom_eq (container : Option Declaration) (i : Nat) (ds : List Declaration) :
    entriesFrom container i ds =
      (ds.zipIdx i).flatMap fun x => (entries container x.1).map (Entry.below x.2) := by
  induction ds generalizing i with
  | nil => rfl
  | cons d ds ih => rw [entriesFrom, ih, List.zipIdx_cons, List.flatMap_cons]

theorem entries_eq (container : Option Declaration) (d : Declaration) :
    d.entries container = ⟨[], d, container⟩ ::
      d.members.zipIdx.flatMap fun x => (x.1.entries (some d)).map (Entry.below x.2) := by
  cases d with
  | plain k s => rfl
  | type k s ms tl => rw [entries, entriesFrom_eq]; rfl
  | space hd ms tl => rw [entries, entriesFrom_eq]; rfl

/-- Without their positions the entries are the listing of the tree. -/
theorem map_entries (container : Option Declaration) (d : Declaration) :
    (d.entries container).map (fun x => (x.node, x.container)) = listed container d := by
  induction d using members_induction generalizing container with
  | members d ih =>
    have hmembers : ∀ x ∈ d.members.zipIdx, ((x.1.entries (some d)).map (Entry.below x.2)).map
        (fun x => (x.node, x.container)) = listed (some d) x.1 := by
      intro x hx
      rw [List.map_map]
      exact ih x.1 (List.fst_mem_of_mem_zipIdx hx) (some d)
    rw [entries_eq, listed_eq, List.map_cons, List.map_flatMap, List.flatMap_congr hmembers]
    congr 1
    calc d.members.zipIdx.flatMap (fun x => listed (some d) x.1)
        = (d.members.zipIdx.map Prod.fst).flatMap (listed (some d)) := (List.flatMap_map ..).symm
      _ = d.members.flatMap (listed (some d)) := by rw [List.zipIdx_map_fst]

/-- **The entries of a tree** are the declarations at its positions, each with what is right around
it. -/
theorem mem_entries_iff {container : Option Declaration} {d : Declaration} {x : Entry} :
    x ∈ d.entries container ↔
      d.at? x.path = some x.node ∧ container? container d x.path = x.container := by
  obtain ⟨path, node, around⟩ := x
  induction d using members_induction generalizing container path with
  | members d ih =>
    rw [entries_eq, List.mem_cons, List.mem_flatMap]
    cases path with
    | nil =>
      constructor
      · rintro (h | ⟨m, -, h⟩)
        · obtain ⟨-, rfl, rfl⟩ := Entry.mk.inj h
          exact ⟨rfl, rfl⟩
        · obtain ⟨y, -, hy⟩ := List.mem_map.1 h
          cases congrArg Entry.path hy
      · rintro ⟨hnode, hcontainer⟩
        obtain rfl := Option.some.inj hnode
        obtain rfl : container = around := hcontainer
        exact .inl rfl
    | cons i path =>
      have hbelow : ∀ m : Declaration × Nat,
          ⟨i :: path, node, around⟩ ∈ (m.1.entries (some d)).map (Entry.below m.2) ↔
            m.2 = i ∧ ⟨path, node, around⟩ ∈ m.1.entries (some d) := by
        intro m
        rw [List.mem_map]
        constructor
        · rintro ⟨y, hy, heq⟩
          obtain ⟨hpath, rfl, rfl⟩ := Entry.mk.inj heq
          obtain ⟨rfl, rfl⟩ := List.cons.inj hpath
          exact ⟨rfl, hy⟩
        · rintro ⟨rfl, hy⟩
          exact ⟨_, hy, rfl⟩
      simp only [hbelow, at?, container?]
      constructor
      · rintro (h | ⟨⟨m, j⟩, hm, rfl, hentry⟩)
        · cases congrArg Entry.path h
        · have hget := List.mk_mem_zipIdx_iff_getElem?.1 hm
          simp only [hget, Option.bind_some]
          exact (ih m (List.mem_of_getElem? hget) path).1 hentry
      · rintro ⟨hnode, hcontainer⟩
        obtain ⟨m, hget, hnode⟩ := Option.bind_eq_some_iff.1 hnode
        rw [hget, Option.bind_some] at hcontainer
        refine .inr ⟨(m, i), List.mk_mem_zipIdx_iff_getElem?.2 hget, rfl, ?_⟩
        exact (ih m (List.mem_of_getElem? hget) path).2 ⟨hnode, hcontainer⟩

/-- **The positions of a tree** are listed once each, a declaration before its members and these in
their order. -/
theorem pairwise_path_entries (container : Option Declaration) (d : Declaration) :
    (d.entries container).Pairwise fun x y => x.path < y.path := by
  induction d using members_induction generalizing container with
  | members d ih =>
    rw [entries_eq, List.pairwise_cons, List.pairwise_flatMap]
    refine ⟨?top, ?within, ?across⟩
    case top =>
      intro y hy
      obtain ⟨m, -, hy⟩ := List.mem_flatMap.1 hy
      obtain ⟨z, -, rfl⟩ := List.mem_map.1 hy
      exact List.nil_lt_cons m.2 z.path
    case within =>
      intro m hm
      refine List.pairwise_map.2 ((ih m.1 (List.fst_mem_of_mem_zipIdx hm) (some d)).imp ?_)
      intro x y hlt
      exact List.cons_lt_cons_self.2 hlt
    case across =>
      have hplaces : d.members.zipIdx.Pairwise fun m n => m.2 < n.2 := by
        rw [← List.pairwise_map, List.zipIdx_map_snd]
        exact List.pairwise_lt_range'
      refine hplaces.imp ?_
      intro m n hlt x hx y hy
      obtain ⟨x, -, rfl⟩ := List.mem_map.1 hx
      obtain ⟨y, -, rfl⟩ := List.mem_map.1 hy
      exact List.cons_lt_cons_iff.2 (.inl hlt)

end Declaration

/-! ## Marked positions -/

namespace Position

/-- Whether no position above a position is marked. -/
def reached (skip : List Nat → Bool) : List Nat → Bool
  | [] => true
  | i :: path => !skip [] && reached (fun below => skip (i :: below)) path

/-- The positions above a position are those from which members lead to it. -/
theorem reached_iff {skip : List Nat → Bool} {path : List Nat} :
    reached skip path ↔ ∀ above, above <+: path → above ≠ path → skip above = false := by
  induction path generalizing skip with
  | nil =>
    refine iff_of_true rfl ?_
    intro above hprefix hne
    exact absurd (List.prefix_nil.1 hprefix) hne
  | cons i path ih =>
    rw [reached, Bool.and_eq_true, ih, Bool.not_eq_true']
    constructor
    · rintro ⟨htop, hbelow⟩ above hprefix hne
      rcases List.prefix_cons_iff.1 hprefix with rfl | ⟨below, rfl, hinside⟩
      · exact htop
      · exact hbelow below hinside fun heq => hne (heq ▸ rfl)
    · intro h
      refine ⟨h [] List.nil_prefix (List.cons_ne_nil i path).symm, ?_⟩
      intro above hprefix hne
      refine h (i :: above) ((List.prefix_cons_inj i).2 hprefix) ?_
      intro heq
      exact hne (List.cons.inj heq).2

/-- A marking of a tree, given for its top and below each member. -/
def marked (top : Bool) (below : Nat → List Nat → Bool) : List Nat → Bool
  | [] => top
  | i :: path => below i path

end Position

/-! ## Visits -/

/-- What a visitor was shown, and whether it went on with the members. -/
structure Visit where
  node : Declaration
  container : Option Declaration
  goesOn : Bool

namespace Visit

/-- The visits of those entries that are reached, where a visitor goes on unless a position is
marked. -/
def ofReached (skip : List Nat → Bool) (entries : List Entry) : List Visit :=
  (entries.filter (Position.reached skip ·.path)).map fun x => ⟨x.node, x.container, !skip x.path⟩

theorem ofReached_below (skip : List Nat → Bool) (i : Nat) (entries : List Entry) :
    ofReached skip (entries.map (Entry.below i)) =
      if skip [] then [] else ofReached (fun path => skip (i :: path)) entries := by
  rw [ofReached, List.filter_map, List.map_map]
  cases htop : skip [] with
  | true =>
    have hnone : ∀ x ∈ entries, ¬ Position.reached skip (Entry.below i x).path := by
      intro x _
      simp [Entry.below, Position.reached, htop]
    rw [if_pos rfl, List.map_eq_nil_iff, List.filter_eq_nil_iff]
    exact hnone
  | false =>
    have hsame : entries.filter ((Position.reached skip ·.path) ∘ Entry.below i) =
        entries.filter (Position.reached (fun path => skip (i :: path)) ·.path) := by
      apply List.filter_congr
      intro x _
      simp [Entry.below, Position.reached, htop]
    rw [if_neg Bool.false_ne_true, ofReached, hsame]
    rfl

/-- The top of a tree is always visited, and its members are if it is not marked. -/
theorem ofReached_entries (skip : List Nat → Bool) (container : Option Declaration)
    (d : Declaration) :
    ofReached skip (d.entries container) = ⟨d, container, !skip []⟩ ::
      if skip [] then []
      else d.members.zipIdx.flatMap fun m =>
        ofReached (fun path => skip (m.2 :: path)) (m.1.entries (some d)) := by
  have hmembers : ofReached skip (d.members.zipIdx.flatMap fun m =>
      (m.1.entries (some d)).map (Entry.below m.2)) = d.members.zipIdx.flatMap fun m =>
        ofReached skip ((m.1.entries (some d)).map (Entry.below m.2)) := by
    simp only [ofReached, List.filter_flatMap, List.map_flatMap]
  rw [Declaration.entries_eq, ofReached, List.filter_cons_of_pos rfl, List.map_cons, ← ofReached,
    hmembers]
  simp only [ofReached_below]
  cases skip [] <;> simp

end Visit

namespace Visitor

open Declaration

variable {σ : Type}

theorem visit_eq (v : Visitor σ) (container : Option Declaration) (d : Declaration) (s : σ) :
    v.visit container d s = if (v d container s).1
      then v.visitAll (some d) d.members (v d container s).2 else (v d container s).2 := by
  cases d with
  | plain k sig =>
    rw [visit]
    split <;> rfl
  | _ =>
    rw [visit]
    rcases v _ container s with ⟨goesOn, s'⟩
    cases goesOn <;> rfl

/-- The visitor that also keeps a log of what it is shown. -/
def recorded (v : Visitor σ) : Visitor (σ × List Visit) := fun d container s =>
  match v d container s.1 with
  | (goesOn, s') => (goesOn, s', s.2 ++ [⟨d, container, goesOn⟩])

/-- What a visitor is shown of a tree: there are positions that are marked, each because the visitor
did not go on somewhere, such that the log has grown by the visits of those that are reached. -/
def Shows (v : Visitor σ) (container : Option Declaration) (d : Declaration) (s : σ)
    (log : List Visit) (skip : List Nat → Bool) : Prop :=
  v.recorded.visit container d (s, log) =
      (v.visit container d s, log ++ Visit.ofReached skip (d.entries container)) ∧
    ∀ path, skip path → ∃ n c s', (v n c s').1 = false

/-- What is shown of declarations in a common container. -/
theorem exists_shows_all {v : Visitor σ} {container : Option Declaration} {ds : List Declaration}
    (h : ∀ d ∈ ds, ∀ s log, ∃ skip, v.Shows container d s log skip) (i : Nat) (s : σ)
    (log : List Visit) :
    ∃ skips : Nat → List Nat → Bool,
      v.recorded.visitAll container ds (s, log) = (v.visitAll container ds s,
        log ++ (ds.zipIdx i).flatMap fun m =>
          Visit.ofReached (skips m.2) (m.1.entries container)) ∧
      ∀ j path, skips j path → ∃ n c s', (v n c s').1 = false := by
  induction ds generalizing i s log with
  | nil =>
    refine ⟨fun _ _ => false, ?_, by simp⟩
    rw [List.zipIdx_nil, List.flatMap_nil, List.append_nil]
    rfl
  | cons d ds ih =>
    rw [List.forall_mem_cons] at h
    obtain ⟨skip, hd, hskip⟩ := h.1 s log
    obtain ⟨skips, hds, hskips⟩ := ih h.2 (i + 1) (v.visit container d s)
      (log ++ Visit.ofReached skip (d.entries container))
    -- the markings below the other declarations are kept, since those have other places
    refine ⟨Function.update skips i skip, ?_, ?_⟩
    · have hrest : ∀ m ∈ ds.zipIdx (i + 1), Visit.ofReached (Function.update skips i skip m.2)
          (m.1.entries container) = Visit.ofReached (skips m.2) (m.1.entries container) := by
        intro m hm
        have hplace : m.2 ≠ i := by
          have := List.le_snd_of_mem_zipIdx hm
          omega
        rw [Function.update_of_ne hplace]
      rw [visitAll, hd, hds, List.zipIdx_cons, List.flatMap_cons, List.flatMap_congr hrest,
        Function.update_self, List.append_assoc]
      rfl
    · intro j path hj
      by_cases hplace : j = i
      · rw [hplace, Function.update_self] at hj
        exact hskip path hj
      · rw [Function.update_of_ne hplace] at hj
        exact hskips j path hj

/-- **What a visitor is shown** are the declarations of a tree with no marked position above them,
for some marking that fits what it decides at them. -/
theorem exists_shows (v : Visitor σ) (d : Declaration) (container : Option Declaration) (s : σ)
    (log : List Visit) : ∃ skip, v.Shows container d s log skip := by
  induction d using members_induction generalizing container s log with
  | members d ih =>
    cases hshown : v d container s with
    | mk goesOn s₁ =>
      have hrecorded : v.recorded d container (s, log) =
          (goesOn, s₁, log ++ [⟨d, container, goesOn⟩]) := by
        rw [recorded, hshown]
      cases goesOn with
      | false =>
        refine ⟨Position.marked true fun _ _ => false, ?_, ?_⟩
        · rw [visit_eq, visit_eq, hrecorded, hshown, Visit.ofReached_entries]
          rfl
        · intro path _
          exact ⟨d, container, s, by rw [hshown]⟩
      | true =>
        obtain ⟨skips, hmembers, hskips⟩ := exists_shows_all (fun m hm => ih m hm (some d)) 0 s₁
          (log ++ [⟨d, container, true⟩])
        refine ⟨Position.marked false skips, ?_, ?_⟩
        · rw [visit_eq, visit_eq, hrecorded, hshown, Visit.ofReached_entries, if_pos rfl,
            if_pos rfl, hmembers, List.append_assoc]
          rfl
        · intro path hpath
          cases path with
          | nil => cases hpath
          | cons i path => exact hskips i path hpath

/-- **A visitor that never skips** is shown all of a tree. -/
theorem visits_of_never_skips {v : Visitor σ} (hv : ∀ d container s, (v d container s).1 = true)
    (container : Option Declaration) (d : Declaration) (s : σ) :
    ∃ visits, v.recorded.visit container d (s, []) = (v.visit container d s, visits) ∧
      visits.map (fun x => (x.node, x.container)) = listed container d := by
  obtain ⟨skip, hvisits, hskip⟩ := v.exists_shows d container s []
  have hnone : ∀ path, skip path = false := by
    intro path
    rw [← Bool.not_eq_true]
    intro hpath
    obtain ⟨n, c, s', hfalse⟩ := hskip path hpath
    rw [hv] at hfalse
    cases hfalse
  have hall : ∀ x ∈ d.entries container, Position.reached skip x.path := by
    intro x _
    exact Position.reached_iff.2 fun above _ _ => hnone above
  refine ⟨_, hvisits, ?_⟩
  rw [List.nil_append, Visit.ofReached, List.filter_eq_self.2 hall, List.map_map, ← map_entries]
  rfl

end Visitor

/-! ## The order of a traversal -/

/-- **Passes and visits go through a tree in order.**  A pass of a transformer that at most reorders
members comes to an end, and its calls are as reported; each style rule is such a transformer.  One
that keeps everything leaves the tree as it is, and is shown what a visitor is shown that never
skips.  Whatever a visitor decides, it is shown the declarations with no skipped one above them and
no others, each once, a declaration before its members and these in their order. -/
theorem calls_and_visits_in_order :
    (∀ (σ : Type) (t : Transformer σ), t.KeepsMembers → ∀ container d s, ∃ result calls,
      t.EndsWith container d s result calls ∧ t.Report container d s result calls) ∧
    (∀ (r : StyleRule) (settings : StyleSettings),
      (r.transformer (r.fixNode settings)).KeepsMembers) ∧
    (∀ (σ τ : Type) (t : Transformer σ) (v : Visitor τ),
      (∀ d container s, (t d container s).1 = .ok none) →
      (∀ d container s, (v d container s).1 = true) →
      ∀ container d s u, ∃ s' calls visits,
        t.EndsWith container d s (.done d s') calls ∧
        v.recorded.visit container d (u, []) = (v.visit container d u, visits) ∧
        calls.map (fun c => (c.node, c.container)) =
          visits.map fun x => (x.node, x.container)) ∧
    ∀ (σ : Type) (v : Visitor σ) (container : Option Declaration) (d : Declaration) (s : σ),
      ∃ (skip : List Nat → Bool) (entries : List Entry),
        v.recorded.visit container d (s, []) = (v.visit container d s,
          entries.map fun x => ⟨x.node, x.container, !skip x.path⟩) ∧
        (entries.Pairwise fun x y => x.path < y.path) ∧
        ∀ x, x ∈ entries ↔
          (d.at? x.path = some x.node ∧ d.container? container x.path = x.container) ∧
            ∀ above, above <+: x.path → above ≠ x.path → skip above = false := by
  refine ⟨?passes, ?rules, ?kept, ?visits⟩
  case passes =>
    intro σ t ht container d s
    exact Transformer.exists_report ht container d s
  case rules =>
    intro r settings
    exact StyleRule.transformer_keepsMembers r settings
  case kept =>
    intro σ τ t v ht hv container d s u
    obtain ⟨s', calls, hends, hcalls⟩ := Transformer.exists_calls_of_keeps ht container d s
    obtain ⟨visits, hvisits, hlisted⟩ := Visitor.visits_of_never_skips hv container d u
    exact ⟨s', calls, visits, hends, hvisits, hcalls.trans hlisted.symm⟩
  case visits =>
    intro σ v container d s
    obtain ⟨skip, hvisits, -⟩ := v.exists_shows d container s []
    refine ⟨skip, (d.entries container).filter (Position.reached skip ·.path), hvisits, ?_, ?_⟩
    · exact (Declaration.pairwise_path_entries container d).filter _
    · intro x
      rw [List.mem_filter, Declaration.mem_entries_iff, Position.reached_iff]

/-- A transformer that turns the order of members round and counts its calls. -/
def Transformer.reversing : Transformer Nat := fun d _ n =>
  (.ok (some (d.withMembers d.members.reverse)), n + 1)

/-- A transformer that keeps everything and counts its calls. -/
def Transformer.counting : Transformer Nat := fun _ _ n => (.ok none, n + 1)

/-- A visitor that never skips and counts what it is shown. -/
def Visitor.counting : Visitor Nat := fun _ _ n => (true, n + 1)

theorem Transformer.reversing_keepsMembers : reversing.KeepsMembers := by
  intro d container s e s' h
  cases h
  cases d with
  | plain k sig => exact .refl _
  | type k sig ms tl => exact ms.reverse_perm
  | space hd ms tl => exact ms.reverse_perm

/-- A class with a field and a method. -/
def fieldAndMethod : Declaration :=
  .type .classType ⟨[], [.bare .keyword "class"], none⟩
    [.plain .field ⟨[], [.bare .identifier "f"], some 0⟩,
      .plain .method ⟨[], [.bare .identifier "m"], some 0⟩] []

/-- The pass that reverses members and the one that keeps everything, on a class with two. -/
theorem calls_and_visits_in_order_fieldAndMethod :
    (∃ result calls, Transformer.reversing.EndsWith none fieldAndMethod 0 result calls ∧
      Transformer.reversing.Report none fieldAndMethod 0 result calls) ∧
    ∃ s' calls visits,
      Transformer.counting.EndsWith none fieldAndMethod 0 (.done fieldAndMethod s') calls ∧
      Visitor.counting.recorded.visit none fieldAndMethod (0, []) =
        (Visitor.counting.visit none fieldAndMethod 0, visits) ∧
      calls.map (fun c => (c.node, c.container)) = visits.map fun x => (x.node, x.container) :=
  ⟨calls_and_visits_in_order.1 Nat .reversing Transformer.reversing_keepsMembers none
      fieldAndMethod 0,
    calls_and_visits_in_order.2.2.1 Nat Nat .counting .counting (fun _ _ _ => rfl)
      (fun _ _ _ => rfl) none fieldAndMethod 0 0⟩

end DeclStyle
