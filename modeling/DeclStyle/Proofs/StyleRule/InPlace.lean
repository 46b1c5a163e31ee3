import DeclStyle.Proofs.StyleRule.Satisfied
import DeclStyle.Proofs.Traversal.Listing

/-!
# Rules that leave members in their places

A rule that edits the modifiers of declarations looks at each one in a container that it has dealt
with already.  Where its edits of a container do not matter to it, it fires at the declarations at
which it fires in the tree that it is given, and nowhere else.

* `StyleRule.LeavesMembers` — the rule keeps members in their places and goes by their containers as
  they were;
* `StyleRule.rel_at?_of_fires` — what such a rule does at each position of a tree;
* `Interspersed`, `StyleRule.interspersed_of_outcome` — the text that it adds;
* `StyleRule.exists_fix_in_place` — the application of such a rule.
-/

namespace DeclStyle

/-! ## Texts with pieces put in -/

/-- A text is another one with pieces put in, in their order. -/
inductive Interspersed : List String → String → String → Prop where
  | done (s : String) : Interspersed [] s s
  | piece {pieces : List String} {s t : String} (front p : String) :
      Interspersed pieces s t → Interspersed (p :: pieces) (front ++ s) (front ++ (p ++ t))

namespace Interspersed

variable {pieces pieces' : List String} {s s' t t' : String}

/-- Text in front is kept. -/
theorem append_left (front : String) (h : Interspersed pieces s t) :
    Interspersed pieces (front ++ s) (front ++ t) := by
  cases h with
  | done => exact .done _
  | @piece pieces s t front' p h =>
    have hpiece := h.piece (front ++ front') p
    rwa [String.append_assoc, String.append_assoc] at hpiece

theorem append (h : Interspersed pieces s t) (h' : Interspersed pieces' s' t') :
    Interspersed (pieces ++ pieces') (s ++ s') (t ++ t') := by
  induction h with
  | done s => exact h'.append_left s
  | piece front p _ ih =>
    rw [String.append_assoc, String.append_assoc, String.append_assoc]
    exact .piece front p ih

end Interspersed

/-! ## Parts of a document -/

namespace Declaration

theorem render_eq (d : Declaration) :
    d.render = Token.renderAll d.opening ++
      (Token.renderAll (tokensOfAll d.members) ++ Token.renderAll d.tail) := by
  rw [render, tokens_eq, body, Token.renderAll_append, Token.renderAll_append]

/-- The members that a declaration had can be put back. -/
theorem withMembers_withMembers_eq_self {d e : Declaration} (h : e.members = d.members)
    (ms : List Declaration) : (e.withMembers ms).withMembers d.members = e := by
  rw [← h]
  cases e <;> rfl

theorem opening_withMembers (d : Declaration) (ms : List Declaration) :
    (d.withMembers ms).opening = d.opening := by
  cases d <;> rfl

theorem tail_withMembers (d : Declaration) (ms : List Declaration) :
    (d.withMembers ms).tail = d.tail := by
  cases d <;> rfl

end Declaration

namespace StyleRule

open Declaration

variable {r : StyleRule} {settings : StyleSettings} {d e : Declaration}

/-- A rule keeps the members of what it changes in their places, and fires at them as it would in
the declaration before the change. -/
def LeavesMembers (r : StyleRule) (settings : StyleSettings) : Prop :=
  ∀ parent d current, Changes settings r parent d current →
    current.members = d.members ∧
      ∀ m, r.fires settings (some current) m = r.fires settings (some d) m

/-- Where members keep their places, what holds of a declaration in its container and throughout its
members holds at each position. -/
theorem rel_at?_of_members {R : Option Declaration → Declaration → Declaration → Prop}
    {container : Option Declaration} {current : Declaration} {members : List Declaration}
    (hown : R container d (current.withMembers members)) (hsame : current.members = d.members)
    (h : List.Forall₂ (fun m m' => ∀ path,
      Option.Rel (R (container? (some d) m path)) (m.at? path) (m'.at? path))
      current.members members) (path : List Nat) :
    Option.Rel (R (container? container d path)) (d.at? path)
      ((current.withMembers members).at? path) := by
  cases path with
  | nil => exact .some hown
  | cons i path =>
    have hmember := rel_getElem?_of_forall₂ h i
    rw [at?, at?, container?, members_withMembers_of_forall₂ h, ← hsame]
    generalize current.members[i]? = before at hmember ⊢
    generalize members[i]? = after at hmember ⊢
    cases hmember with
    | none => exact .none
    | some hm => exact hm path

/-- **Where a rule fires** in a tree whose members stay in their places.  What holds of a
declaration that is kept where the rule does not fire, and of one that is changed where it does,
holds at each position, with the container that is there before the rule is applied. -/
theorem rel_at?_of_fires (hr : r.LeavesMembers settings)
    {R : Option Declaration → Declaration → Declaration → Prop}
    (hkept : ∀ container d ms, r.fires settings container d = false →
      R container d (d.withMembers ms))
    (hchanged : ∀ container parent d current ms, r.fires settings container d →
      Changes settings r parent d current → R container d (current.withMembers ms))
    (h : (r.attempt settings d).outcome = .ok e) (path : List Nat) :
    Option.Rel (R (container? none d path)) (d.at? path) (e.at? path) := by
  -- the rule is shown the container that it has made; it fires as it would in the given one
  refine fix_induction (fun parent d e => ∀ container,
    (∀ m, r.fires settings container m = r.fires settings parent m) →
      ∀ path, Option.Rel (R (container? container d path)) (d.at? path) (e.at? path))
    ?kept ?changed h none (fun _ => rfl) path
  case kept =>
    intro parent d members hfix hmembers container hcontainer
    have hquiet : r.fires settings container d = false := by
      rw [hcontainer, fixNode_eq_ok_none_iff.1 hfix]
    refine rel_at?_of_members (hkept container d members hquiet) rfl ?_
    exact hmembers.imp fun m m' hm => hm (some d) fun _ => rfl
  case changed =>
    intro parent d current members hchanges hmembers container hcontainer
    have hfires : r.fires settings container d := by
      rw [hcontainer, fires_of_changes hchanges]
    obtain ⟨hsame, hcurrent⟩ := hr parent d current hchanges
    refine rel_at?_of_members (hchanged container parent d current members hfires hchanges) hsame ?_
    exact hmembers.imp fun m m' hm => hm (some d) fun n => (hcurrent n).symm

/-! ## The text of a tree -/

/-- Members that stay in their places bring their pieces one after another, behind those of the
opening. -/
theorem interspersed_of_members {current : Declaration} {members : List Declaration}
    {own : List String} {pieces : Declaration → List String}
    (hopening : Interspersed own (Token.renderAll d.opening) (Token.renderAll current.opening))
    (htail : current.tail = d.tail) (hsame : current.members = d.members)
    (h : List.Forall₂ (fun m m' => Interspersed (pieces m) m.render m'.render) current.members
      members) :
    Interspersed (own ++ d.members.flatMap pieces) d.render
      (current.withMembers members).render := by
  have hmembers : ∀ {ms ms' : List Declaration},
      List.Forall₂ (fun m m' => Interspersed (pieces m) m.render m'.render) ms ms' →
        Interspersed (ms.flatMap pieces) (Token.renderAll (tokensOfAll ms))
          (Token.renderAll (tokensOfAll ms')) := by
    intro ms ms' hms
    induction hms with
    | nil => exact .done _
    | cons hm _ ih =>
      rw [List.flatMap_cons, tokensOfAll, tokensOfAll, Token.renderAll_append,
        Token.renderAll_append]
      exact hm.append ih
  have hbody := (hmembers h).append (.done (Token.renderAll d.tail))
  rw [List.append_nil, hsame] at hbody
  rw [render_eq, render_eq (current.withMembers members), opening_withMembers, tail_withMembers,
    members_withMembers_of_forall₂ h, htail]
  exact hopening.append hbody

/-- One piece of text for each declaration at which a rule fires. -/
def additions (r : StyleRule) (settings : StyleSettings) (text : String)
    (container : Option Declaration) (d : Declaration) : List String :=
  ((listed container d).filter fun x => r.fires settings x.2 x.1).map fun _ => text

theorem additions_eq (r : StyleRule) (settings : StyleSettings) (text : String)
    (container : Option Declaration) (d : Declaration) :
    r.additions settings text container d =
      (if r.fires settings container d then [text] else []) ++
        d.members.flatMap (r.additions settings text (some d)) := by
  have hlisted : ∀ x : Declaration × Option Declaration, listed x.2 x.1 =
      x :: (x.1.members.map (·, some x.1)).flatMap fun x => listed x.2 x.1 := by
    intro x
    rw [listed_eq, List.flatMap_map]
  have hrec := map_filter_listing hlisted (fun x => r.fires settings x.2 x.1) (fun _ => text)
    (d, container)
  rw [List.flatMap_map] at hrec
  exact hrec

/-- Every change of a declaration by a rule adds the same piece of text to its opening, and nothing
behind its members. -/
def AddsText (r : StyleRule) (settings : StyleSettings) (text : String) : Prop :=
  ∀ parent d current, Changes settings r parent d current →
    (∃ before after, Token.renderAll d.opening = before ++ after ∧
      Token.renderAll current.opening = before ++ (text ++ after)) ∧ current.tail = d.tail

/-- **The text of a tree** whose members stay in their places, where every change of a declaration
adds the same piece of text. -/
theorem interspersed_of_outcome (hr : r.LeavesMembers settings) {text : String}
    (htext : r.AddsText settings text)
    (h : (r.attempt settings d).outcome = .ok e) :
    Interspersed (r.additions settings text none d) d.render e.render := by
  refine fix_induction (fun parent d e => ∀ container,
    (∀ m, r.fires settings container m = r.fires settings parent m) →
      Interspersed (r.additions settings text container d) d.render e.render)
    ?kept ?changed h none fun _ => rfl
  case kept =>
    intro parent d members hfix hmembers container hcontainer
    have hquiet : r.fires settings container d = false := by
      rw [hcontainer, fixNode_eq_ok_none_iff.1 hfix]
    rw [additions_eq, hquiet]
    refine interspersed_of_members (.done _) rfl rfl ?_
    exact hmembers.imp fun m m' hm => hm (some d) fun _ => rfl
  case changed =>
    intro parent d current members hchanges hmembers container hcontainer
    obtain ⟨hsame, hcurrent⟩ := hr parent d current hchanges
    obtain ⟨⟨before, after, hbefore, hafter⟩, htail⟩ := htext parent d current hchanges
    rw [additions_eq, hcontainer, fires_of_changes hchanges]
    refine interspersed_of_members ?_ htail hsame ?_
    · rw [hbefore, hafter]
      exact .piece before text (.done after)
    · exact hmembers.imp fun m m' hm => hm (some d) fun n => (hcurrent n).symm

/-- **What a rule does in place.**  A rule that leaves members in their places succeeds, acts at
each position as it would in the given tree, and adds its piece of text wherever it fires. -/
theorem exists_fix_in_place (hrule : r ≠ redundantUnsafe) (hr : r.LeavesMembers settings)
    {R : Option Declaration → Declaration → Declaration → Prop} {text : String}
    (hkept : ∀ container d ms, r.fires settings container d = false →
      R container d (d.withMembers ms))
    (hchanged : ∀ container parent d current ms, r.fires settings container d →
      Changes settings r parent d current → R container d (current.withMembers ms))
    (htext : r.AddsText settings text)
    (d : Declaration) :
    ∃ f, r.fix settings d = .ok f ∧
      (∀ path, Option.Rel (R (container? none d path)) (d.at? path) (f.tree.at? path)) ∧
      Interspersed (r.additions settings text none d) d.render f.tree.render := by
  obtain ⟨f, hf, houtcome⟩ := exists_fix_eq_ok hrule settings d
  exact ⟨f, hf, rel_at?_of_fires hr hkept hchanged houtcome,
    interspersed_of_outcome hr htext houtcome⟩

end StyleRule

end DeclStyle
