import DeclStyle.Proofs.Order.Sorted

/-!
# The laws of the orders of names and of members

The invariant order compares the lowercase forms of two names, and breaks a tie by comparing the
names themselves.  The forms need not have the length of the names, and different names may have the
same form, so that the two stages do not line up letter by letter.  The order is a strict total
order all the same, whatever the lowercase mapping.  With it the order of members is a total
preorder that tells apart no more than ranks and, on request, names.

* `Collation.compareWith_eq_eq_iff` — two names compare equal only if they are the same;
* `Collation.compareWith_of_folded_ne` — the lowercase forms decide wherever they differ;
* `Collation.compareWith_append` — a name comes before every longer name that starts with it;
* `MemberOrder.compareOptional_laws` — all of it together, for names and for members.
-/

namespace DeclStyle

/-! ## Lexicographic order -/

/-- A list comes before every longer list that starts with it. -/
theorem compareLex_append_of_ne_nil {α : Type} {cmp : Comparer α} [Std.ReflCmp cmp] (l : List α)
    {m : List α} (hm : m ≠ []) : List.compareLex cmp l (l ++ m) = .lt := by
  induction l with
  | nil =>
    cases m with
    | nil => exact absurd rfl hm
    | cons a m => exact List.compareLex_nil_cons
  | cons a l ih =>
    have hself : cmp a a = .eq := Std.ReflCmp.compare_self
    rw [List.cons_append, List.compareLex_cons_cons, hself, Ordering.eq_then, ih]

/-! ## Names -/

namespace Collation

variable (lower : Char → List Char) (isUpper : Char → Bool)

/-- The lowercase form of a name. -/
def folded (lower : Char → List Char) (x : String) : String := .ofList (x.toList.flatMap lower)

instance : Std.LawfulEqCmp (compareCase isUpper) where
  compare_self := by simp [compareCase]
  eq_of_compare h := Std.LawfulEqCmp.eq_of_compare (Ordering.then_eq_eq.1 h).2

/-- **Two names compare equal** under a collation if they are the same, and not otherwise. -/
theorem compareWith_eq_eq_iff (c : Collation) (x y : String) :
    compareWith lower isUpper c x y = .eq ↔ x = y := by
  constructor
  · intro h
    rw [← String.toList_inj]
    cases c with
    | ordinal => exact Std.LawfulEqCmp.eq_of_compare h
    | invariant => exact Std.LawfulEqCmp.eq_of_compare (Ordering.then_eq_eq.1 h).2
  · rintro rfl
    exact Std.ReflCmp.compare_self

/-- **The lowercase forms decide** about two names wherever they differ. -/
theorem compareWith_of_folded_ne {x y : String} (h : folded lower x ≠ folded lower y) :
    compareWith lower isUpper invariant x y =
      compareOrdinal (folded lower x) (folded lower y) := by
  have hforms : compareOrdinal (folded lower x) (folded lower y) =
      List.compareLex compare (x.toList.flatMap lower) (y.toList.flatMap lower) := by
    rw [compareOrdinal, folded, folded, String.toList_ofList, String.toList_ofList]
  have hne : compareOrdinal (folded lower x) (folded lower y) ≠ .eq := fun heq =>
    h ((compareWith_eq_eq_iff lower isUpper ordinal _ _).1 heq)
  rw [compareWith, compareFolded, ← hforms]
  cases hcompare : compareOrdinal (folded lower x) (folded lower y) with
  | eq => exact absurd hcompare hne
  | lt => rfl
  | gt => rfl

/-- **A name comes before every longer name that starts with it.**  Where the two have the same
lowercase form, the tie is broken in favour of the shorter one. -/
theorem compareWith_append (x : String) {y : String} (hy : y ≠ "") :
    compareWith lower isUpper invariant x (x ++ y) = .lt := by
  have hrest : y.toList ≠ [] := fun hnil => hy (String.toList_eq_nil_iff.1 hnil)
  have htie : List.compareLex (compareCase isUpper) x.toList (x.toList ++ y.toList) = .lt :=
    compareLex_append_of_ne_nil _ hrest
  rw [compareWith, compareFolded, String.toList_append, List.flatMap_append, htie]
  by_cases hform : y.toList.flatMap lower = []
  · have hself : List.compareLex compare (x.toList.flatMap lower) (x.toList.flatMap lower) = .eq :=
      Std.ReflCmp.compare_self
    rw [hform, List.append_nil, hself]
    rfl
  · rw [compareLex_append_of_ne_nil _ hform]
    rfl

end Collation

/-! ## Members -/

/-- Possibly absent values are compared by a total preorder if the values are. -/
theorem Comparer.transCmp_optional {α : Type} (cmp : Comparer α) [Std.TransCmp cmp] :
    Std.TransCmp (optional cmp) where
  eq_swap {x y} := by
    rcases x with _ | x <;> rcases y with _ | y
    · rfl
    · rfl
    · rfl
    · have hswap : cmp x y = (cmp y x).swap := Std.OrientedCmp.eq_swap
      exact hswap
  isLE_trans {x y z} hxy hyz := by
    cases x with
    | none => cases z <;> rfl
    | some x =>
      cases y with
      | none => cases hxy
      | some y =>
        cases z with
        | none => cases hyz
        | some z =>
          have htrans : (cmp x y).isLE → (cmp y z).isLE → (cmp x z).isLE := Std.TransCmp.isLE_trans
          exact htrans hxy hyz

namespace MemberOrder

variable (lower : Char → List Char) (isUpper : Char → Bool)

/-- The order of members for a given lowercase mapping. -/
def compareWith (lower : Char → List Char) (isUpper : Char → Bool) (o : MemberOrder) :
    Comparer Declaration :=
  compareLex (compareOn Declaration.rank) fun x y =>
    match o.sortMode with
    | .byKind => .eq
    | .byKindThenByName => o.collation.compareWith lower isUpper x.name y.name

theorem compare_eq_compareWith (o : MemberOrder) :
    o.compare = o.compareWith Letter.lowercase Letter.isUppercase := o.compare_eq

instance (o : MemberOrder) : Std.TransCmp (o.compareWith lower isUpper) := by
  obtain ⟨sortMode, collation⟩ := o
  have hname : Std.TransCmp fun x y : Declaration =>
      collation.compareWith lower isUpper x.name y.name :=
    Comparer.transCmp_comap (collation.compareWith lower isUpper) Declaration.name
  have hnever : Std.TransCmp fun _ _ : Declaration => Ordering.eq :=
    { eq_swap := rfl, isLE_trans := fun _ _ => rfl }
  cases sortMode with
  | byKind => exact inferInstanceAs (Std.TransCmp (compareLex _ fun _ _ : Declaration => .eq))
  | byKindThenByName => exact inferInstanceAs (Std.TransCmp (compareLex _ fun x y : Declaration =>
      collation.compareWith lower isUpper x.name y.name))

/-- **Two members compare equal** if they have the same rank and, where members are ordered by name,
the same name. -/
theorem compareWith_eq_eq_iff (o : MemberOrder) (d e : Declaration) :
    o.compareWith lower isUpper d e = .eq ↔
      d.rank = e.rank ∧ (o.sortMode = .byKindThenByName → d.name = e.name) := by
  obtain ⟨sortMode, collation⟩ := o
  rw [compareWith, compareLex_eq_eq, compareOn, Std.LawfulEqCmp.compare_eq_iff_eq]
  cases sortMode with
  | byKind => simp
  | byKindThenByName => simp [Collation.compareWith_eq_eq_iff]

/-- **The laws of the orders.**  For every lowercase mapping and every notion of an uppercase
letter, the invariant order of names is a strict total order: a total preorder in which only a name
itself compares equal to it.  The lowercase forms decide wherever they differ, and a name comes
before every longer one that starts with it.  So the order of members that may be absent is a total
preorder under every sort mode and collation; an absent one comes first, and two members compare
equal exactly if they agree in rank and, where names count, in name.  The order in use is the one
for the mapping of `Letter`. -/
theorem compareOptional_laws :
    (Std.TransCmp (Collation.compareWith lower isUpper .invariant) ∧
      (∀ x y, Collation.compareWith lower isUpper .invariant x y = .eq ↔ x = y) ∧
      (∀ x y, Collation.folded lower x ≠ Collation.folded lower y →
        Collation.compareWith lower isUpper .invariant x y =
          Collation.compareOrdinal (Collation.folded lower x) (Collation.folded lower y)) ∧
      ∀ x y, y ≠ "" → Collation.compareWith lower isUpper .invariant x (x ++ y) = .lt) ∧
    ∀ o : MemberOrder,
      Std.TransCmp (Comparer.optional (o.compareWith lower isUpper)) ∧
      (∀ d, Comparer.optional (o.compareWith lower isUpper) none (some d) = .lt) ∧
      (∀ d e, Comparer.optional (o.compareWith lower isUpper) (some d) (some e) = .eq ↔
        d.rank = e.rank ∧ (o.sortMode = .byKindThenByName → d.name = e.name)) ∧
      o.compareOptional =
        Comparer.optional (o.compareWith Letter.lowercase Letter.isUppercase) := by
  refine ⟨⟨inferInstance, ?_, ?_, ?_⟩, fun o => ⟨?_, fun d => rfl, ?_, ?_⟩⟩
  · exact Collation.compareWith_eq_eq_iff lower isUpper .invariant
  · exact fun x y h => Collation.compareWith_of_folded_ne lower isUpper h
  · exact fun x y h => Collation.compareWith_append lower isUpper x h
  · exact Comparer.transCmp_optional (o.compareWith lower isUpper)
  · exact o.compareWith_eq_eq_iff lower isUpper
  · rw [compareOptional, compare_eq_compareWith]

/-- The capital I with a dot has a lowercase form of two characters.  The form decides against `j`,
and breaks no tie with the two characters themselves, which come before whatever they start. -/
theorem compareOptional_laws_dottedCapital :
    Collation.folded Letter.lowercase "\u0130" = Collation.folded Letter.lowercase "i\u0307" ∧
    Collation.folded Letter.lowercase "\u0130" ≠ Collation.folded Letter.lowercase "j" ∧
    Collation.compare .invariant "\u0130" "j" =
      Collation.compareOrdinal "i\u0307" "j" ∧
    Collation.compare .invariant "\u0130" "i\u0307" ≠ .eq ∧
    "\u0307" ≠ "" ∧ Collation.compare .invariant "i" ("i" ++ "\u0307") = .lt := by
  have hforms : Collation.folded Letter.lowercase "\u0130" ≠
      Collation.folded Letter.lowercase "j" := by decide
  obtain ⟨⟨-, hequal, hdecides, hlonger⟩, -⟩ :=
    compareOptional_laws Letter.lowercase Letter.isUppercase
  refine ⟨by decide, hforms, ?_, ?_, by decide, ?_⟩
  · exact hdecides "\u0130" "j" hforms
  · exact fun h => absurd ((hequal _ _).1 h) (by decide)
  · exact hlonger "i" "\u0307" (by decide)

end MemberOrder

end DeclStyle
