import DeclStyle.Proofs.Traversal.Position

/-!
# Listings

The declarations of a tree in the order in which they begin: each one before its members, and the
members in their order.

* `Declaration.listed`, `Declaration.listed_eq` — the declarations of a tree with their containers;
* `Declaration.preorder`, `Declaration.preorder_eq` — the declarations alone;
* `map_filter_listing` — a selection from a listing, in terms of those from the parts of it.
-/

namespace DeclStyle

/-- Where a listing is an element followed by the listings of its children, so is what is read off a
selection from it. -/
theorem map_filter_listing {α β : Type} {list children : α → List α}
    (h : ∀ a, list a = a :: (children a).flatMap list) (p : α → Bool) (f : α → β) (a : α) :
    ((list a).filter p).map f =
      (if p a then [f a] else []) ++
        (children a).flatMap fun b => ((list b).filter p).map f := by
  have hnested : ((children a).flatMap list).filter p =
      (children a).flatMap fun b => (list b).filter p := List.filter_flatMap ..
  rw [h, List.filter_cons, hnested]
  split
  · rw [List.map_cons, List.map_flatMap, List.singleton_append]
  · rw [List.map_flatMap, List.nil_append]

namespace Declaration

mutual

/-- A declaration in its container and everything nested in it, each with its container. -/
def listed (parent : Option Declaration) : Declaration → List (Declaration × Option Declaration)
  | plain k s => [(plain k s, parent)]
  | type k s ms tl => (type k s ms tl, parent) :: listedAll (some (type k s ms tl)) ms
  | space hd ms tl => (space hd ms tl, parent) :: listedAll (some (space hd ms tl)) ms

/-- Declarations in a common container and everything nested in them, each with its container. -/
def listedAll (parent : Option Declaration) :
    List Declaration → List (Declaration × Option Declaration)
  | [] => []
  | d :: ds => listed parent d ++ listedAll parent ds

end

theorem listedAll_eq_flatMap (parent : Option Declaration) (ds : List Declaration) :
    listedAll parent ds = ds.flatMap (listed parent) := by
  induction ds with
  | nil => rfl
  | cons d ds ih => rw [listedAll, ih, List.flatMap_cons]

theorem listed_eq (parent : Option Declaration) (d : Declaration) :
    listed parent d = (d, parent) :: d.members.flatMap (listed (some d)) := by
  cases d with
  | plain k s => rfl
  | type k s ms tl => rw [listed, listedAll_eq_flatMap]; rfl
  | space hd ms tl => rw [listed, listedAll_eq_flatMap]; rfl

/-- A declaration and everything nested in it. -/
def preorder (d : Declaration) : List Declaration := (listed none d).map Prod.fst

/-- Which declarations there are does not depend on the container of the first. -/
theorem map_fst_listed (parent : Option Declaration) (d : Declaration) :
    (listed parent d).map Prod.fst = d.preorder := by
  rw [preorder, listed_eq, listed_eq none]
  rfl

theorem preorder_eq (d : Declaration) : d.preorder = d :: d.members.flatMap preorder := by
  rw [preorder, listed_eq, List.map_cons, List.map_flatMap]
  simp only [map_fst_listed]

end Declaration

end DeclStyle
