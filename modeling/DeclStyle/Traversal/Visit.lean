import DeclStyle.Declaration.Basic

/-!
# Visiting declarations

A visitor is shown every declaration of a tree together with its container, a container before its
members.  It may change a state of its own, and it says whether the members are to be visited too.
-/

namespace DeclStyle

/-- What a visitor does when it is shown a declaration and its container: whether to go on with the
members, and the new state. -/
abbrev Visitor (σ : Type) := Declaration → Option Declaration → σ → Bool × σ

namespace Visitor

variable {σ : Type}

mutual

/-- Shows a declaration to a visitor, then the members if it asks for them. -/
def visit (v : Visitor σ) (parent : Option Declaration) : Declaration → σ → σ
  | .plain k sig, s => (v (.plain k sig) parent s).2
  | .type k sig ms tl, s =>
    match v (.type k sig ms tl) parent s with
    | (true, s') => visitAll v (some (.type k sig ms tl)) ms s'
    | (false, s') => s'
  | .space hd ms tl, s =>
    match v (.space hd ms tl) parent s with
    | (true, s') => visitAll v (some (.space hd ms tl)) ms s'
    | (false, s') => s'

/-- Shows declarations with a common container to a visitor one after another. -/
def visitAll (v : Visitor σ) (parent : Option Declaration) : List Declaration → σ → σ
  | [], s => s
  | d :: ds, s => visitAll v parent ds (visit v parent d s)

end

/-- The visitor that records what it is shown and does not go into what a test marks. -/
def recording (skip : Declaration → Bool) :
    Visitor (List (Declaration × Option Declaration)) := fun d parent seen =>
  (!skip d, seen ++ [(d, parent)])

/-- The declarations shown to a visitor that does not go into what a test marks, each with its
container, in order. -/
def visited (skip : Declaration → Bool) (ds : List Declaration) :
    List (Declaration × Option Declaration) :=
  visitAll (recording skip) none ds []

end Visitor

end DeclStyle
