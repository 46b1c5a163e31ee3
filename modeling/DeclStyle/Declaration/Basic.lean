import DeclStyle.Declaration.Kind
import DeclStyle.Token

/-!
# Declarations

A declaration tree holds what ordering and editing need: the modifier list, the tokens after it,
where the name stands among them, and the members.  Everything else is kept only to be printed.

Modifiers, the tokens after them and the place of the name form the *signature* of a plain
declaration or a type.  A namespace has tokens and members, and no modifiers.

The view of a tree is `Declaration.tokens`, all its tokens in document order; its text, its
comments and its first token are read off that list.
-/

namespace DeclStyle

/-- The opening of a declaration: its modifiers, the tokens after them (for a type, up to the
opening brace), and the position of the name among those tokens, which need not be a valid one. -/
structure Signature where
  modifiers : List Token
  tokens : List Token
  name : Option UInt64
  deriving DecidableEq, Repr, Inhabited

namespace Signature

/-- The first token after the modifiers. -/
def next? (s : Signature) : Option Token := s.tokens.head?

/-- The text of the name. -/
def nameText? (s : Signature) : Option String := do
  let i ← s.name
  let t ← s.tokens[i.toNat]?
  return t.text

/-- Whether a modifier keyword is present. -/
def hasModifier (s : Signature) (kind : ModifierKind) : Bool := s.modifiers.any (·.isModifier kind)

/-- The signature with another first token after its modifiers, if it has one. -/
def setNext (s : Signature) (t : Token) : Signature := { s with tokens := s.tokens.set 0 t }

/-- All tokens of a signature in document order. -/
def allTokens (s : Signature) : List Token := s.modifiers ++ s.tokens

end Signature

/-- A declaration with everything nested in it. -/
inductive Declaration where
  /-- A declaration without members. -/
  | plain (kind : PlainKind) (signature : Signature)
  /-- A type, whose signature ends with the opening brace. -/
  | type (kind : TypeKind) (signature : Signature) (members : List Declaration)
      (tail : List Token)
  /-- A namespace; its head runs from the keyword to the opening brace. -/
  | space (head : List Token) (members : List Declaration) (tail : List Token)
  deriving Inhabited

namespace Declaration

/-! ## Parts of a declaration -/

/-- The kind of a declaration. -/
def kind : Declaration → DeclarationKind
  | plain k _ => .plain k
  | type k _ _ _ => .type k
  | space _ _ _ => .space

/-- The signature of a declaration that carries modifiers. -/
def signature? : Declaration → Option Signature
  | plain _ s => some s
  | type _ s _ _ => some s
  | space _ _ _ => none

/-- The modifiers of a declaration; none for a namespace. -/
def modifiers : Declaration → List Token
  | plain _ s => s.modifiers
  | type _ s _ _ => s.modifiers
  | space _ _ _ => []

/-- The members of a declaration that can have some. -/
def members? : Declaration → Option (List Declaration)
  | plain _ _ => none
  | type _ _ ms _ => some ms
  | space _ ms _ => some ms

/-- The members of a declaration; none for one without a member list. -/
def members (d : Declaration) : List Declaration := d.members?.getD []

/-- The tokens after the members. -/
def tail : Declaration → List Token
  | plain _ _ => []
  | type _ _ _ tl => tl
  | space _ _ tl => tl

/-- The declaration with other members.  One without a member list stays as it is. -/
def withMembers : Declaration → List Declaration → Declaration
  | plain k s, _ => plain k s
  | type k s _ tl, ms => type k s ms tl
  | space hd _ tl, ms => space hd ms tl

/-- The declaration with another signature.  A namespace stays as it is. -/
def withSignature : Declaration → Signature → Declaration
  | plain k _, s => plain k s
  | type k _ ms tl, s => type k s ms tl
  | space hd ms tl, _ => space hd ms tl

/-- Whether the declaration carries a modifier keyword. -/
def hasModifier (d : Declaration) (kind : ModifierKind) : Bool :=
  d.modifiers.any (·.isModifier kind)

/-- A field that is declared constant. -/
def isConstField (d : Declaration) : Bool :=
  d.kind == .plain .field && d.hasModifier .constKw

/-- The name of a namespace: everything from its keyword to the opening brace. -/
def dottedName (head : List Token) : String :=
  String.join (((head.drop 1).takeWhile (·.text != "\x7b")).map Token.text)

/-- The name to sort a declaration by: empty for kinds without a name and where none is given. -/
def name : Declaration → String
  | plain k s => if (DeclarationKind.plain k).isNamed then s.nameText?.getD "" else ""
  | type _ s _ _ => s.nameText?.getD ""
  | space hd _ _ => dottedName hd

/-! ## The document-order view -/

mutual

/-- All tokens of a declaration, those of its members included, in document order. -/
def tokens : Declaration → List Token
  | plain _ s => s.allTokens
  | type _ s ms tl => s.allTokens ++ tokensOfAll ms ++ tl
  | space hd ms tl => hd ++ tokensOfAll ms ++ tl

/-- All tokens of a list of declarations in document order. -/
def tokensOfAll : List Declaration → List Token
  | [] => []
  | d :: ds => tokens d ++ tokensOfAll ds

end

/-- The document text of a declaration. -/
def render (d : Declaration) : String := Token.renderAll d.tokens

/-- The texts of all comments of a declaration, in document order. -/
def comments (d : Declaration) : List String := Token.commentsOfAll d.tokens

/-- The first token of a declaration. -/
def firstToken? (d : Declaration) : Option Token := d.tokens.head?

/-! ## Nesting -/

mutual

/-- How deeply declarations are nested in a declaration, itself counted. -/
def depth : Declaration → Nat
  | plain _ _ => 1
  | type _ _ ms _ => depthOfAll ms + 1
  | space _ ms _ => depthOfAll ms + 1

/-- The greatest depth in a list of declarations. -/
def depthOfAll : List Declaration → Nat
  | [] => 0
  | d :: ds => max (depth d) (depthOfAll ds)

end

theorem tokensOfAll_eq_flatMap (ds : List Declaration) : tokensOfAll ds = ds.flatMap tokens := by
  induction ds with
  | nil => simp [tokensOfAll]
  | cons d ds ih => simp [tokensOfAll, ih]

@[simp] theorem withMembers_members (d : Declaration) : d.withMembers d.members = d := by
  cases d <;> rfl

@[simp] theorem kind_withMembers (d : Declaration) (ms : List Declaration) :
    (d.withMembers ms).kind = d.kind := by
  cases d <;> rfl

@[simp] theorem modifiers_withMembers (d : Declaration) (ms : List Declaration) :
    (d.withMembers ms).modifiers = d.modifiers := by
  cases d <;> rfl

@[simp] theorem members_withSignature (d : Declaration) (s : Signature) :
    (d.withSignature s).members = d.members := by
  cases d <;> rfl

theorem depth_eq (d : Declaration) : d.depth = depthOfAll d.members + 1 := by
  cases d <;> simp [depth, members, members?, depthOfAll]

theorem depth_le_depthOfAll {d : Declaration} {ds : List Declaration} (h : d ∈ ds) :
    d.depth ≤ depthOfAll ds := by
  induction ds with
  | nil => cases h
  | cons e ds ih =>
    rcases List.mem_cons.1 h with rfl | h
    · exact Nat.le_max_left _ _
    · exact Nat.le_trans (ih h) (Nat.le_max_right _ _)

end Declaration

end DeclStyle
