/-!
# Declaration kinds

Declarations come in three shapes.  A plain declaration (field, method, parameter, ...) has no
members of its own that matter here; a type (class, struct, interface) owns members and carries
modifiers; a namespace owns members and carries none.  The shape is part of the kind.
-/

namespace DeclStyle

/-- The kinds of declaration without a member list. -/
inductive PlainKind where
  | field
  | constructor
  | destructor
  | delegate
  | event
  | eventField
  | property
  | indexer
  | method
  | conversionOperator
  | operator
  | enum
  | incompleteMember
  | accessor
  | localDeclaration
  | localFunction
  | parameter
  deriving DecidableEq, Repr, Inhabited

/-- The kinds of type with a member list. -/
inductive TypeKind where
  | interfaceType
  | structType
  | classType
  deriving DecidableEq, Repr, Inhabited

/-- The kind of a declaration. -/
inductive DeclarationKind where
  | plain (kind : PlainKind)
  | type (kind : TypeKind)
  | space
  deriving DecidableEq, Repr, Inhabited

namespace DeclarationKind

/-- Every declaration kind, in the order in which the exchange format numbers them. -/
def all : List DeclarationKind :=
  [.plain .field, .plain .constructor, .plain .destructor, .plain .delegate, .plain .event,
    .plain .eventField, .plain .property, .plain .indexer, .plain .method,
    .plain .conversionOperator, .plain .operator, .plain .enum, .type .interfaceType,
    .type .structType, .type .classType, .space, .plain .incompleteMember, .plain .accessor,
    .plain .localDeclaration, .plain .localFunction, .plain .parameter]

/-- The words for a kind in messages. -/
def display : DeclarationKind → String
  | .plain .field => "field"
  | .plain .constructor => "constructor"
  | .plain .destructor => "destructor"
  | .plain .delegate => "delegate"
  | .plain .event => "event"
  | .plain .eventField => "event field"
  | .plain .property => "property"
  | .plain .indexer => "indexer"
  | .plain .method => "method"
  | .plain .conversionOperator => "conversion operator"
  | .plain .operator => "operator"
  | .plain .enum => "enum"
  | .type .interfaceType => "interface"
  | .type .structType => "struct"
  | .type .classType => "class"
  | .space => "namespace"
  | .plain .incompleteMember => "incomplete member"
  | .plain .accessor => "accessor"
  | .plain .localDeclaration => "local declaration"
  | .plain .localFunction => "local function"
  | .plain .parameter => "parameter"

/-- The name of a kind in the exchange format: its words, joined by underscores. -/
def identifier : DeclarationKind → String
  | .plain .eventField => "event_field"
  | .plain .conversionOperator => "conversion_operator"
  | .plain .incompleteMember => "incomplete_member"
  | .plain .localDeclaration => "local_declaration"
  | .plain .localFunction => "local_function"
  | kind => kind.display

/-- The kind of a given name in the exchange format. -/
def ofIdentifier? (s : String) : Option DeclarationKind :=
  all.find? (·.identifier == s)

/-- The kind of a given number in the exchange format. -/
def ofNumber? (n : Nat) : Option DeclarationKind := all[n]?

/-- Whether declarations of this kind have a name to sort by.  Destructors, indexers, operators
and incomplete members have none. -/
def isNamed : DeclarationKind → Bool
  | .plain .destructor | .plain .indexer | .plain .conversionOperator | .plain .operator
  | .plain .incompleteMember => false
  | _ => true

/-- Whether a declaration of this kind may stand in a member list. -/
def isMember : DeclarationKind → Bool
  | .plain .accessor | .plain .localDeclaration | .plain .localFunction
  | .plain .parameter => false
  | _ => true

/-- Whether declarations of this kind carry modifiers. -/
def carriesModifiers : DeclarationKind → Bool
  | .space => false
  | _ => true

/-- Whether the kind is a type with a member list. -/
def isType : DeclarationKind → Bool
  | .type _ => true
  | _ => false

/-- Whether the kind is a class or a struct, whose members are private unless they say
otherwise. -/
def isClassOrStruct : DeclarationKind → Bool
  | .type .classType | .type .structType => true
  | _ => false

theorem ofIdentifier?_identifier (k : DeclarationKind) :
    ofIdentifier? k.identifier = some k := by
  rcases k with k | k | _ <;> (try cases k) <;> decide

end DeclarationKind

end DeclStyle
