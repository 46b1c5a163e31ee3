/-!
# Modifier keywords

The keywords that may stand in front of a declaration, each with three spellings: the keyword of
the source text, its name in the exchange format, and the label used in messages.  Four of them
declare accessibility.
-/

namespace DeclStyle

/-- A keyword that may stand in a modifier list. -/
inductive ModifierKind where
  | newKw
  | publicKw
  | protectedKw
  | internalKw
  | privateKw
  | constKw
  | staticKw
  | virtualKw
  | sealedKw
  | overrideKw
  | abstractKw
  | readonlyKw
  | externKw
  | unsafeKw
  | volatileKw
  | asyncKw
  | partialKw
  | refKw
  | outKw
  | inKw
  | paramsKw
  | thisKw
  | fixedKw
  | requiredKw
  deriving DecidableEq, Repr, Inhabited

namespace ModifierKind

/-- Every modifier keyword. -/
def all : List ModifierKind :=
  [newKw, publicKw, protectedKw, internalKw, privateKw, constKw, staticKw, virtualKw, sealedKw,
    overrideKw, abstractKw, readonlyKw, externKw, unsafeKw, volatileKw, asyncKw, partialKw,
    refKw, outKw, inKw, paramsKw, thisKw, fixedKw, requiredKw]

/-- The keyword as it stands in source text. -/
def keyword : ModifierKind → String
  | newKw => "new"
  | publicKw => "public"
  | protectedKw => "protected"
  | internalKw => "internal"
  | privateKw => "private"
  | constKw => "const"
  | staticKw => "static"
  | virtualKw => "virtual"
  | sealedKw => "sealed"
  | overrideKw => "override"
  | abstractKw => "abstract"
  | readonlyKw => "readonly"
  | externKw => "extern"
  | unsafeKw => "unsafe"
  | volatileKw => "volatile"
  | asyncKw => "async"
  | partialKw => "partial"
  | refKw => "ref"
  | outKw => "out"
  | inKw => "in"
  | paramsKw => "params"
  | thisKw => "this"
  | fixedKw => "fixed"
  | requiredKw => "required"

/-- The name in the exchange format: the keyword, with its two words parted in one case. -/
def identifier : ModifierKind → String
  | readonlyKw => "read_only"
  | kind => kind.keyword

/-- The label used in messages. -/
def label : ModifierKind → String
  | newKw => "New"
  | publicKw => "Public"
  | protectedKw => "Protected"
  | internalKw => "Internal"
  | privateKw => "Private"
  | constKw => "Const"
  | staticKw => "Static"
  | virtualKw => "Virtual"
  | sealedKw => "Sealed"
  | overrideKw => "Override"
  | abstractKw => "Abstract"
  | readonlyKw => "ReadOnly"
  | externKw => "Extern"
  | unsafeKw => "Unsafe"
  | volatileKw => "Volatile"
  | asyncKw => "Async"
  | partialKw => "Partial"
  | refKw => "Ref"
  | outKw => "Out"
  | inKw => "In"
  | paramsKw => "Params"
  | thisKw => "This"
  | fixedKw => "Fixed"
  | requiredKw => "Required"

/-- The modifier spelt by a keyword of source text. -/
def ofKeyword? (text : String) : Option ModifierKind :=
  all.find? (·.keyword == text)

/-- The modifier of a given name in the exchange format. -/
def ofIdentifier? (s : String) : Option ModifierKind :=
  all.find? (·.identifier == s)

/-- Whether the keyword declares accessibility. -/
def isAccessibility : ModifierKind → Bool
  | publicKw | protectedKw | internalKw | privateKw => true
  | _ => false

theorem ofIdentifier?_identifier (k : ModifierKind) : ofIdentifier? k.identifier = some k := by
  cases k <;> decide

end ModifierKind

end DeclStyle
