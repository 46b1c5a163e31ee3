import DeclStyle.Token

/-!
# Accessibility

From where a declaration can be seen.  An accessibility is spelt by one or two modifier keywords;
a modifier list declares the one that its accessibility keywords, in whatever order, spell.
-/

namespace DeclStyle

/-- The accessibilities a declaration may have. -/
inductive Accessibility where
  | privateAccess
  | protectedAccess
  | protectedAndInternal
  | internalAccess
  | publicAccess
  | protectedOrInternal
  deriving DecidableEq, Repr, Inhabited

namespace Accessibility

/-- Every accessibility. -/
def all : List Accessibility :=
  [privateAccess, protectedAccess, protectedAndInternal, internalAccess, publicAccess,
    protectedOrInternal]

/-- The name of an accessibility in the exchange format and in configuration files. -/
def identifier : Accessibility → String
  | privateAccess => "private"
  | protectedAccess => "protected"
  | protectedAndInternal => "protected_and_internal"
  | internalAccess => "internal"
  | publicAccess => "public"
  | protectedOrInternal => "protected_or_internal"

/-- The accessibility of a given name. -/
def ofIdentifier? (s : String) : Option Accessibility := all.find? (·.identifier == s)

/-- The keywords that spell an accessibility, in canonical order. -/
def keywords : Accessibility → List ModifierKind
  | privateAccess => [.privateKw]
  | protectedAccess => [.protectedKw]
  | protectedAndInternal => [.privateKw, .protectedKw]
  | internalAccess => [.internalKw]
  | publicAccess => [.publicKw]
  | protectedOrInternal => [.protectedKw, .internalKw]

/-- An accessibility in words. -/
def display (a : Accessibility) : String :=
  " ".intercalate (a.keywords.map ModifierKind.keyword)

/-- The accessibility that a modifier list declares. -/
def ofModifiers? (modifiers : List Token) : Option Accessibility :=
  let has kind := modifiers.any (·.isModifier kind)
  if has .publicKw then some publicAccess
  else if has .privateKw then
    some (if has .protectedKw then protectedAndInternal else privateAccess)
  else if has .protectedKw then
    some (if has .internalKw then protectedOrInternal else protectedAccess)
  else if has .internalKw then some internalAccess
  else none

theorem keywords_ne_nil (a : Accessibility) : a.keywords ≠ [] := by
  cases a <;> decide

theorem isAccessibility_of_mem_keywords {a : Accessibility} {k : ModifierKind}
    (h : k ∈ a.keywords) : k.isAccessibility := by
  revert h
  cases a <;> cases k <;> decide

end Accessibility

end DeclStyle
