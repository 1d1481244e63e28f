/-!
# Kinds of entities

An entity is the root, a definition (which has members), a declaration (which has a type)
or the record of a directive.

* `not_isDeclaration_of_isDefinition`: no kind is both.
-/

namespace IdlReader

/-- The kinds of entities. -/
inductive EntityKind where
  | root
  | module
  | struct
  | union
  | enum
  | exception
  | interface
  | typedef
  | const
  | field
  | attr
  | operation
  | parameter
  | enumEntry
  | caseEntry
  | directive
deriving DecidableEq, Repr, Inhabited

namespace EntityKind

/-- All kinds in their listed order. -/
def all : List EntityKind :=
  [root, module, struct, union, enum, exception, interface, typedef, const, field,
    attr, operation, parameter, enumEntry, caseEntry, directive]

def isDefinition : EntityKind → Bool
  | module | struct | union | enum | exception | interface => true
  | _ => false

def isDeclaration : EntityKind → Bool
  | typedef | const | field | attr | operation | parameter | enumEntry | caseEntry =>
    true
  | _ => false

/-- Whether a second definition of one name goes on with the first one. -/
def isExtendable (k : EntityKind) : Bool := k == module

/-- Whether entities of a kind have a scope for names. -/
def supportsChildren (k : EntityKind) : Bool := k == root || k == operation || k.isDefinition

def supportsInheritance : EntityKind → Bool
  | interface | struct | exception => true
  | _ => false

def supportsAssignment : EntityKind → Bool
  | const | field | enumEntry => true
  | _ => false

/-- Whether a kind has array dimensions. -/
def supportsArrays : EntityKind → Bool
  | field | const | typedef | parameter | caseEntry => true
  | _ => false

/-- Whether one statement may declare several entities of a kind. -/
def supportsMultiple : EntityKind → Bool
  | field | const | attr => true
  | _ => false

/-- The name of a kind as it is written. -/
def keyword : EntityKind → String
  | root => "root"
  | module => "module"
  | struct => "struct"
  | union => "union"
  | enum => "enum"
  | exception => "exception"
  | interface => "interface"
  | typedef => "typedef"
  | const => "const"
  | field => "variable"
  | attr => "attribute"
  | operation => "operation"
  | parameter => "parameter"
  | enumEntry => "enum entry"
  | caseEntry => "case entry"
  | directive => "meta"

/-- The name of a kind behind an article. -/
def withArticle (k : EntityKind) : String :=
  (if k = enum ∨ k = interface then "an " else "a ") ++ k.keyword

theorem not_isDeclaration_of_isDefinition {k : EntityKind} (h : k.isDefinition = true) :
    k.isDeclaration = false := by
  cases k <;> first | rfl | cases h

end EntityKind

end IdlReader
