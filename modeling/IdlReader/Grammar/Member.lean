import IdlReader.Entity.Kind
import IdlReader.Token

/-!
# Members

What may stand in the content of an entity depends on its kind.
-/

namespace IdlReader

/-- The sorts of members. -/
inductive Member where
  | definition (kind : EntityKind)
  | const
  | typedef
  | attr
  | operation
  | field
  | case
deriving DecidableEq, Repr

namespace EntityKind

/-- Whether an entity of a kind may have members of a sort. -/
def admits : EntityKind → Member → Bool
  | root, .definition _ | root, .const | root, .typedef => true
  | module, .definition _ | module, .const | module, .typedef => true
  | struct, .const | struct, .typedef | struct, .field => true
  | struct, .definition k => k == struct || k == union || k == enum
  | exception, .const | exception, .typedef | exception, .field => true
  | exception, .definition k => k == struct || k == union || k == enum
  | union, .case => true
  | interface, .const | interface, .typedef | interface, .attr | interface, .operation => true
  | interface, .definition k => k == struct || k == union || k == enum || k == exception
  | _, _ => false

/-- The kind of definitions that a keyword opens. -/
def ofKeyword? (t : Token) : Option EntityKind :=
  if !t.isKeyword then none
  else if t.text = "module" then some module
  else if t.text = "struct" then some struct
  else if t.text = "union" then some union
  else if t.text = "enum" then some enum
  else if t.text = "exception" then some exception
  else if t.text = "interface" then some interface
  else none

/-- The stem of the names that are generated for definitions without a name. -/
def stem : EntityKind → String
  | enum => "enum"
  | struct => "struct"
  | union => "union"
  | module => "namespace"
  | interface => "interface"
  | exception => "except"
  | _ => "anonymous"

/-- Whether a definition of a kind may lack a name. -/
def mayBeUnnamed (k : EntityKind) : Bool := k == struct || k == union || k == enum

end EntityKind

end IdlReader
