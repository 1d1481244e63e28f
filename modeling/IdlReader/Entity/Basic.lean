import IdlReader.Comment
import IdlReader.Entity.DeclaredType
import IdlReader.Entity.Kind
import IdlReader.Entity.Value
import IdlReader.Source.Delivery

/-!
# Entities

What is read is kept as entities: the root, definitions with members, declarations with a
type, and recorded directives. Entities refer to each other by their numbers.
-/

namespace IdlReader

/-- The number of a scope. -/
abbrev ScopeId := Nat

/-- What only definitions have. -/
structure Definition where
  bases : List EntityId := []
  /-- The type of the discriminator of a union. -/
  switchType : Option DeclaredType := none
  /-- Whether an interface is local. -/
  isLocal : Bool := false
deriving Repr, Inhabited

/-- How far the evaluation of a declaration is. -/
inductive Progress where
  | pending
  | processing
  | done
deriving DecidableEq, Repr, Inhabited

/-- The directions of parameters. -/
inductive Direction where
  | inward
  | outward
  | both
deriving DecidableEq, Repr

/-- The name of a direction. -/
def Direction.name : Direction → String
  | inward => "In"
  | outward => "Out"
  | both => "InOut"

/-- What only declarations have. -/
structure Declaration where
  type : DeclaredType
  /-- The expressions of the array dimensions. -/
  dimensions : List (List Token) := []
  /-- The evaluated dimensions; open ones and those known at run time only have no size. -/
  sizes : List (Option Nat) := []
  assignment : List Token := []
  value : ValueNode := .unassigned
  readonly : Bool := false
  direction : Option Direction := none
  constOperation : Bool := false
  /-- The parameters of an operation, which are no children of it. -/
  parameters : List EntityId := []
  raises : List EntityId := []
  getRaises : List EntityId := []
  setRaises : List EntityId := []
  labels : List (List Token) := []
  caseValues : List Constant := []
  defaultCase : Bool := false
  progress : Progress := .pending
deriving Inhabited

/-- Whether a declaration declares an array. -/
def Declaration.isArray (d : Declaration) : Bool := !d.dimensions.isEmpty

/-- The assignment as it is written. -/
def Declaration.assignmentText (d : Declaration) : String := joinTexts d.assignment

/-- What the entities of a kind have besides what all have. -/
inductive EntityData where
  /-- The root, with the recorded directives. -/
  | root (records : List EntityId)
  | definition (d : Definition)
  | declaration (d : Declaration)
  | record (kind : RecordKind) (content : String)
deriving Inhabited

/-- An entity. -/
structure Entity where
  kind : EntityKind
  name : String := ""
  parent : Option EntityId := none
  children : List EntityId := []
  scope : Option ScopeId := none
  /-- Whether the entity was introduced by its name only. -/
  forward : Bool := false
  /-- Whether the name was generated. -/
  anonymous : Bool := false
  source : SourceId := 0
  span : Span := ⟨⟨0, 0⟩, ⟨0, 0⟩⟩
  comments : String := ""
  commentFlags : Comment.Flags := {}
  data : EntityData
deriving Inhabited

namespace Entity

/-- The data of a definition. -/
def definition? (e : Entity) : Option Definition :=
  match e.data with
  | .definition d => some d
  | _ => none

/-- The data of a declaration. -/
def declaration? (e : Entity) : Option Declaration :=
  match e.data with
  | .declaration d => some d
  | _ => none

/-- Changes the data of a definition. -/
def mapDefinition (f : Definition → Definition) (e : Entity) : Entity :=
  match e.data with
  | .definition d => { e with data := .definition (f d) }
  | _ => e

/-- Changes the data of a declaration. -/
def mapDeclaration (f : Declaration → Declaration) (e : Entity) : Entity :=
  match e.data with
  | .declaration d => { e with data := .declaration (f d) }
  | _ => e

@[simp] theorem kind_mapDeclaration (f : Declaration → Declaration) (e : Entity) :
    (e.mapDeclaration f).kind = e.kind := by
  unfold mapDeclaration
  split <;> rfl

@[simp] theorem kind_mapDefinition (f : Definition → Definition) (e : Entity) :
    (e.mapDefinition f).kind = e.kind := by
  unfold mapDefinition
  split <;> rfl

end Entity

end IdlReader
