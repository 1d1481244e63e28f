import IdlReader.Entity.Basic
import IdlReader.Fault

/-!
# The tree of entities

All entities of a run stand in one array in the order in which they were read, the root
first. An entity with members has a scope, in which names of definitions and typedefs on the
one hand and names of other declarations on the other hand stand for entities. Definitions
that go on with each other share a scope.

Names are found in a scope and in those of inherited definitions (`Tree.lookupKey`), along the
enclosing entities (`Tree.find`), and through typedefs and forward declarations
(`Tree.resolved`). `Tree.setName` enters a name.

* `size_modify`: a change of an entity adds none.
-/

namespace IdlReader

/-- The names of a scope. -/
structure Scope where
  definitions : List (String × EntityId) := []
  declarations : List (String × EntityId) := []
deriving Repr, Inhabited

namespace Scope

/-- The entity of a name; of a definition and a declaration of one name the one that is
preferred. -/
def lookup? (s : Scope) (definitionsFirst : Bool) (key : String) : Option EntityId :=
  if definitionsFirst then (s.definitions.lookup key).or (s.declarations.lookup key)
  else (s.declarations.lookup key).or (s.definitions.lookup key)

/-- The entity of a name among the declarations or among the definitions. -/
def get? (s : Scope) (declaration : Bool) (key : String) : Option EntityId :=
  if declaration then s.declarations.lookup key else s.definitions.lookup key

/-- Enters a name; an earlier entity of the name is no longer found. -/
def insert (s : Scope) (declaration : Bool) (key : String) (id : EntityId) : Scope :=
  if declaration then { s with declarations := (key, id) :: s.declarations }
  else { s with definitions := (key, id) :: s.definitions }

end Scope

/-- The entities of a run. -/
structure Tree where
  entities : Array Entity
  scopes : Array Scope
  caseSensitive : Bool
deriving Inhabited

namespace Tree

/-- The number of the root. -/
def root : EntityId := 0

/-- The tree of which only the root was read. -/
def initial (caseSensitive : Bool) : Tree :=
  ⟨#[{ kind := .root, scope := some 0, data := .root [] }], #[{}], caseSensitive⟩

/-- The number of entities. -/
def size (t : Tree) : Nat := t.entities.size

/-- An entity; where there is none, a default. -/
def get (t : Tree) (id : EntityId) : Entity := t.entities[id]?.getD default

/-- Changes an entity. -/
def modify (t : Tree) (id : EntityId) (f : Entity → Entity) : Tree :=
  { t with entities := t.entities.modify id f }

/-- The recorded directives in the order of the sources. -/
def records (t : Tree) : List EntityId :=
  match (t.get root).data with
  | .root records => records
  | _ => []

/-- Whether nothing was read. -/
def isEmpty (t : Tree) : Bool := (t.get root).children.isEmpty && t.records.isEmpty

/-- The names of a scope. -/
def scope (t : Tree) (id : ScopeId) : Scope := t.scopes[id]?.getD {}

/-- The parameters of an operation. -/
def parameters (t : Tree) (id : EntityId) : List EntityId :=
  ((t.get id).declaration?.map Declaration.parameters).getD []

@[simp] theorem size_modify (t : Tree) (id : EntityId) (f : Entity → Entity) :
    (t.modify id f).size = t.size := by
  simp [modify, size]

/-! ## Growth -/

/-- Adds an entity without a name below another one. It becomes a child when it gets its
name. -/
def add (t : Tree) (parent : EntityId) (kind : EntityKind) (source : SourceId) (span : Span)
    (data : EntityData) : Except Cause (EntityId × Tree) :=
  let p := t.get parent
  if !p.kind.supportsChildren then
    .error (.childrenUnsupported p.kind.keyword p.name)
  else
    let scope := if kind.supportsChildren then some t.scopes.size else none
    let scopes := if kind.supportsChildren then t.scopes.push {} else t.scopes
    let entity : Entity := { kind, parent := some parent, scope, source, span, data }
    .ok (t.size, { t with entities := t.entities.push entity, scopes })

/-- The name of the entities that record a kind of directives. -/
def recordName : RecordKind → String
  | .includeLocal | .includeGlobal => "include"
  | .define => "define"
  | .undef => "undef"
  | .verbatim | .verbatimBlock => "verbatim"

/-- Adds a recorded directive. -/
def addRecord (t : Tree) (r : Record) : EntityId × Tree :=
  let entity : Entity :=
    { kind := .directive, name := recordName r.kind, parent := some root, source := r.source,
      span := r.span, data := .record r.kind r.content }
  let id := t.size
  let t := { t with entities := t.entities.push entity }
  (id, t.modify root fun e =>
    match e.data with
    | .root records => { e with data := .root (records ++ [id]) }
    | _ => e)

/-! ## Names -/

/-- The lower case of a letter of ASCII. The sign of the unit kelvin is the one other
character whose lower case is in ASCII. -/
def lowerCase (c : Char) : Char := if c.toNat = 0x212A then 'k' else c.toLower

/-- What names have in common that are the same for this tree. -/
def key (t : Tree) (name : String) : String :=
  if t.caseSensitive then name else String.ofList (name.toList.map lowerCase)

/-- Finds a name in the scope of an entity or in the scopes of its bases. -/
def lookupWithin (t : Tree) (definitionsFirst : Bool) (key : String) :
    (budget : Nat) → EntityId → Option EntityId
  | 0, _ => none
  | n + 1, owner =>
    match (t.get owner).scope with
    | none => none
    | some scope =>
      match (t.scope scope).lookup? definitionsFirst key with
      | some id => some id
      | none =>
        match (t.get owner).definition? with
        | none => none
        | some d => d.bases.findSome? (t.lookupWithin definitionsFirst key n)

/-- Finds a name in the scope of an entity or in the scopes of its bases. No chain of
bases is longer than the tree. -/
def lookupKey (t : Tree) (definitionsFirst : Bool) (key : String) (owner : EntityId) :
    Option EntityId :=
  t.lookupWithin definitionsFirst key (t.size + 1) owner

/-- Finds a member of an entity. -/
def lookupMember (t : Tree) (owner : EntityId) (name : String) : Option EntityId :=
  t.lookupKey false (t.key name) owner

/-- Finds a name that an entity inherits. -/
def lookupInBases (t : Tree) (owner : EntityId) (key : String) : Option EntityId :=
  match (t.get owner).definition? with
  | none => none
  | some d => d.bases.findSome? (t.lookupKey false key)

/-- Enters a name into the scope of an entity. -/
def insertName (t : Tree) (scope : ScopeId) (declaration : Bool) (key : String)
    (id : EntityId) : Tree :=
  { t with scopes := t.scopes.modify scope (·.insert declaration key id) }

/-- Makes an entity a child of another one. -/
def addChild (t : Tree) (parent id : EntityId) : Tree :=
  t.modify parent fun e => { e with children := e.children ++ [id] }

/-- What becomes of an entity that takes a name. -/
inductive NameOutcome where
  /-- The name is free. -/
  | fresh
  /-- The entity declares once more what `existing` stands for. -/
  | repeated (existing : EntityId)
  /-- The entity goes on with a definition and shares its scope. -/
  | reopened (scope : Option ScopeId)
  /-- The entity defines what was only declared. -/
  | completed
deriving DecidableEq, Repr

/-- What a name of an entity of a kind meets in a scope. -/
def nameOutcome (t : Tree) (kind : EntityKind) (forward : Bool) :
    Option EntityId → Except Cause NameOutcome
  | none => .ok .fresh
  | some id =>
    let existing := t.get id
    if existing.kind ≠ kind then .error (.nameTakenBy existing.kind.keyword)
    else if forward then .ok (.repeated id)
    else if existing.kind.isExtendable then .ok (.reopened existing.scope)
    else if existing.forward then .ok .completed
    else .error .nameTaken

/-- Whether the names of a kind stand among those of declarations. -/
def isDeclarationName (kind : EntityKind) : Bool := kind != .typedef && kind.isDeclaration

/-- Where an entity gets its name: its parent and the scope of that. A name that is inherited there
is refused. -/
def namePlace (t : Tree) (id : EntityId) (name : String) : Except Cause (EntityId × ScopeId) :=
  match (t.get id).parent, (t.get id).parent.bind fun p => (t.get p).scope with
  | some parent, some scope =>
    if (t.lookupInBases parent (t.key name)).isSome then .error (.nameInherited name)
    else .ok (parent, scope)
  | _, _ => .error .scopeMissing

/-- Writes the name of an entity down. -/
def rename (t : Tree) (id : EntityId) (name : String) : Tree :=
  t.modify id fun e => { e with name }

/-- Enters an entity under its name, which is written down, into the scope of its parent. The result
is the entity that the name stands for: a forward declaration of a known name is that of the known
entity. Otherwise the entity becomes a child of its parent if `listed`. -/
def enterName (t : Tree) (place : EntityId × ScopeId) (id : EntityId) (name : String)
    (forward listed : Bool) : Except Cause (EntityId × Tree) := do
  let (parent, scope) := place
  let key := t.key name
  let declaration := isDeclarationName (t.get id).kind
  let outcome ← t.nameOutcome (t.get id).kind forward ((t.scope scope).get? declaration key)
  let list (t : Tree) : EntityId × Tree := (id, if listed then t.addChild parent id else t)
  match outcome with
  | .repeated existing =>
    return (existing, t.modify id fun e => { e with forward := true })
  | .fresh =>
    let t := t.insertName scope declaration key id
    return list (t.modify id fun e => { e with forward })
  | .reopened scope => return list (t.modify id fun e => { e with scope })
  | .completed => return list (t.insertName scope declaration key id)

/-- Gives an entity its name. -/
def setName (t : Tree) (id : EntityId) (name : String) (forward listed : Bool) :
    Except Cause (EntityId × Tree) := do
  let place ← t.namePlace id name
  (t.rename id name).enterName place id name forward listed

/-- An entity and those that enclose it, the innermost first. -/
def enclosingWithin (t : Tree) : (budget : Nat) → EntityId → List EntityId
  | 0, _ => []
  | n + 1, id =>
    id :: match (t.get id).parent with
      | none => []
      | some p => t.enclosingWithin n p

/-- An entity and those that enclose it, the innermost first. -/
def enclosing (t : Tree) (id : EntityId) : List EntityId := t.enclosingWithin (t.size + 1) id

/-- The name of an entity behind the names of those that enclose it. -/
def scopedName (t : Tree) (id : EntityId) : String :=
  let ids := (t.enclosing id).takeWhile fun i => (t.get i).kind ≠ .root
  "::".intercalate ((ids.map fun i => (t.get i).name).reverse)

/-! ## Resolution -/

/-- Follows typedefs and forward declarations. -/
def resolvedWithin (t : Tree) : (budget : Nat) → EntityId → EntityId
  | 0, id => id
  | n + 1, id =>
    let e := t.get id
    if e.kind = .typedef then
      match e.declaration?.bind fun d => d.type.definition with
      | some next => if next = id then id else t.resolvedWithin n next
      | none => id
    else if e.forward then
      match e.parent.bind (t.lookupKey true (t.key e.name)) with
      | some full =>
        if full = id || (t.get full).forward then id else t.resolvedWithin n full
      | none => id
    else id

/-- The definition that an entity stands for through typedefs and forward
declarations. -/
def resolved (t : Tree) (id : EntityId) : EntityId := t.resolvedWithin t.size id

/-- The mark behind a segment of a name: `::` or `.`. -/
inductive Mark where
  | scope
  | member
deriving DecidableEq, Repr

/-- The first segment of a name, and the mark and the rest behind it. -/
def splitSegment : List Char → List Char × Option (Mark × List Char)
  | [] => ([], none)
  | ':' :: ':' :: s => ([], some (.scope, s))
  | '.' :: s => ([], some (.member, s))
  | c :: s =>
    let r := splitSegment s
    (c :: r.1, r.2)

/-- Finds a path of members from the type of a declaration on. -/
def findMemberWithin (t : Tree) : (budget : Nat) → EntityId → List Char → Option EntityId
  | 0, _, _ => none
  | n + 1, id, path => do
    let d ← (t.get id).declaration?
    let definition ← d.type.definition
    let s := splitSegment path
    let found ← t.lookupMember (t.resolved definition) (String.ofList s.1)
    match s.2 with
    | none => some found
    | some (_, tail) => t.findMemberWithin n found tail

/-- Finds what a name stands for. It is looked up at `start` and, if `upwards`, at the
entities that enclose it; one that starts with `::` is looked up at the root. -/
def findWithin (t : Tree) (definitionsFirst : Bool) :
    (budget : Nat) → (start : EntityId) → List Char → (upwards : Bool) → Option EntityId
  | 0, _, _, _ => none
  | n + 1, start, name, upwards =>
    let absolute := [':', ':'].isPrefixOf name
    let owners :=
      if absolute then [root] else if upwards then t.enclosing start else [start]
    let name := if absolute then name.drop 2 else name
    if name.isEmpty then none
    else
      let s := splitSegment name
      owners.findSome? fun owner =>
        match t.lookupKey definitionsFirst (t.key (String.ofList s.1)) owner with
        | none => none
        | some found =>
          match s.2 with
          | none => some found
          | some (.scope, tail) =>
            t.findWithin definitionsFirst n (t.resolved found) tail false
          | some (.member, tail) => t.findMemberWithin (tail.length + 1) found tail

/-- Finds the entity that a name such as `A::B`, `::A::B` or `a.member` stands for. -/
def find (t : Tree) (start : EntityId) (name : String) (upwards : Bool) : Option EntityId :=
  t.findWithin false (name.toList.length + 1) start name.toList upwards

/-- Finds the entity that the name of a type stands for; definitions come before
declarations of the same name. -/
def findType (t : Tree) (start : EntityId) (name : String) : Option EntityId :=
  t.findWithin true (name.toList.length + 1) start name.toList true

/-- Finds the part of a value that a path such as `A::B.member[2]` leads to. -/
def findValue (t : Tree) (start : EntityId) (path : String) : Option ValueNode := do
  let (name, accessors) ← Accessor.readPath? path.toList
  let id ← t.find start (String.ofList name) true
  let d ← (t.get id).declaration?
  d.value.navigate? t.caseSensitive accessors

/-- The constant that a path leads to, or what stands in for it. -/
def findConstant (t : Tree) (start : EntityId) (path : String) : Constant :=
  ((t.findValue start path).bind ValueNode.constant?).getD Constant.absent

end Tree

end IdlReader
