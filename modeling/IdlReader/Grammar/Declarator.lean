import IdlReader.Grammar.DeclaredType

/-!
# Declarators

A declarator is what stands behind the type of a declaration: the name, array dimensions or
parameters, lists of exceptions and an assignment. Dimensions and assignments are kept as
tokens.

`Parsing.readDeclarator` reads one and adds its entity to the tree.
-/

namespace IdlReader

namespace Parsing

/-- Takes the name of a declaration. Keywords are names if names depend on their context. -/
def declarationName : Parsing Token := do
  let t ← next
  let s ← get
  if t.isKeyword then
    if s.env.enables .contextDependentNames then return t else failAtToken .reservedName t
  else if t.isIdentifier then return t
  else failAtToken .identifierExpected t

/-! ## Dimensions and assignments -/

/-- Reads the tokens up to the bracket that closes a dimension. `depth` is the number of
brackets that were opened inside of it. -/
def dimensionTokens : (budget depth : Nat) → Parsing (List Token)
  | 0, _ => fail .inputExhausted
  | n + 1, depth => do
    let t ← next
    if t.isFinish then failAtToken .dimensionAtEnd t
    else if t.is ";" then failAtToken .dimensionUnclosed t
    else if t.is "]" && depth == 0 then return []
    else do
      let depth := if t.is "[" then depth + 1 else if t.is "]" then depth - 1 else depth
      let ts ← dimensionTokens n depth
      return t :: ts

/-- Reads the array dimensions of a declaration of a kind. `further` says whether dimensions
were read before. -/
def dimensionsWithin (kind : EntityKind) : (budget : Nat) → (further : Bool) →
    Parsing (List (List Token))
  | 0, _ => fail .inputExhausted
  | n + 1, further => do
    let t ← peek 0
    if !t.is "[" then return []
    else do
      let opening ← next
      let s ← get
      if !kind.supportsArrays then failAtToken .bracketUnexpected opening
      else if further && !s.env.enables .multiDimArray then
        failAtToken .dimensionsUnsupported opening
      else do
        let budget ← tokensLeft
        let d ← dimensionTokens budget 0
        let ds ← dimensionsWithin kind n true
        return d :: ds

/-- Reads the array dimensions of a declaration of a kind. -/
def readDimensions (kind : EntityKind) : Parsing (List (List Token)) := do
  let budget ← tokensLeft
  dimensionsWithin kind budget false

/-- Reads the tokens of an assignment, and the token behind it: a semicolon, or a comma or
closing brace outside of the `depth` braces that are open. -/
def assignmentWithin : (budget depth : Nat) → Parsing (List Token × Token)
  | 0, _ => fail .inputExhausted
  | n + 1, depth => do
    let t ← next
    if t.isFinish then failAtToken .assignmentUnterminated t
    else if t.is ";" || (t.isOneOf [",", "\x7d"] && depth == 0) then return ([], t)
    else do
      let depth := if t.is "\x7b" then depth + 1 else if t.is "\x7d" then depth - 1 else depth
      let (ts, terminator) ← assignmentWithin n depth
      return (t :: ts, terminator)

/-- Reads the tokens of an assignment, and the token behind it. -/
def readAssignment : Parsing (List Token × Token) := do
  let budget ← tokensLeft
  assignmentWithin budget 0

/-! ## Parameters -/

/-- The direction that a token writes. -/
def direction? (t : Token) : Option Direction :=
  if !t.isKeyword then none
  else if t.text = "in" then some .inward
  else if t.text = "out" then some .outward
  else if t.text = "inout" then some .both
  else none

/-- Reads a parameter of an operation. -/
def readParameter (operation : EntityId) : Parsing EntityId := do
  let t ← next
  match direction? t with
  | none => failAtToken .directionExpected t
  | some direction => do
    let type ← readType operation
    let name ← declarationName
    if type.base = .void then failAtToken .voidUnsupported name
    let id ← addEntity operation .parameter name.source (Span.point t.position)
      (.declaration { type, direction := some direction })
    let id ← nameEntity id name.text false false
    let dimensions ← readDimensions .parameter
    modifyDeclaration id fun d => { d with dimensions }
    return id

/-- Reads one parameter and those that follow it. -/
def parametersWithin (operation : EntityId) : (budget : Nat) → Parsing (List EntityId)
  | 0 => fail .inputExhausted
  | n + 1 => do
    let id ← readParameter operation
    let t ← next
    if t.is ")" then return [id]
    else if t.is "," then do
      let ids ← parametersWithin operation n
      return id :: ids
    else failAtToken .parenthesisCloseExpected t

/-- Reads the parameters of an operation, whose opening parenthesis was taken. -/
def readParameters (operation : EntityId) : Parsing (List EntityId) := do
  if ← takeIf ")" then return []
  else
    let budget ← tokensLeft
    parametersWithin operation budget

/-! ## Exceptions -/

/-- Reads one exception and those that follow it. -/
def exceptionsWithin (owner : EntityId) : (budget : Nat) → Parsing (List EntityId)
  | 0 => fail .inputExhausted
  | n + 1 => do
    let first ← next
    let (name, last) ← readScopedName first
    let t ← tree
    match t.findType owner name with
    | none => failAtToken (.undefinedName name) last
    | some found => do
      let id := t.resolved found
      if (t.get id).kind ≠ .exception then failAtToken (.notAnException name) last
      let u ← next
      if u.is ")" then return [id]
      else if u.is "," then do
        let ids ← exceptionsWithin owner n
        return id :: ids
      else failAtToken .parenthesisCloseExpected u

/-- Reads the list of exceptions behind its keyword. -/
def readExceptions (owner : EntityId) : Parsing (List EntityId) := do
  let t ← next
  if !t.is "(" then failAtToken .parenthesisOpenExpected t
  let u ← peek 0
  if u.is ")" then failAtToken .raisesEmpty t
  let budget ← tokensLeft
  exceptionsWithin owner budget

/-- The exceptions of an operation or attribute. -/
structure Raises where
  raises : List EntityId := []
  getRaises : List EntityId := []
  setRaises : List EntityId := []

/-- The lists of exceptions. -/
inductive RaisesList where
  | raises
  | getRaises
  | setRaises
deriving DecidableEq, Repr

namespace RaisesList

/-- One of the lists. -/
def get (l : RaisesList) (r : Raises) : List EntityId :=
  match l with
  | raises => r.raises
  | getRaises => r.getRaises
  | setRaises => r.setRaises

/-- Sets one of the lists. -/
def set (l : RaisesList) (r : Raises) (ids : List EntityId) : Raises :=
  match l with
  | raises => { r with raises := ids }
  | getRaises => { r with getRaises := ids }
  | setRaises => { r with setRaises := ids }

/-- The list that a token opens, if it opens one. Attributes have a list for reading and one
for writing; a readonly attribute has the first one only. -/
def ofToken? (kind : EntityKind) (readonly : Bool) (t : Token) :
    Except Cause (Option RaisesList) :=
  if t.is "raises" then
    if kind ≠ .attr then .ok (some raises)
    else if readonly then .ok (some getRaises)
    else .error .raisesSeparate
  else if t.isOneOf ["getraises", "setraises"] then
    if kind ≠ .attr then .error (.accessorRaises t.text)
    else if t.is "getraises" then .ok (some getRaises)
    else if readonly then .error .setRaisesReadonly
    else .ok (some setRaises)
  else .ok none

end RaisesList

/-- Reads lists of exceptions as long as a token opens one. Also gives the token behind
them. -/
def raisesWithin (owner : EntityId) (kind : EntityKind) (readonly : Bool) :
    (budget : Nat) → Raises → Token → Parsing (Raises × Token)
  | 0, _, _ => fail .inputExhausted
  | n + 1, r, t =>
    match RaisesList.ofToken? kind readonly t with
    | .error cause => failAtToken cause t
    | .ok none => return (r, t)
    | .ok (some l) => do
      if !(l.get r).isEmpty then failAtToken (.raisesRepeated t.text) t
      let ids ← readExceptions owner
      let u ← next
      raisesWithin owner kind readonly n (l.set r ids) u

/-- Reads the lists of exceptions of a declaration of a kind, the first of which opens at a
token. Also gives the token behind them. -/
def readRaises (owner : EntityId) (kind : EntityKind) (readonly : Bool) (t : Token) :
    Parsing (Raises × Token) :=
  if kind = .operation ∨ kind = .attr then do
    let budget ← tokensLeft
    raisesWithin owner kind readonly (budget + 1) {} t
  else return ({}, t)

/-! ## Declarators -/

/-- What is known about a declaration when its name was read. -/
structure Declarator where
  owner : EntityId
  kind : EntityKind
  type : DeclaredType
  name : Token
  readonly : Bool
  /-- Where the declaration starts. -/
  position : Position

/-- Reads the parameters of an operation. Also says whether `const` follows, and gives the
token behind. -/
def readSignature (operation : EntityId) : Parsing (List EntityId × Bool × Token) := do
  expectMark "(" .parenthesisOpenExpected
  let parameters ← readParameters operation
  let t ← next
  if t.is "const" then do
    let u ← next
    return (parameters, true, u)
  else return (parameters, false, t)

/-- Reads the assignment of a declaration of a kind if `t` opens one. Also gives the token
behind it. -/
def readInitializer (kind : EntityKind) (t : Token) : Parsing (List Token × Token) :=
  if t.is "=" then
    if kind.supportsAssignment then readAssignment else failAtToken .assignmentUnsupported t
  else if kind = .const then failAtToken .assignmentExpected t
  else return ([], t)

/-- Adds the entity of a declaration, and gives it its name and the comments in front of
it. -/
def declare (d : Declarator) (comments : List Token) : Parsing EntityId := do
  if d.type.base = .void ∧ d.kind ≠ .operation then failAtToken .voidUnsupported d.name
  if d.type.base = .interface ∧ d.kind = .const then failAtToken .interfaceUnsupported d.name
  let id ← addEntity d.owner d.kind d.name.source (Span.point d.position)
    (.declaration { type := d.type, readonly := d.readonly })
  let id ← nameEntity id d.name.text false true
  attachBefore id comments
  return id

/-- Reads what follows the name of a declaration. Gives its entity and the token behind it. -/
def readDeclarator (d : Declarator) (comments : List Token) : Parsing (EntityId × Token) := do
  let id ← declare d comments
  let dimensions ← if d.kind = .operation then pure [] else readDimensions d.kind
  let (parameters, constOperation, t) ←
    if d.kind = .operation then readSignature id
    else do
      let t ← next
      pure ([], false, t)
  let (r, t) ← readRaises d.owner d.kind d.readonly t
  let (assignment, t) ← readInitializer d.kind t
  modifyDeclaration id fun e =>
    { e with
      dimensions, parameters, constOperation, assignment
      raises := r.raises
      getRaises := r.getRaises
      setRaises := r.setRaises }
  attachAfter id t.position.line
  endAt id t
  return (id, t)

end Parsing

end IdlReader
