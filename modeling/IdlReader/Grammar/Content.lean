import IdlReader.Grammar.Case
import IdlReader.Grammar.Enumeration
import IdlReader.Grammar.Member

/-!
# Content of definitions

The content of the root and of a definition is a sequence of statements. A statement is a
definition, one or more declarations, both at once, or a case of a union.

`Parsing.contentWithin` reads the statements of an entity and then evaluates its members:
typedefs and unions first, then constants, then attributes and operations, and fields and
cases last.
-/

namespace IdlReader

namespace Parsing

/-! ## Evaluation of members -/

/-- Checks the cases of a union: there is at most one default, and the labels differ. -/
def checkCases : (hasDefault : Bool) → (seen : List Constant) → List EntityId → Parsing Unit
  | _, _, [] => return
  | hasDefault, seen, id :: ids => do
    evaluateDeclaration id
    let e ← entity id
    match e.declaration? with
    | none => checkCases hasDefault seen ids
    | some d => do
      if d.defaultCase && hasDefault then failAt .defaultRepeated e.span.first
      let seen ← checkLabels e.span.first seen d.caseValues
      checkCases (hasDefault || d.defaultCase) seen ids
where
  /-- Adds the labels of a case to those that were seen. -/
  checkLabels (p : Position) : (seen : List Constant) → List Constant → Parsing (List Constant)
    | seen, [] => return seen
    | seen, c :: cs =>
      if seen.any (·.equals c) then failAt .caseLabelRepeated p
      else checkLabels p (c :: seen) cs

/-- The children of an entity that are of certain kinds. -/
def childrenOfKinds (kinds : List EntityKind) (ids : List EntityId) : Parsing (List EntityId) := do
  let t ← tree
  return ids.filter fun id => kinds.contains (t.get id).kind

/-- Checks a union unless it is only declared, or evaluates a typedef. -/
def evaluateType (id : EntityId) : Parsing Unit := do
  let e ← entity id
  if e.kind = .union then
    if e.forward then return
    else
      let cases ← childrenOfKinds [.caseEntry] e.children
      checkCases false [] cases
  else evaluateDeclaration id

/-- Evaluates an attribute, or an operation with its parameters. -/
def evaluateWithParameters (id : EntityId) : Parsing Unit := do
  evaluateDeclaration id
  let t ← tree
  (t.parameters id).forM evaluateDeclaration

/-- Evaluates the members of an entity. -/
def evaluateMembers (owner : EntityId) : Parsing Unit := do
  let e ← entity owner
  let types ← childrenOfKinds [.typedef, .union] e.children
  types.forM evaluateType
  let consts ← childrenOfKinds [.const] e.children
  consts.forM evaluateDeclaration
  let operations ← childrenOfKinds [.attr, .operation] e.children
  operations.forM evaluateWithParameters
  let fields ← childrenOfKinds [.field, .caseEntry] e.children
  fields.forM evaluateDeclaration

/-! ## Definitions -/

/-- Reads one base of a definition of a kind and those that follow it. -/
def basesWithin (scope : EntityId) (kind : EntityKind) : (budget : Nat) →
    Parsing (List EntityId)
  | 0 => fail .inputExhausted
  | n + 1 => do
    let first ← next
    let (name, last) ← readScopedName first
    let t ← tree
    match t.findType scope name with
    | none => failAtToken .baseNotFound last
    | some found => do
      let id := t.resolved found
      if (t.get id).kind ≠ kind then failAtToken .baseKind last
      if (t.get id).forward then failAtToken .baseForward last
      if ← takeIfComma then
        let ids ← basesWithin scope kind n
        return id :: ids
      else return [id]
where
  /-- Takes the next token if it is a comma. -/
  takeIfComma : Parsing Bool := do
    let t ← next
    if t.is "," then return true
    putBack t
    return false

/-- Reads the bases of a definition if a colon follows its name. Says whether there are
bases. -/
def readBases (id scope : EntityId) (kind : EntityKind) : Parsing Bool := do
  let t ← next
  if !t.is ":" then
    putBack t
    return false
  else if !kind.supportsInheritance then failAtToken .inheritanceUnsupported t
  else do
    let budget ← tokensLeft
    let bases ← basesWithin scope kind budget
    modifyEntity id (Entity.mapDefinition fun d => { d with bases })
    return true

/-- Reads the discriminator of a union unless a semicolon follows its name. Says whether
there is one. -/
def readSwitch (id scope : EntityId) : Parsing Bool := do
  let t ← peek 0
  if t.is ";" then return false
  else do
    expectMark "switch" .switchExpected
    expectMark "(" .switchOpen
    let t ← peek 0
    let type ← readType scope
    if !(type.kind?.map Kind.isIntegral).getD false then failAtToken .switchType t
    expectMark ")" .switchClose
    modifyEntity id (Entity.mapDefinition fun d => { d with switchType := some type })
    return true

/-- The name of a definition of a kind; also says whether it was generated. -/
def definitionName (owner : EntityId) (kind : EntityKind) : Parsing (String × Bool) := do
  let t ← next
  if t.isIdentifier then return (t.text, false)
  else if kind.mayBeUnnamed then do
    let e ← entity owner
    if e.kind = .root then failAtToken .unnamedAtRoot t
    let name ← generateName kind.stem
    putBack t
    return (name, true)
  else failAtToken .unnamedDefinition t

/-- Reads what follows the opening brace of a definition. `content` reads the content of an
entity. -/
def readBody (content : EntityId → Parsing Unit) (id : EntityId) (kind : EntityKind) :
    Parsing Unit := do
  if kind = .enum then readEnumeration id else content id
  let t ← next
  if !t.is "\x7d" then failAtToken .closeBraceExpected t
  endAt id t

/-- Reads a definition behind its keyword. Gives the entity that its name stands for. -/
def readDefinition (content : EntityId → Parsing Unit) (owner : EntityId) (kind : EntityKind)
    (keyword : Token) (isLocal : Bool) (comments : List Token) : Parsing EntityId := do
  let id ← addEntity owner kind keyword.source (Span.point keyword.position)
    (.definition { isLocal })
  let (name, anonymous) ← definitionName owner kind
  let headed ← if kind = .union then readSwitch id owner else readBases id owner kind
  let t ← next
  let forward := !t.is "\x7b"
  if (headed || anonymous) && forward then failAtToken .openBraceExpected t
  let id ← nameEntity id name forward true
  if forward then
    putBack t
    return id
  else do
    modifyEntity id fun e => { e with anonymous }
    attachBefore id comments
    readBody content id kind
    return id

/-- Whether a definition starts behind a keyword: two identifiers name a type and a
declaration instead. -/
def startsDefinition : Parsing Bool := do
  let first ← peek 0
  let second ← peek 1
  return !(first.isIdentifier && second.isIdentifier)

/-- The kind of the definition that starts with a token. -/
def definitionKind? (t : Token) : Parsing (Option EntityKind) := do
  match EntityKind.ofKeyword? t with
  | none => return none
  | some kind => if ← startsDefinition then return some kind else return none

/-! ## Statements -/

/-- What stands in front of a statement. -/
structure Modifiers where
  const : Bool := false
  readonly : Bool := false
  typedef : Bool := false
  isLocal : Bool := false

/-- Whether a statement declares something. -/
def Modifiers.declares (m : Modifiers) : Bool := m.const || m.readonly || m.typedef

/-- Reads the modifier of a statement in an entity of a kind if `t` is one. Also gives the
token behind it. -/
def readModifiers (kind : EntityKind) (t : Token) : Parsing (Modifiers × Token) := do
  let behind (member : Member) (m : Modifiers) : Parsing (Modifiers × Token) := do
    if !kind.admits member then failAtToken (.keywordUnexpected t.text) t
    let u ← next
    return (m, u)
  if t.is "const" then behind .const { const := true }
  else if t.is "readonly" then behind .attr { readonly := true }
  else if t.is "typedef" then behind .typedef { typedef := true }
  else if t.is "local" then do
    let (m, u) ← behind (.definition .interface) { isLocal := true }
    if !u.is "interface" then failAtToken .onlyInterfacesLocal u
    return (m, u)
  else return ({}, t)

/-- Where a statement stands and what is known about it when its first tokens were read. -/
structure Statement where
  owner : EntityId
  ownerKind : EntityKind
  modifiers : Modifiers
  /-- Where the statement starts. -/
  position : Position
  /-- The comments in front of it that describe its declaration. -/
  comments : List Token

/-- Reads declarations of one type up to the semicolon. `anonymous` says whether the names
are generated. -/
def declaratorsWithin (anonymous : Bool) : (budget : Nat) → Declarator →
    (comments : List Token) → Parsing Unit
  | 0, _, _ => fail .inputExhausted
  | n + 1, d, comments => do
    let (id, t) ← readDeclarator d comments
    if anonymous then modifyEntity id fun e => { e with anonymous := true }
    if t.is "," then
      if d.kind.supportsMultiple then do
        let name ← declarationName
        declaratorsWithin anonymous n { d with name, position := name.position } []
      else failAtToken .multipleUnsupported t
    else if t.is ";" then return
    else failAtToken .declarationUnterminated t

namespace Statement

/-- Reads the declarations of a statement behind the name of the first one. -/
def readDeclarators (s : Statement) (kind : EntityKind) (type : DeclaredType) (name : Token)
    (anonymous : Bool) : Parsing Unit := do
  let budget ← tokensLeft
  declaratorsWithin anonymous (budget + 1)
    { owner := s.owner, kind, type, name, readonly := s.modifiers.const || s.modifiers.readonly,
      position := s.position }
    s.comments

/-- The kind of the declaration of which the type and the name were read. -/
def declarationKind (s : Statement) (defines : Bool) (name : Token) : Parsing EntityKind := do
  let t ← peek 0
  if t.is "(" then
    if defines || s.modifiers.const || s.modifiers.typedef || !s.ownerKind.admits .operation then
      failAtToken .parenthesisUnexpected t
    else return .operation
  else if s.modifiers.typedef then return .typedef
  else if s.modifiers.const then return .const
  else if s.ownerKind.admits .field then return .field
  else failAtToken .variableUnsupported name

/-- Reads the declarations of attributes behind the keyword. -/
def readAttributes (s : Statement) : Parsing Unit := do
  let type ← readType s.owner
  let name ← declarationName
  s.readDeclarators .attr type name false

/-- Reads declarations of a type. -/
def readDeclarations (s : Statement) (type : DeclaredType) (defines anonymous : Bool) :
    Parsing Unit := do
  let name ← declarationName
  let kind ← s.declarationKind defines name
  s.readDeclarators kind type name anonymous

/-- Reads a statement that starts with a token and is no definition. -/
def readMember (s : Statement) (t : Token) : Parsing Unit := do
  let m := s.modifiers
  if t.is ";" then failAtToken .semicolonUnexpected t
  else if m.readonly && !t.is "attribute" then failAtToken .attributeExpected t
  else if t.isOneOf ["case", "default"] then
    if m.declares || !s.ownerKind.admits .case then failAtToken (.keywordUnexpected t.text) t
    else readCase s.owner t s.comments
  else if t.is "attribute" then
    if m.const || m.typedef || !s.ownerKind.admits .attr then
      failAtToken (.keywordUnexpected t.text) t
    else s.readAttributes
  else do
    putBack t
    let type ← readType s.owner
    s.readDeclarations type false false

/-- The type that a definition gives to the declarations behind it; `t` is the token behind
the definition. -/
def definedType (id : EntityId) (t : Token) : Parsing DeclaredType := do
  let e ← entity id
  match e.kind.baseType? with
  | some base => return { base, text := e.name, definition := some id }
  | none => failAtToken .semicolonAfterToken t

/-- Reads the end of a statement that is a definition and nothing else. The fields of a
definition without a name that is not declared otherwise belong to a field whose name is
generated. -/
def finishDefinition (s : Statement) (id : EntityId) (t : Token) : Parsing Unit := do
  if s.modifiers.declares then failAtToken .semicolonUnexpected t
  endAt id t
  let e ← entity id
  if !e.anonymous then return
  else if !s.ownerKind.admits .field then failAtToken .declarationRequired t
  else do
    putBack t
    let name ← generateName "var"
    let type ← definedType id t
    putBack { t with kind := .identifier, text := name }
    s.readDeclarations type true true

/-- Reads what follows a definition; `t` is the token behind it. -/
def readBehindDefinition (s : Statement) (id : EntityId) (t : Token) : Parsing Unit := do
  let m := s.modifiers
  if t.is ";" then s.finishDefinition id t
  else if t.isFinish && !m.declares then failAtToken .semicolonAfterToken t
  else if m.readonly && !t.is "attribute" then failAtToken .attributeExpected t
  else if t.isOneOf ["case", "default", "attribute"] then
    failAtToken (.keywordUnexpected t.text) t
  else do
    putBack t
    let type ← definedType id t
    s.readDeclarations type true false

end Statement

/-- Reads a statement in the content of an entity. -/
def readStatement (content : EntityId → Parsing Unit) (owner : EntityId) : Parsing Unit := do
  let e ← entity owner
  let comments ← commentsBefore
  let first ← next
  let (modifiers, t) ← readModifiers e.kind first
  let s : Statement :=
    { owner, ownerKind := e.kind, modifiers, position := first.position, comments }
  match ← definitionKind? t with
  | none => s.readMember t
  | some kind =>
    if !e.kind.admits (.definition kind) then failAtToken (.keywordUnexpected t.text) t
    else do
      let declares := modifiers.declares
      let id ← readDefinition content owner kind t modifiers.isLocal
        (if declares then [] else comments)
      let u ← next
      attachAfter id u.position.line
      { s with comments := if declares then comments else [] }.readBehindDefinition id u

/-- Reads the statements in the content of an entity up to the closing brace, or for the root
to the end, and evaluates the members. -/
def contentWithin : (budget : Nat) → (owner : EntityId) → Parsing Unit
  | 0, _ => fail .inputExhausted
  | n + 1, owner => do
    let t ← peek 0
    if t.isFinish then evaluateMembers owner
    else if t.is "\x7d" then
      if owner = Tree.root then failAtToken .closeBraceUnexpected t else evaluateMembers owner
    else do
      readStatement (contentWithin n) owner
      contentWithin n owner

/-- Reads everything. -/
def readRoot : Parsing Unit := do
  let budget ← tokensLeft
  contentWithin budget Tree.root

end Parsing

end IdlReader
