import IdlReader.Grammar.Session

/-!
# Evaluation of declarations

Array sizes, assignments and case labels are kept as tokens and evaluated when a definition
has been read, or earlier when an expression refers to the declaration. A declaration that is
met again while it is being evaluated refers to itself.

`Parsing.evaluateDeclaration` evaluates a declaration once. Its recursion goes along
declarations that are still pending, so it is bounded by the size of the tree.
-/

namespace IdlReader

namespace Parsing

/-! ## Operands -/

/-- Reads the rest of a scoped name behind `name`. -/
def scopedNameTail (place : Position) :
    (budget : Nat) → (name : String) → Expression.Tokens →
      Parsing (String × Expression.Tokens)
  | 0, _, _ => fail .inputExhausted
  | n + 1, name, ts =>
    let continued := name.toList.getLast? = some ':'
    match if continued then some ts else ts.eat? "::" with
    | none => return (name, ts)
    | some ts =>
      let name := if continued then name else name ++ "::"
      match ts.rest with
      | [] => failAt .identifierExpected place
      | t :: _ =>
        if t.isIdentifier then scopedNameTail place n (name ++ t.text) ts.advance
        else failAtToken .identifierExpected t

/-- Reads accessors such as `.member[2]`, whose indices are evaluated by `index`. Also says
whether an index is known at run time only. -/
def accessorTail (index : Expression.Tokens → Parsing (Evaluated × Expression.Tokens))
    (place : Position) :
    (budget : Nat) → Expression.Tokens → Parsing (List Accessor × Bool × Expression.Tokens)
  | 0, _ => fail .inputExhausted
  | n + 1, ts =>
    if (ts.rest.head?.map fun t => t.kind == .operator && t.text == ".").getD false then
      let ts := ts.advance
      match ts.rest with
      | t :: _ =>
        if t.isWord then do
          let (as, dynamic, ts) ← accessorTail index place n ts.advance
          return (.member t.text :: as, dynamic, ts)
        else failAt .memberNameExpected place
      | [] => failAt .memberNameExpected place
    else
      match ts.eat? "[" with
      | none => return ([], false, ts)
      | some ts => do
        let (i, ts) ← index ts
        let ts ← ts.expect "]"
        match i with
        | .dynamic => do
          let (as, _, ts) ← accessorTail index place n ts
          return (as, true, ts)
        | .known c => do
          let i ← Expression.orFailAt place (c.castInt .uint64)
          let (as, dynamic, ts) ← accessorTail index place n ts
          return (.index i.toNat :: as, dynamic, ts)

/-- The value of an entity that a name in an expression stands for. `evaluate` evaluates a
declaration. -/
def operandValue (evaluate : EntityId → Parsing Unit) (place : Position) (name : String)
    (id : EntityId) (accessors : List Accessor) (dynamic : Bool) : Parsing Evaluated := do
  let e ← entity id
  match e.kind with
  | .field | .attr | .parameter | .caseEntry => return .dynamic
  | .const | .enumEntry =>
    if dynamic then return .dynamic
    orAt place (evaluate id)
    let t ← tree
    let value := (t.get id).declaration?.bind fun d =>
      d.value.navigate? t.caseSensitive accessors
    match value with
    | some (.simple v) => return v
    | some _ => failAt (.valueUnusable name) place
    | none => failAt (.undefinedName name) place
  | _ => failAt (.notADeclaration name) place

/-- Resolves names in expressions inside of the entity `scope`. -/
def resolver (evaluate : EntityId → Parsing Unit) (scope : EntityId) :
    Expression.Resolver Parsing := fun index ts => do
  let place := ts.position
  match ts.rest with
  | [] => failAt .operandMissing place
  | first :: rest =>
    let budget := rest.length + 1
    let (name, ts) ← scopedNameTail place budget first.text ts.advance
    let (accessors, dynamic, ts) ← accessorTail index place budget ts
    let t ← tree
    match t.find scope name true with
    | none => failAt (.undefinedName name) place
    | some id =>
      let v ← operandValue evaluate place name id accessors dynamic
      return (v, ts)

/-- Evaluates an expression inside of the entity `scope`. -/
def evaluateIn (evaluate : EntityId → Parsing Unit) (scope : EntityId) (tokens : List Token) :
    Parsing Evaluated :=
  Expression.evaluate (resolver evaluate scope) tokens

/-! ## Parts of declarations -/

/-- The size that the tokens between the brackets of a dimension write. -/
def arraySize (evaluate : EntityId → Parsing Unit) (scope : EntityId) (dimension : List Token) :
    Parsing (Option Nat) :=
  match dimension with
  | [] => return none
  | first :: _ => do
    match ← evaluateIn evaluate scope dimension with
    | .dynamic => return none
    | .known c => do
      let size ← Expression.orFailAt first.position (c.castInt .uint64)
      if size = 0 then failAtToken .arraySizeZero first
      return some size.toNat

/-- The value of an entry of an enumeration without an assignment: zero, or one more than
the entry before it. -/
def nextEntryValue (evaluate : EntityId → Parsing Unit) (id scope : EntityId) :
    Parsing Constant := do
  let t ← tree
  let before := ((t.get scope).children.takeWhile (· ≠ id)).filter fun c =>
    (t.get c).kind = .enumEntry
  match before.getLast? with
  | none => return Constant.ofInt .int32 0
  | some previous => do
    evaluate previous
    let e ← entity previous
    let value := ((e.declaration?.bind fun d => d.value.constant?)).getD Constant.absent
    let sum ← orFail (Constant.binary .add value (Constant.ofInt .int32 1))
    orFail (sum.cast (.integer .int32))

/-- The value of an entry of an enumeration. -/
def entryValue (evaluate : EntityId → Parsing Unit) (id : EntityId) (d : Declaration)
    (scope : EntityId) : Parsing ValueNode :=
  match d.assignment with
  | [] => do
    let c ← nextEntryValue evaluate id scope
    return .ofConstant c
  | first :: _ => do
    match ← evaluateIn evaluate scope d.assignment with
    | .dynamic => failAtToken .enumEntryConstant first
    | .known c => do
      let c ← Expression.orFailAt first.position (c.cast (.integer .int32))
      return .ofConstant c

/-- The values of the labels of a case, as values of the type of the discriminator. -/
def labelValues (evaluate : EntityId → Parsing Unit) (union : EntityId)
    (switchKind : Option Kind) : List (List Token) → Parsing (List Constant)
  | [] => return []
  | [] :: labels => labelValues evaluate union switchKind labels
  | (first :: rest) :: labels => do
    match ← evaluateIn evaluate union (first :: rest) with
    | .dynamic => failAtToken .caseLabelConstant first
    | .known c => do
      let c ← match switchKind with
        | some k => Expression.orFailAt first.position (c.cast k)
        | none => pure c
      let cs ← labelValues evaluate union switchKind labels
      return c :: cs

/-! ## Initializers -/

/-- The number of open brackets behind a token. -/
def initializerDepth (depth : Nat) (t : Token) : Nat :=
  if t.isOneOf ["\x7b", "(", "["] then depth + 1
  else if t.isOneOf ["\x7d", ")", "]"] then depth - 1
  else depth

/-- Splits tokens at the commas outside of brackets. `element` is the part of the current
element that was read, with the last token first. Only behind the last comma there may be
nothing. -/
def splitElements : (depth : Nat) → (element : List Token) → List Token →
    Parsing (List (List Token))
  | _, element, [] => return if element.isEmpty then [] else [element.reverse]
  | depth, element, t :: ts =>
    if t.is "," && depth == 0 then
      if element.isEmpty then failAtToken .initializerGap t
      else do
        let elements ← splitElements depth [] ts
        return element.reverse :: elements
    else splitElements (initializerDepth depth t) (t :: element) ts

/-- Splits an initializer list in braces into its elements. -/
def splitInitializer (tokens : List Token) : Parsing (List (List Token)) :=
  match tokens with
  | [] => return []
  | first :: rest =>
    let closed := (rest.getLast?.map (·.is "\x7d")).getD false
    if first.is "\x7b" && closed then splitElements 0 [] rest.dropLast
    else failAtToken .initializerExpected first

/-- The elements of a character array that a text writes. -/
def textElements (type : DeclaredType) (size : Option Nat) (t : Token) : Parsing ValueNode := do
  let c ← Expression.orThrow (Constant.ofLiteral t)
  let text := (c.text?.getD "").toList
  let kind := type.kind?.getD (.integer .int8)
  if (size.map fun n => decide (n < text.length)).getD false then
    failAtToken .arrayOverfull t
  let elements ← text.mapM fun d => do
    let c ← Expression.orFailAt t.position ((Constant.ofInt .uint32 d.toNat).cast kind)
    return ValueNode.ofConstant c
  return .array elements

/-- Whether tokens are one string literal. -/
def isTextLiteral (tokens : List Token) : Bool :=
  match tokens with
  | [t] => t.kind == .literal .string
  | _ => false

/-- The struct or exception whose members a value of a type has. -/
def compoundDefinition? (t : Tree) (type : DeclaredType) : Option EntityId := do
  let definition ← type.definition
  let resolved := t.resolved definition
  let kind := (t.get resolved).kind
  if kind = .struct ∨ kind = .exception then some resolved else none

/-- The value of an expression as a value of a scalar type. -/
def scalarValue (evaluate : EntityId → Parsing Unit) (scope : EntityId) (type : DeclaredType)
    (constant : Bool) (first : Token) (tokens : List Token) : Parsing ValueNode := do
  match ← evaluateIn evaluate scope tokens with
  | .dynamic =>
    if constant then failAtToken .constExpected first else return .simple .dynamic
  | .known c =>
    match type.kind? with
    | none => failAtToken (.typeUnassignable type.text) first
    | some k => do
      let c ← Expression.orFailAt first.position (c.cast k)
      return .ofConstant c

/-- Builds the value that tokens write for a type and array sizes. -/
abbrev Builder := DeclaredType → List (Option Nat) → List Token → Parsing ValueNode

/-- The values of members by their names. A member for which nothing is written has the value
of its declaration. -/
def buildMembers (evaluate : EntityId → Parsing Unit) (build : Builder) :
    List EntityId → List (List Token) → Parsing (List (String × ValueNode))
  | [], _ => return []
  | m :: ms, elements => do
    evaluate m
    let e ← entity m
    match e.declaration? with
    | none => buildMembers evaluate build ms elements.tail
    | some d => do
      let v ← match elements with
        | [] => pure d.value
        | tokens :: _ => build d.type d.sizes tokens
      let vs ← buildMembers evaluate build ms elements.tail
      return (e.name, v) :: vs

/-- The value that tokens write for a type and the array sizes that are left. Each level of
braces takes one from `budget`. -/
def buildValue (evaluate : EntityId → Parsing Unit) (scope : EntityId) (constant : Bool) :
    (budget : Nat) → Builder
  | 0, _, _, _ => fail .inputExhausted
  | _ + 1, _, _, [] => return .unassigned
  | n + 1, type, size :: inner, first :: rest =>
    if inner.isEmpty && type.base.isCharacter && isTextLiteral (first :: rest) then
      textElements type size first
    else do
      let elements ← splitInitializer (first :: rest)
      if (size.map fun n => decide (n < elements.length)).getD false then
        failAtToken .arrayOverfull first
      let values ← elements.mapM (buildValue evaluate scope constant n type inner)
      return .array values
  | n + 1, type, [], first :: rest => do
    let t ← tree
    match compoundDefinition? t type with
    | none => scalarValue evaluate scope type constant first (first :: rest)
    | some definition => do
      let elements ← splitInitializer (first :: rest)
      let members := (t.get definition).children.filter fun c => (t.get c).kind = .field
      if members.length < elements.length then failAtToken .compoundOverfull first
      let values ← buildMembers evaluate (buildValue evaluate scope constant n) members elements
      return .compound values

/-! ## Declarations -/

/-- The value of a declaration and the values of its case labels. -/
def declaredValue (evaluate : EntityId → Parsing Unit) (id : EntityId) (kind : EntityKind)
    (d : Declaration) (sizes : List (Option Nat)) (scope : EntityId) :
    Parsing (ValueNode × List Constant) := do
  match kind with
  | .enumEntry => do
    let v ← entryValue evaluate id d scope
    return (v, [])
  | .caseEntry => do
    let t ← tree
    let switchKind := do
      let u ← (t.get scope).definition?
      let type ← u.switchType
      type.kind?
    let values ← labelValues evaluate scope switchKind d.labels
    return (.unassigned, values)
  | .const | .field => do
    let v ← buildValue evaluate scope (kind == .const) (d.assignment.length + 1) d.type sizes
      d.assignment
    return (v, [])
  | _ => return (.unassigned, [])

/-- Evaluates a declaration unless that was done before. The declarations that it refers to
are evaluated on the way, each with one less left in `budget`. -/
def evaluateWithin : (budget : Nat) → EntityId → Parsing Unit
  | 0, _ => fail .inputExhausted
  | n + 1, id => do
    let e ← entity id
    match e.declaration? with
    | none => return
    | some d =>
      match d.progress with
      | .done => return
      | .processing => fail .circular
      | .pending => do
        modifyDeclaration id fun d => { d with progress := .processing }
        let scope := e.parent.getD Tree.root
        let sizes ← d.dimensions.mapM (arraySize (evaluateWithin n) scope)
        let (value, caseValues) ← declaredValue (evaluateWithin n) id e.kind d sizes scope
        modifyDeclaration id fun d => { d with sizes, value, caseValues, progress := .done }

/-- Evaluates a declaration. -/
def evaluateDeclaration (id : EntityId) : Parsing Unit := do
  let t ← tree
  evaluateWithin (t.size + 1) id

end Parsing

end IdlReader
