import IdlReader.Constant.Literal
import IdlReader.Constant.Cast
import IdlReader.Expression
import IdlReader.Grammar.ScopedName

/-!
# Types in declarations

A type is the name of a base type, a base type with a section of parameters between `<` and
`>`, or the name of a definition or typedef, which may stand behind the keyword of its kind.
`Parsing.readType` reads a type that is visible in a scope.
-/

namespace IdlReader

/-- The kind of definitions whose names follow a keyword. -/
def BaseType.elaborates? : BaseType → Option EntityKind
  | .enum => some .enum
  | .struct => some .struct
  | .union => some .union
  | .interface => some .interface
  | _ => none

/-- The base type of the values of a definition. -/
def EntityKind.baseType? : EntityKind → Option BaseType
  | .enum => some .enum
  | .struct => some .struct
  | .union => some .union
  | .exception => some .exception
  | .interface => some .interface
  | _ => none

/-- The base type that the name of an entity stands for. -/
def Entity.baseType? (e : Entity) : Option BaseType :=
  if e.kind = .typedef then e.declaration?.map fun d => d.type.base else e.kind.baseType?

namespace Parsing

/-! ## Parameters of types -/

/-- Takes a literal that writes an integer that is at least `least` and has no more than
32 bits. -/
def templateNumber (least : Nat) (cause : Cause) : Parsing Nat := do
  let t ← next
  match t.kind with
  | .literal _ => do
    let c ← Expression.orThrow (Constant.ofLiteral t)
    if !c.kind.isIntegral then failAtToken cause t
    else
      match c.castInt .uint32 with
      | .ok n => if least ≤ n.toNat then return n.toNat else failAtToken cause t
      | .error _ => failAtToken cause t
  | _ => failAtToken cause t

/-- Takes the `>` that closes a section. Of a `>>` the second half is left for the section
around it. -/
def closeTemplate (cause : Cause) : Parsing Unit := do
  let t ← next
  if t.is ">>" then
    let p := t.span.first
    putBack { t with text := ">", span := ⟨⟨p.line, p.col + 1⟩, t.span.last⟩ }
  else if t.is ">" then pure ()
  else failAtToken cause t

/-- Takes the next token if it is the mark `text`. -/
def takeIf (text : String) : Parsing Bool := do
  let t ← peek 0
  if t.is text then do
    let _ ← next
    return true
  else return false

/-- The digits and decimals of a fixed-point type. -/
def fixedBounds : Parsing (Nat × Nat) := do
  let length ← templateNumber 1 .fixedSizeNumber
  expectMark "," .commaExpected
  let t ← peek 0
  let decimals ← templateNumber 0 .fixedDecimalsNumber
  if length < decimals then failAtToken .fixedDecimalsNumber t
  closeTemplate .stringTemplateClose
  return (length, decimals)

/-- Reads the parameters of a bitfield. `element` reads a type. -/
def bitfieldSection (element : Parsing DeclaredType) (type : DeclaredType) :
    Parsing DeclaredType := do
  expectMark "<" .templateOpen
  let t ← peek 0
  let bits ← templateNumber 1 .bitCountNumber
  if 64 < bits then failAtToken .bitCountTooLarge t
  let value ←
    if ← takeIf "," then do
      let value ← element
      if (value.kind?.map Kind.isIntegral).getD false then pure (some value)
      else failAtToken .bitfieldIntegral t
    else pure none
  closeTemplate .templateClose
  return { type with length := bits, value }

/-- Reads the parameters of a sequence, a pointer or a map. `element` reads a type. -/
def containerSection (element : Parsing DeclaredType) (type : DeclaredType) :
    Parsing DeclaredType := do
  expectMark "<" .templateOpen
  let key ←
    if type.base = .map then do
      let key ← element
      expectMark "," .commaExpected
      pure (some key)
    else pure none
  let value ← element
  let length ← if ← takeIf "," then templateNumber 1 .sizeNumber else pure 0
  closeTemplate .templateClose
  return { type with length, key, value := some value }

/-! ## Types -/

/-- The name of a base type of which `t` is the first word. -/
def baseTypeText (t : Token) : Parsing String := do
  if t.is "long" then
    let u ← next
    if u.isOneOf ["long", "double"] then return t.text ++ " " ++ u.text
    putBack u
    return t.text
  else if t.is "unsigned" then
    let u ← next
    if u.is "short" then return "unsigned short"
    else if u.is "long" then
      if ← takeWord "long" then return "unsigned long long" else return "unsigned long"
    else failAtToken .unsignedBaseExpected u
  else return t.text
where
  /-- Takes a word if it comes next. -/
  takeWord (text : String) : Parsing Bool := do
    let u ← next
    if u.is text then return true
    putBack u
    return false

/-- Reads the name of a definition behind the keyword of its kind. -/
def elaboratedType (scope : EntityId) (base : BaseType) (kind : EntityKind) (keyword : Token) :
    Parsing DeclaredType := do
  let first ← next
  let (name, id) ← readTypeName scope first
  let t ← tree
  if (t.get (t.resolved id)).kind ≠ kind then
    failAtToken (.kindMismatch kind.withArticle) keyword
  return { base, text := name, definition := some id }

/-- Reads the name of a definition or typedef. -/
def namedType (scope : EntityId) (first : Token) : Parsing DeclaredType := do
  let (name, id) ← readTypeName scope first
  let e ← entity id
  match e.baseType? with
  | some base => return { base, text := name, definition := some id }
  | none => failAtToken .typeInvalid first

/-- Reads what follows the name of a base type. -/
def baseType (element : Parsing DeclaredType) (scope : EntityId) (keyword : Token)
    (base : BaseType) (text : String) : Parsing DeclaredType := do
  let type : DeclaredType := { base, text }
  match base.elaborates? with
  | some kind => elaboratedType scope base kind keyword
  | none =>
    if base = .fixed then
      if ← takeIf "<" then
        let (length, decimals) ← fixedBounds
        return { type with length, decimals }
      else return type
    else if base.isString then
      if ← takeIf "<" then
        let length ← templateNumber 1 .stringSizeNumber
        closeTemplate .stringTemplateClose
        return { type with length }
      else return type
    else if base = .bitfield then bitfieldSection element type
    else if base = .sequence ∨ base = .pointer ∨ base = .map then containerSection element type
    else return type

/-- Reads a type of which not more than `budget` are nested. -/
def typeWithin (scope : EntityId) : (budget : Nat) → Parsing DeclaredType
  | 0 => fail .inputExhausted
  | n + 1 => do
    let t ← next
    if !(t.isWord || t.is "::") then failAtToken .typeNameExpected t
    let text ← baseTypeText t
    let s ← get
    match if t.isKeyword then BaseType.ofText? s.env text else none with
    | some base => baseType (typeWithin scope n) scope t base text
    | none => namedType scope t

/-- Reads a type that is visible in `scope`. -/
def readType (scope : EntityId) : Parsing DeclaredType := do
  let budget ← tokensLeft
  typeWithin scope budget

end Parsing

end IdlReader
