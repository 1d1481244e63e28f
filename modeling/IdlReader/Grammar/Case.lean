import IdlReader.Grammar.Declarator

/-!
# Cases of unions

A case is a label and a declaration. A label that another label or the end of the union
follows has no declaration of its own: its entity has a generated name and no type.
-/

namespace IdlReader

namespace Parsing

/-- Reads the tokens of a label up to the colon. -/
def labelTokens (isDefault : Bool) : (budget : Nat) → Parsing (List Token)
  | 0 => fail .inputExhausted
  | n + 1 => do
    let t ← next
    if t.is ":" then return []
    else if t.isFinish || t.is ";" then failAtToken .caseColonExpected t
    else if isDefault then failAtToken .defaultWithValue t
    else do
      let ts ← labelTokens isDefault n
      return t :: ts

/-- Reads the rest of a label that starts with the keyword `label`. -/
def readLabel (label : Token) : Parsing (List Token) := do
  let isDefault := label.is "default"
  let budget ← tokensLeft
  let ts ← labelTokens isDefault budget
  if !isDefault && ts.isEmpty then failAtToken .caseLabelMissing label
  return ts

/-- Whether one of the two tokens behind the next one is the mark `text`. -/
def followsSoon (text : String) : Parsing Bool := do
  let t ← peek 1
  if t.is text then return true
  else
    let u ← peek 2
    return u.is text

/-- Whether a struct or union is defined at the next token. -/
def definesNext (t : Token) : Parsing Bool := do
  if ← (if t.is "struct" then followsSoon "\x7b" else pure false) then return true
  else if t.is "union" then followsSoon "switch"
  else return false

/-- Adds the entity of a label without a declaration. -/
def declareLabel (owner : EntityId) (label : Token) (comments : List Token) :
    Parsing EntityId := do
  let id ← addEntity owner .caseEntry label.source (Span.point label.position)
    (.declaration { type := { base := .void, text := "void" } })
  let name ← generateName "case"
  let id ← nameEntity id name false true
  attachBefore id comments
  attachAfter id label.position.line
  return id

/-- Reads the declaration behind a label. -/
def readLabelled (owner : EntityId) (label : Token) (comments : List Token) :
    Parsing EntityId := do
  let type ← readType owner
  let name ← declarationName
  let (id, t) ← readDeclarator
    { owner, kind := .caseEntry, type, name, readonly := false, position := label.position }
    comments
  if t.is ";" then return id else failAtToken .declarationUnterminated t

/-- Reads a case that starts with the keyword `label`. -/
def readCase (owner : EntityId) (label : Token) (comments : List Token) : Parsing Unit := do
  let tokens ← readLabel label
  let t ← peek 0
  if ← definesNext t then failAtToken .definitionInUnion t
  let id ←
    if t.isOneOf ["case", "default", "\x7d"] then declareLabel owner label comments
    else readLabelled owner label comments
  let isDefault := label.is "default"
  modifyDeclaration id fun d =>
    { d with
      defaultCase := isDefault
      labels := if isDefault then d.labels else [tokens] }

end Parsing

end IdlReader
