import IdlReader.Grammar.Declarator
import IdlReader.Grammar.Evaluation

/-!
# Entries of enumerations

The entries of an enumeration stand between commas, each with a value or without one. When
all are read their values are computed, which must differ.
-/

namespace IdlReader

namespace Parsing

/-- Reads an entry. Gives the token behind it. -/
def readEntry (owner : EntityId) (type : DeclaredType) : Parsing Token := do
  let comments ← commentsBefore
  let name ← declarationName
  let id ← addEntity owner .enumEntry name.source (Span.point name.position)
    (.declaration { type })
  let id ← nameEntity id name.text false true
  attachBefore id comments
  let t ← next
  let t ←
    if t.is "=" then do
      let (assignment, u) ← readAssignment
      modifyDeclaration id fun d => { d with assignment }
      pure u
    else pure t
  attachAfter id t.position.line
  endAt id t
  return t

/-- Reads entries up to the end of the enumeration. -/
def entriesWithin (owner : EntityId) (type : DeclaredType) : (budget : Nat) → Parsing Unit
  | 0 => fail .inputExhausted
  | n + 1 => do
    let t ← peek 0
    if t.is "\x7d" || t.isFinish then return
    else do
      let u ← readEntry owner type
      if u.is "\x7d" then putBack u
      else if u.is "," then entriesWithin owner type n
      else failAtToken .enumSeparator u

/-- Computes the values of entries, which must differ from each other and from those that
were seen. -/
def checkEntries : (seen : List Constant) → List EntityId → Parsing Unit
  | _, [] => return
  | seen, id :: ids => do
    evaluateDeclaration id
    let e ← entity id
    match e.declaration?.bind fun d => d.value.constant? with
    | none => fail (.enumEntryScalar e.name)
    | some c =>
      if seen.any (·.equals c) then failAt (.enumEntryRepeated e.name) e.span.first
      else checkEntries (c :: seen) ids

/-- Reads the content of an enumeration up to the closing brace. -/
def readEnumeration (owner : EntityId) : Parsing Unit := do
  let e ← entity owner
  let budget ← tokensLeft
  entriesWithin owner { base := .enum, text := e.name, definition := some owner } budget
  let e ← entity owner
  checkEntries [] e.children

end Parsing

end IdlReader
