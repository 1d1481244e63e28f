import IdlReader.Grammar.Session

/-!
# Scoped names

A scoped name such as `A::B` or `::A::B` is read from tokens and looked up as the name of a
type, an exception or a base.
-/

namespace IdlReader

namespace Parsing

/-- Reads the part of a scoped name that follows `name`, whose last token is `last`. Behind
a colon an identifier must follow; elsewhere the name goes on if `::` follows. -/
def scopedNameRest : (budget : Nat) → (name : String) → (last : Token) →
    Parsing (String × Token)
  | 0, _, _ => fail .inputExhausted
  | n + 1, name, last => do
    let continued ←
      if name.toList.getLast? = some ':' then pure (some name)
      else do
        let t ← next
        if t.is "::" then pure (some (name ++ "::"))
        else do
          putBack t
          pure none
    match continued with
    | none => return (name, last)
    | some name => do
      let t ← next
      if t.isIdentifier then scopedNameRest n (name ++ t.text) t
      else failAtToken .identifierExpected t

/-- Reads a scoped name that starts with a token that was taken. Also gives its last
token. -/
def readScopedName (first : Token) : Parsing (String × Token) := do
  let budget ← tokensLeft
  scopedNameRest budget first.text first

/-- Reads the name of a type that is visible in `scope` and finds its entity. -/
def readTypeName (scope : EntityId) (first : Token) : Parsing (String × EntityId) := do
  let (name, last) ← readScopedName first
  let t ← tree
  match t.findType scope name with
  | some id => return (name, id)
  | none => failAtToken (.undefinedName name) last

/-- Takes a token that must be the mark `text`. -/
def expectMark (text : String) (cause : Cause) : Parsing Unit := do
  let t ← next
  if t.is text then pure () else failAtToken cause t

end Parsing

end IdlReader
