import IdlReader.Expression
import IdlReader.Macro.Expansion

/-!
# Conditions

The condition of `#if` and `#elif` is a constant expression. `defined NAME` and
`defined(NAME)` become one or zero, calls of macros are expanded, and names that are then
left stand for zero.
-/

namespace IdlReader.Condition

/-- The literal in place of the operator `defined` at the token `place`. -/
def definedLiteral (isDefined : Bool) (place : Token) : Token :=
  Token.point (.literal .decInteger) (if isDefined then "1" else "0") place.position
    place.source

/-- The operand of the operator `defined` at the token `place`, and how many tokens behind
that token belong to it. -/
def definedOperand (place : Token) (ts : List Token) : Except Fault (Token × Nat) :=
  if (ts.head?.map (·.is "(")).getD false then
    match ts.drop 1 with
    | name :: rest =>
      if !name.isWord then failAt .definedOperandInParentheses place.position
      else if (rest.head?.map (·.is ")")).getD false then .ok (name, 3)
      else failAt .definedParenthesis place.position
    | [] => failAt .definedOperandInParentheses place.position
  else
    match ts with
    | name :: _ =>
      if name.isWord then .ok (name, 1) else failAt .definedOperand place.position
    | [] => failAt .definedOperand place.position

/-- Replaces the operators `defined` and the calls of macros in the tokens of a condition,
behind the first `skip` tokens, which belong to an earlier operator or call. -/
def substitute (table : MacroTable) : (skip : Nat) → List Token → Except Fault (List Token)
  | _, [] => .ok []
  | skip + 1, _ :: ts => substitute table skip ts
  | 0, t :: ts =>
    if t.isIdentifier && t.text == "defined" then do
      let (name, taken) ← definedOperand t ts
      let rest ← substitute table taken ts
      return definedLiteral (table.isDefined name.text) t :: rest
    else
      match if t.isWord then table.find? t.text else none with
      | none => do
        let rest ← substitute table 0 ts
        return t :: rest
      | some d =>
        if d.isFunctionLike then
          if (ts.head?.map (·.is "(")).getD false then do
            let (args, taken) ← Macro.arguments (ts.drop 1)
            let replaced ← Macro.expand table t (some args)
            let rest ← substitute table (taken + 1) ts
            return replaced ++ rest
          else do
            let rest ← substitute table 0 ts
            return t :: rest
        else do
          let replaced ← Macro.expand table t none
          let rest ← substitute table 0 ts
          return replaced ++ rest

/-- A token of a condition on the line of its directive. -/
def onLine (line : Nat) (t : Token) : Token :=
  { t with span := ⟨⟨line, t.span.first.col⟩, ⟨line, t.span.last.col⟩⟩ }

/-- Whether the condition `text` of a directive holds. -/
def holds (table : MacroTable) (directive : Token) (text : List Char) : Except Fault Bool := do
  let tokens ← tokenize table.lexicon false directive.source text
  let tokens ← substitute table 0 (tokens.map (onLine directive.position.line))
  let result ← Expression.evaluate Expression.zeroNames tokens
  match result.value.truth with
  | .ok b => return b
  | .error cause => fail cause

end IdlReader.Condition
