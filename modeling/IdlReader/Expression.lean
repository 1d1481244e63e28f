import IdlReader.Constant.Literal
import IdlReader.Constant.Operator

/-!
# Constant expressions

Expressions are lists of tokens: operands, unary operators in front of them, parentheses,
and binary operators of ten precedence levels between them. They are evaluated while they
are read, by precedence climbing. What a name stands for is up to a resolver, so that
declarations and conditions of directives share the evaluator.

An operand may be known at run time only. No operator is applied to it, and the whole
expression is then known at run time only.
-/

namespace IdlReader

/-- The outcome of an evaluation. -/
inductive Evaluated where
  | known (value : Constant)
  /-- The value is known at run time only. -/
  | dynamic
deriving Inhabited

namespace Evaluated

def isDynamic : Evaluated → Bool
  | dynamic => true
  | known _ => false

/-- The value, or what stands in for it. -/
def value : Evaluated → Constant
  | known c => c
  | dynamic => Constant.absent

end Evaluated

namespace Expression

variable {m : Type → Type} [Monad m] [MonadExceptOf Fault m]

/-- Places a cause. -/
def orFailAt {α : Type} (p : Position) : Except Cause α → m α
  | .ok a => pure a
  | .error cause => failAt cause p

/-- What is left of the tokens of an expression. -/
structure Tokens where
  rest : List Token
  /-- Where the last of all tokens stands; it places what is missing behind them. -/
  last : Position

/-- The tokens of an expression. -/
def Tokens.ofList (tokens : List Token) : Tokens :=
  ⟨tokens, (tokens.getLast?.map Token.position).getD ⟨0, 0⟩⟩

/-- The place of the next token, or of the last one. -/
def Tokens.position (ts : Tokens) : Position :=
  (ts.rest.head?.map Token.position).getD ts.last

/-- The tokens without the next one. -/
def Tokens.advance (ts : Tokens) : Tokens := { ts with rest := ts.rest.tail }

/-- The tokens behind the mark `text`, if it is the next one. -/
def Tokens.eat? (ts : Tokens) (text : String) : Option Tokens :=
  match ts.rest with
  | t :: _ => if t.is text then some ts.advance else none
  | [] => none

/-- The tokens behind the mark `text`, which must be the next one. -/
def Tokens.expect (ts : Tokens) (text : String) : m Tokens :=
  match ts.eat? text with
  | some ts => pure ts
  | none => failAt (.expected text) ts.position

/-- Finds the value of the operand that starts with a name, and what is left behind it.
The first argument evaluates an expression inside of the operand. -/
abbrev Resolver (m : Type → Type) :=
  (Tokens → m (Evaluated × Tokens)) → Tokens → m (Evaluated × Tokens)

/-- The level above all operators. -/
def lowestPrecedence : Nat := 100

/-- Whether a token ends an expression. -/
def isTerminator (t : Token) : Bool :=
  t.kind == .separator && ["\x7d", "]", ",", ";", ")"].contains t.text

/-- The binary operator that a token writes. -/
def binaryOperator? (t : Token) : Option BinaryOperator :=
  if t.kind = .operator then BinaryOperator.ofSign? t.text else none

/-- The unary operator that a token writes. -/
def unaryOperator? (t : Token) : Option UnaryOperator :=
  if t.kind = .operator then UnaryOperator.ofSign? t.text else none

/-- A binary operator on two outcomes. -/
def applyBinary (op : BinaryOperator) (p : Position) : Evaluated → Evaluated → m Evaluated
  | .known a, .known b => do
    let c ← orFailAt p (Constant.binary op a b)
    return .known c
  | _, _ => pure .dynamic

/-- A unary operator on an outcome. -/
def applyUnary (op : UnaryOperator) (p : Position) : Evaluated → m Evaluated
  | .known a => do
    let c ← orFailAt p (Constant.unary op a)
    return .known c
  | .dynamic => pure .dynamic

/-- Lifts a fault into the monad of an evaluation. -/
def orThrow {α : Type} : Except Fault α → m α
  | .ok a => pure a
  | .error f => throwThe Fault f

mutual

/-- Evaluates the operand at the front. Each step of the evaluation takes one from
`budget`. -/
def operand (resolve : Resolver m) (budget : Nat) (ts : Tokens) : m (Evaluated × Tokens) :=
  match budget with
  | 0 => fail .inputExhausted
  | budget + 1 =>
    match ts.rest with
    | [] => failAt .operandMissing ts.position
    | t :: _ =>
      if t.is "(" then do
        let (inner, ts) ← climb resolve budget lowestPrecedence ts.advance
        let ts ← ts.expect ")"
        return (inner, ts)
      else
        match unaryOperator? t with
        | some op => do
          let (inner, ts) ← climb resolve budget 0 ts.advance
          let result ← applyUnary op t.position inner
          return (result, ts)
        | none =>
          match t.kind with
          | .literal _ => do
            let c ← orThrow (Constant.ofLiteral t)
            return (.known c, ts.advance)
          | .identifier | .keyword => resolve (climb resolve budget lowestPrecedence) ts
          | _ =>
            if t.is "::" then resolve (climb resolve budget lowestPrecedence) ts
            else failAt (.tokenInExpression t.text) t.position

/-- Evaluates an expression of operators that bind tighter than `level`. -/
def climb (resolve : Resolver m) (budget level : Nat) (ts : Tokens) :
    m (Evaluated × Tokens) :=
  match budget with
  | 0 => fail .inputExhausted
  | budget + 1 => do
    let (lhs, ts) ← operand resolve budget ts
    extend resolve budget level lhs ts

/-- Applies the operators behind an operand that bind tighter than `level`. -/
def extend (resolve : Resolver m) (budget level : Nat) (lhs : Evaluated) (ts : Tokens) :
    m (Evaluated × Tokens) :=
  match budget with
  | 0 => fail .inputExhausted
  | budget + 1 =>
    match ts.rest with
    | [] => pure (lhs, ts)
    | t :: _ =>
      if isTerminator t then pure (lhs, ts)
      else
        match binaryOperator? t with
        | none => failAt .operatorExpected t.position
        | some op =>
          if level ≤ op.precedence then pure (lhs, ts)
          else do
            let (rhs, ts) ← climb resolve budget op.precedence ts.advance
            let value ← applyBinary op t.position lhs rhs
            extend resolve budget level value ts

end

/-- A number of steps in which every expression of these tokens is evaluated: each token
is at most the start of an operand, an expression and a further operator. -/
def budgetFor (tokens : List Token) : Nat := 3 * tokens.length + 3

/-- Evaluates the expression at the front of tokens up to a terminator or an operator that
does not bind tighter than `level`. -/
def evaluateAt (resolve : Resolver m) (level : Nat) (tokens : List Token) :
    m (Evaluated × List Token) := do
  let (value, ts) ← climb resolve (budgetFor tokens) level (Tokens.ofList tokens)
  return (value, ts.rest)

/-- Evaluates an expression that makes up all tokens. -/
def evaluate (resolve : Resolver m) (tokens : List Token) : m Evaluated := do
  if tokens.isEmpty then fail .expressionMissing
  let (value, rest) ← evaluateAt resolve lowestPrecedence tokens
  match rest with
  | [] => return value
  | t :: _ => failAt .operatorExpected t.position

/-- The resolver of expressions in which no name may stand. -/
def literalOnly : Resolver m := fun _ ts => failAt .constantExpressionExpected ts.position

/-- The resolver of expressions in which every name stands for zero. -/
def zeroNames : Resolver m := fun _ ts =>
  pure (.known (Constant.ofInt .int32 0), ts.advance)

end Expression

end IdlReader
