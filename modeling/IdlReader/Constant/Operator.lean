import IdlReader.Constant.Cast

/-!
# Operators on constants

The unary and binary operators of constant expressions, with their signs and precedence
levels. Integers narrower than 32 bits are promoted, two operands are brought to a common
kind, and the result of integer arithmetic is taken modulo two to the width of that kind.
-/

namespace IdlReader

/-- The binary operators. -/
inductive BinaryOperator where
  | mul
  | div
  | rem
  | add
  | sub
  | shl
  | shr
  | lt
  | le
  | gt
  | ge
  | eq
  | ne
  | bitAnd
  | bitXor
  | bitOr
  | and
  | or
deriving DecidableEq, Repr

namespace BinaryOperator

/-- The operators and their signs. -/
def signs : List (BinaryOperator × String) :=
  [(mul, "*"), (div, "/"), (rem, "%"), (add, "+"), (sub, "-"), (shl, "<<"), (shr, ">>"),
    (lt, "<"), (le, "<="), (gt, ">"), (ge, ">="), (eq, "=="), (ne, "!="), (bitAnd, "&"),
    (bitXor, "^"), (bitOr, "|"), (and, "&&"), (or, "||")]

/-- The operator with a sign. -/
def ofSign? (sign : String) : Option BinaryOperator :=
  (signs.find? fun s => s.2 == sign).map Prod.fst

/-- The precedence level; a lower level binds tighter. -/
def precedence : BinaryOperator → Nat
  | mul | div | rem => 1
  | add | sub => 2
  | shl | shr => 3
  | lt | le | gt | ge => 4
  | eq | ne => 5
  | bitAnd => 6
  | bitXor => 7
  | bitOr => 8
  | and => 9
  | or => 10

/-- Whether an operator works on the bits of its operands. -/
def isBitwise : BinaryOperator → Bool
  | shl | shr | bitAnd | bitXor | bitOr => true
  | _ => false

/-- Whether an operator divides. -/
def isDivision : BinaryOperator → Bool
  | div | rem => true
  | _ => false

end BinaryOperator

/-- The unary operators. -/
inductive UnaryOperator where
  | plus
  | minus
  | not
  | bitNot
deriving DecidableEq, Repr

namespace UnaryOperator

/-- The operators and their signs. -/
def signs : List (UnaryOperator × String) :=
  [(plus, "+"), (minus, "-"), (not, "!"), (bitNot, "~")]

/-- The operator with a sign. -/
def ofSign? (sign : String) : Option UnaryOperator :=
  (signs.find? fun s => s.2 == sign).map Prod.fst

end UnaryOperator

namespace Constant

/-- The truth value of a number: whether it differs from zero. -/
def truth : Constant → Except Cause Bool
  | integer _ v _ => .ok (v ≠ 0)
  | real _ x => .ok (x != 0)
  | text .. => .error .operandsIncompatible

/-- An operator on the bits of two integers in two's complement. -/
def onBits (k : IntegerKind) (f : BitVec k.bits → BitVec k.bits → BitVec k.bits) (x y : Int) :
    Constant :=
  ofInt k (f (BitVec.ofInt k.bits x) (BitVec.ofInt k.bits y)).toInt

/-- A binary operator on two integers of the kind `k`. -/
def binaryInteger (op : BinaryOperator) (k : IntegerKind) (x y : Int) :
    Except Cause Constant :=
  match op with
  | .mul => .ok (ofInt k (x * y))
  | .div => if y = 0 then .error .divisionByZero else .ok (ofInt k (x.tdiv y))
  | .rem => if y = 0 then .error .divisionByZero else .ok (ofInt k (x.tmod y))
  | .add => .ok (ofInt k (x + y))
  | .sub => .ok (ofInt k (x - y))
  | .shl => if y < 0 ∨ k.bits ≤ y then .error .shiftCount else .ok (ofInt k (x * Int.pow 2 y.toNat))
  | .shr => if y < 0 ∨ k.bits ≤ y then .error .shiftCount else .ok (ofInt k (x / Int.pow 2 y.toNat))
  | .lt => .ok (ofBool (x < y))
  | .le => .ok (ofBool (x ≤ y))
  | .gt => .ok (ofBool (y < x))
  | .ge => .ok (ofBool (y ≤ x))
  | .eq => .ok (ofBool (x = y))
  | .ne => .ok (ofBool (x ≠ y))
  | .bitAnd => .ok (onBits k (· &&& ·) x y)
  | .bitXor => .ok (onBits k (· ^^^ ·) x y)
  | .bitOr => .ok (onBits k (· ||| ·) x y)
  | .and => .ok (ofBool (x ≠ 0 && y ≠ 0))
  | .or => .ok (ofBool (x ≠ 0 || y ≠ 0))

/-- A binary operator on two real numbers of the kind `k`. -/
def binaryReal (op : BinaryOperator) (k : RealKind) (x y : Float) : Except Cause Constant :=
  match op with
  | .mul => .ok (ofFloat k (x * y))
  | .div => if y == 0 then .error .divisionByZero else .ok (ofFloat k (x / y))
  | .add => .ok (ofFloat k (x + y))
  | .sub => .ok (ofFloat k (x - y))
  | .lt => .ok (ofBool (x < y))
  | .le => .ok (ofBool (x ≤ y))
  | .gt => .ok (ofBool (x > y))
  | .ge => .ok (ofBool (x ≥ y))
  | .eq => .ok (ofBool (x == y))
  | .ne => .ok (ofBool (x != y))
  | .and => .ok (ofBool (x != 0 && y != 0))
  | .or => .ok (ofBool (x != 0 || y != 0))
  | _ => .error .operandsNotIntegral

/-- A binary operator of which an operand is a text: two texts of one kind can be compared
for equality. -/
def binaryText (op : BinaryOperator) (a b : Constant) : Except Cause Constant :=
  match a, b, op with
  | text k s, text l t, .eq =>
    if k = l then .ok (ofBool (s == t)) else .error .operandsIncompatible
  | text k s, text l t, .ne =>
    if k = l then .ok (ofBool (s != t)) else .error .operandsIncompatible
  | _, _, _ => .error .operandsIncompatible

/-- A binary operator on two numbers of one kind. -/
def binarySame (op : BinaryOperator) : Constant → Constant → Except Cause Constant
  | integer k x _, integer _ y _ => binaryInteger op k x y
  | real k x, real _ y => binaryReal op k x y
  | _, _ => .error .operandsIncompatible

/-- A binary operator. The logical operators take the truth values of any numbers; a truth
value has no bits, and two of them cannot be divided. -/
def binary (op : BinaryOperator) (a b : Constant) : Except Cause Constant :=
  let isBool (c : Constant) : Bool := c.kind = .integer .bool
  if a.kind.isText || b.kind.isText then binaryText op a b
  else if op = .and then do
    let x ← a.truth
    let y ← b.truth
    return ofBool (x && y)
  else if op = .or then do
    let x ← a.truth
    let y ← b.truth
    return ofBool (x || y)
  else if op.isBitwise && (isBool a || isBool b) then .error .booleanBitwise
  else if op.isDivision && (isBool a && isBool b) then .error .booleanDivision
  else do
    let (x, y) ← equalize a.promote b.promote
    binarySame op x y

/-- A unary operator on an integer of the kind `k`. -/
def unaryInteger (op : UnaryOperator) (k : IntegerKind) (x : Int) : Constant :=
  match op with
  | .plus => ofInt k x
  | .minus => ofInt k (-x)
  | .not => ofBool (x = 0)
  | .bitNot => ofInt k (-x - 1)

/-- A unary operator. A truth value can only be negated. -/
def unary (op : UnaryOperator) (a : Constant) : Except Cause Constant :=
  match a.promote with
  | text .. => .error .operandsIncompatible
  | real k x =>
    match op with
    | .plus => .ok (.real k x)
    | .minus => .ok (ofFloat k (-x))
    | _ => .error .operandsNotIntegral
  | integer k x _ =>
    if a.kind = .integer .bool then
      match op with
      | .not => .ok (ofBool (x = 0))
      | .bitNot => .error .booleanBitwise
      | _ => .error .booleanSign
    else .ok (unaryInteger op k x)

end Constant

end IdlReader
