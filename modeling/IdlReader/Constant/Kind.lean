/-!
# Kinds of constants

A constant is an integer of one of nine ranges, a real number of one of four precisions, or
a text of one of four encodings. The seventeen kinds are ordered by rank.

* `IntegerKind.holds_wrap`: the residue of an integer for a kind lies in its range.
* `IntegerKind.wrap_of_holds`: an integer in range is its own residue.
-/

namespace IdlReader

/-- The kinds of integers. -/
inductive IntegerKind where
  | bool
  | int8
  | uint8
  | int16
  | uint16
  | int32
  | uint32
  | int64
  | uint64
deriving DecidableEq, Repr

/-- The kinds of real numbers. -/
inductive RealKind where
  | fixed
  | float
  | double
  | longDouble
deriving DecidableEq, Repr

/-- The kinds of texts. -/
inductive TextKind where
  | string
  | string16
  | string32
  | wide
deriving DecidableEq, Repr

namespace IntegerKind

/-- The place in the order of kinds. -/
def rank : IntegerKind → Nat
  | bool => 0
  | int8 => 1
  | uint8 => 2
  | int16 => 3
  | uint16 => 4
  | int32 => 5
  | uint32 => 6
  | int64 => 7
  | uint64 => 8

/-- The width. -/
def bits : IntegerKind → Nat
  | bool => 1
  | int8 | uint8 => 8
  | int16 | uint16 => 16
  | int32 | uint32 => 32
  | int64 | uint64 => 64

def isSigned : IntegerKind → Bool
  | int8 | int16 | int32 | int64 => true
  | _ => false

/-- The least integer of a signed kind of the same width. -/
def signedLeast (k : IntegerKind) : Int := -(Int.pow 2 (k.bits - 1))

/-- The least integer of a kind. -/
def least (k : IntegerKind) : Int := if k.isSigned then k.signedLeast else 0

/-- The greatest integer of a kind. -/
def greatest (k : IntegerKind) : Int :=
  if k.isSigned then Int.pow 2 (k.bits - 1) - 1 else Int.pow 2 k.bits - 1

/-- Whether an integer lies in the range of a kind. -/
def Holds (k : IntegerKind) (v : Int) : Prop := k.least ≤ v ∧ v ≤ k.greatest

instance (k : IntegerKind) (v : Int) : Decidable (k.Holds v) :=
  inferInstanceAs (Decidable (_ ∧ _))

/-- The integer of a kind that is congruent to `v` modulo two to the width. -/
def wrap (k : IntegerKind) (v : Int) : Int :=
  if k.isSigned then Int.bmod v (Nat.pow 2 k.bits) else v % Int.pow 2 k.bits

theorem holds_wrap (k : IntegerKind) (v : Int) : k.Holds (k.wrap v) := by
  have hPow (n : Nat) : Int.pow 2 n = 2 ^ n := rfl
  have hNatPow (n : Nat) : Nat.pow 2 n = 2 ^ n := rfl
  cases k <;>
    simp only [Holds, wrap, least, greatest, isSigned, signedLeast, bits, Int.bmod, hPow, hNatPow,
      Bool.false_eq_true, if_true, if_false] <;> omega

theorem wrap_of_holds {k : IntegerKind} {v : Int} (h : k.Holds v) : k.wrap v = v := by
  revert h
  have hPow (n : Nat) : Int.pow 2 n = 2 ^ n := rfl
  have hNatPow (n : Nat) : Nat.pow 2 n = 2 ^ n := rfl
  cases k <;>
    simp only [Holds, wrap, least, greatest, isSigned, signedLeast, bits, Int.bmod, hPow, hNatPow,
      Bool.false_eq_true, if_true, if_false] <;> omega

end IntegerKind

/-- The place of a kind of real numbers in the order of kinds. -/
def RealKind.rank : RealKind → Nat
  | fixed => 9
  | float => 10
  | double => 11
  | longDouble => 12

/-- The place of a kind of texts in the order of kinds. -/
def TextKind.rank : TextKind → Nat
  | string => 13
  | string16 => 14
  | string32 => 15
  | wide => 16

/-- The kinds of constants. -/
inductive Kind where
  | integer (kind : IntegerKind)
  | real (kind : RealKind)
  | text (kind : TextKind)
deriving DecidableEq, Repr

namespace Kind

/-- All kinds in the order of their ranks. -/
def all : List Kind :=
  [.integer .bool, .integer .int8, .integer .uint8, .integer .int16, .integer .uint16,
    .integer .int32, .integer .uint32, .integer .int64, .integer .uint64, .real .fixed,
    .real .float, .real .double, .real .longDouble, .text .string, .text .string16,
    .text .string32, .text .wide]

/-- The place in the order of kinds. -/
def rank : Kind → Nat
  | integer k => k.rank
  | real k => k.rank
  | text k => k.rank

/-- The width of a number of a kind; a text counts as 64 bits. -/
def bits : Kind → Nat
  | integer k => k.bits
  | real .fixed | real .float => 32
  | _ => 64

def isIntegral : Kind → Bool
  | integer _ => true
  | _ => false

def isSigned : Kind → Bool
  | integer k => k.isSigned
  | _ => false

def isUnsigned : Kind → Bool
  | integer k => !k.isSigned
  | _ => false

def isReal : Kind → Bool
  | real _ => true
  | _ => false

def isText : Kind → Bool
  | text _ => true
  | _ => false

def isArithmetic (k : Kind) : Bool := !k.isText

/-- The unsigned kind of the width of a signed one; another kind stays. -/
def unsignedCounterpart : Kind → Kind
  | integer .int8 => integer .uint8
  | integer .int16 => integer .uint16
  | integer .int32 => integer .uint32
  | integer .int64 => integer .uint64
  | k => k

end Kind

end IdlReader
