/-!
# Binary floating-point formats

A format stores the numbers m · 2^q whose mantissa `m` has a bounded number of bits and
whose exponent `q` lies in a range. `Format.encode` rounds a positive fraction to the
nearest such number, a tie to an even mantissa, and gives its bits; `Format.decode` reads
bits back.
-/

namespace IdlReader.Decimal

/-- A binary format: the bits of its mantissas, the width of its exponent field, and the
exponent of the lowest bit that it can store. -/
structure Format where
  precision : Nat
  exponentBits : Nat
  lowest : Int
deriving DecidableEq, Repr

namespace Format

/-- The format of 64 bits. -/
def binary64 : Format := ⟨53, 11, -1074⟩

/-- The format of 32 bits. -/
def binary32 : Format := ⟨24, 8, -149⟩

/-- The bits of infinity; every finite number has fewer. -/
def infinity (f : Format) : Nat := (Nat.pow 2 f.exponentBits - 1) * Nat.pow 2 (f.precision - 1)

/-- The bit that holds the sign. -/
def signBit (f : Format) : Nat := Nat.pow 2 (f.exponentBits + f.precision - 1)

end Format

/-- What the bits of a format stand for: m · 2^q, infinity, or no number. -/
inductive Reading where
  | finite (negative : Bool) (mantissa : Nat) (exponent : Int)
  | infinite (negative : Bool)
  | notANumber
deriving DecidableEq, Repr

/-- The quotient of two numbers rounded to the nearest integer, a tie to the even one. -/
def roundDiv (num den : Nat) : Nat :=
  let q := num / den
  let r := 2 * (num % den)
  if r < den then q
  else if den < r then q + 1
  else q + q % 2

/-- The fraction num · 2^e / den as a quotient of integers. -/
def shifted (num den : Nat) (e : Int) : Nat × Nat :=
  if 0 ≤ e then (num * Nat.pow 2 e.toNat, den) else (num, den * Nat.pow 2 (-e).toNat)

/-- The largest `e` such that 2^e is at most the positive fraction num / den. -/
def log2Fraction (num den : Nat) : Int :=
  let e := (num.log2 : Int) - den.log2
  let s := shifted num den (-e)
  if s.2 ≤ s.1 then e else e - 1

namespace Format

/-- The bits of the number of a format that is nearest to num / den, without a sign. -/
def encode (f : Format) (num den : Nat) : Nat :=
  if num = 0 then 0
  else
    let q := max f.lowest (log2Fraction num den - (f.precision - 1 : Nat))
    let s := shifted num den (-q)
    min f.infinity ((q - f.lowest).toNat * Nat.pow 2 (f.precision - 1) + roundDiv s.1 s.2)

/-- Bits with a sign in front of them. -/
def sign (f : Format) (negative : Bool) (bits : Nat) : Nat :=
  if negative then f.signBit + bits else bits

/-- What bits stand for. -/
def decode (f : Format) (bits : Nat) : Reading :=
  let negative := decide (f.signBit ≤ bits)
  let rest := bits % f.signBit
  let hidden := Nat.pow 2 (f.precision - 1)
  if rest = f.infinity then .infinite negative
  else if f.infinity < rest then .notANumber
  else if rest < hidden then .finite negative rest f.lowest
  else .finite negative (hidden + rest % hidden) (f.lowest + (rest / hidden - 1 : Nat))

end Format

/-- The double-precision number that is nearest to an integer. -/
def floatOfInt (v : Int) : Float :=
  let f := Format.binary64
  Float.ofBits (f.sign (decide (v < 0)) (f.encode v.natAbs 1)).toUInt64

/-- What a double-precision number stands for. -/
def reading (x : Float) : Reading := Format.binary64.decode x.toBits.toNat

/-- The number of bits in front of the binary point: the `e` such that the absolute value
of a number is m · 2^e with ½ ≤ m < 1. Zero has none; infinity and what is no number have
one more than any other number. -/
def binaryExponent (x : Float) : Int :=
  match reading x with
  | .finite _ 0 _ => 0
  | .finite _ m q => m.log2 + 1 + q
  | _ => 1025

end IdlReader.Decimal
