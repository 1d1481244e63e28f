import IdlReader.Decimal.Shortest

/-!
# Decimal numerals

A numeral is a sign, digits with or without a point among them, and an optional exponent;
the words for infinity and for what is no number are numerals too. `Numeral.read?` reads
one and `Numeral.toFloat` gives the nearest number.
-/

namespace IdlReader.Decimal

/-- A numeral. -/
inductive Numeral where
  | number (negative : Bool) (value : Scaled)
  | infinite (negative : Bool)
  | notANumber
deriving DecidableEq, Repr

namespace Numeral

/-- The number that a list of digits writes, behind the digits of `n`. -/
def digitsValue (n : Nat) (digits : List Char) : Nat :=
  digits.foldl (fun v c => v * 10 + (c.toNat - '0'.toNat)) n

/-- A sign and what follows it. -/
def splitSign : List Char → Bool × List Char
  | '-' :: cs => (true, cs)
  | '+' :: cs => (false, cs)
  | cs => (false, cs)

/-- The value of an exponent part: nothing, or `e`, an optional sign and digits. -/
def readExponent? : List Char → Option Int
  | [] => some 0
  | e :: cs =>
    let s := splitSign cs
    if (e == 'e' || e == 'E') && !s.2.isEmpty && s.2.all Char.isDigit then
      let n : Int := digitsValue 0 s.2
      some (if s.1 then -n else n)
    else none

/-- Reads digits, an optional point with digits behind it and an optional exponent. There
is a digit in front of the point or behind it. -/
def readDecimal? (cs : List Char) : Option Scaled :=
  let whole := cs.takeWhile Char.isDigit
  let rest := cs.dropWhile Char.isDigit
  let places := match rest with
    | '.' :: r => r.takeWhile Char.isDigit
    | _ => []
  let tail := match rest with
    | '.' :: r => r.dropWhile Char.isDigit
    | r => r
  if whole.isEmpty && places.isEmpty then none
  else
    (readExponent? tail).map fun e =>
      ⟨digitsValue (digitsValue 0 whole) places, e - places.length⟩

/-- Reads a numeral; the words may be written in any case. -/
def read? (cs : List Char) : Option Numeral :=
  let s := splitSign cs
  let word := String.ofList (s.2.map Char.toLower)
  if word = "inf" ∨ word = "infinity" then some (.infinite s.1)
  else if word = "nan" then some .notANumber
  else (readDecimal? s.2).map (.number s.1)

end Numeral

/-- The bits of the number of a format that is nearest to a decimal. A decimal of more
than 400 places in front of the point lies above every number, one with 400 zeros behind
the point below every number but zero. -/
def Format.encodeDecimal (f : Format) (d : Scaled) : Nat :=
  if d.digits = 0 then 0
  else
    let top := d.exponent + digitCount d.digits
    if 400 < top then f.infinity
    else if top < -400 then 0
    else
      let s := d.fraction
      f.encode s.1 s.2

/-- The bits of the number of a format that is nearest to a numeral. -/
def Format.encodeNumeral (f : Format) : Numeral → Nat
  | .number negative d => f.sign negative (f.encodeDecimal d)
  | .infinite negative => f.sign negative f.infinity
  | .notANumber => f.infinity + Nat.pow 2 (f.precision - 2)

/-- The double-precision number that is nearest to a numeral. -/
def Numeral.toFloat (n : Numeral) : Float :=
  Float.ofBits (Format.binary64.encodeNumeral n).toUInt64

/-- The single-precision number that is nearest to a numeral, at double precision. -/
def Numeral.toSingle (n : Numeral) : Float :=
  (Float32.ofBits (Format.binary32.encodeNumeral n).toUInt32).toFloat

end IdlReader.Decimal
