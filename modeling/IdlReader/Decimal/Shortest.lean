import IdlReader.Decimal.Binary

/-!
# The shortest decimal text of a number

A number m · 2^q of a binary format stands for every real number that rounds to it. Its
shortest decimal is the one with the fewest digits among those; of several it is the
nearest to the number itself, and the larger one of two equally near. `Format.text`
writes it without an exponent.
-/

namespace IdlReader.Decimal

/-- The number of decimal digits of a number. -/
def digitCount (n : Nat) : Nat := (Nat.toDigits 10 n).length

/-- The largest `k` such that 10^k is at most the positive fraction num / den. -/
def log10Fraction (num den : Nat) : Int :=
  if den ≤ num then (digitCount (num / den) : Int) - 1
  else -(digitCount ((den - 1) / num) : Int)

/-- Whether the fraction a / b is below, at or above c / d. -/
def compareFractions (a b c d : Nat) : Ordering := compare (a * d) (c * b)

/-- A decimal number: digits · 10^exponent. -/
structure Scaled where
  digits : Nat
  exponent : Int
deriving DecidableEq, Repr

/-- A decimal number as a fraction. -/
def Scaled.fraction (d : Scaled) : Nat × Nat :=
  if 0 ≤ d.exponent then (d.digits * Nat.pow 10 d.exponent.toNat, 1)
  else (d.digits, Nat.pow 10 (-d.exponent).toNat)

/-- The real numbers that round to one number of a binary format: from `lower` to `upper`,
all over one denominator, with or without these two. -/
structure Neighbourhood where
  lower : Nat
  value : Nat
  upper : Nat
  denominator : Nat
  closed : Bool
deriving DecidableEq, Repr

/-- The neighbourhood of m · 2^q. It reaches half way to the next numbers, and the number
below a power of two is nearer than the one above. Its ends round to the even mantissa. -/
def Format.neighbourhood (f : Format) (m : Nat) (q : Int) : Neighbourhood :=
  let s := shifted 1 4 q
  let gap := if m = Nat.pow 2 (f.precision - 1) ∧ f.lowest < q then 1 else 2
  ⟨(4 * m - gap) * s.1, 4 * m * s.1, (4 * m + 2) * s.1, s.2, m % 2 == 0⟩

namespace Neighbourhood

/-- Whether a fraction lies in a neighbourhood. -/
def contains (n : Neighbourhood) (num den : Nat) : Bool :=
  match compareFractions n.lower n.denominator num den,
    compareFractions num den n.upper n.denominator with
  | .lt, .lt => true
  | .gt, _ => false
  | _, .gt => false
  | _, _ => n.closed

/-- The decimal of a neighbourhood on the grid of the multiples of 10^k: one of the two
that enclose its value. -/
def onGrid (n : Neighbourhood) (k : Int) : Option Scaled :=
  let unit := Scaled.fraction ⟨1, k⟩
  let below : Scaled := ⟨n.value * unit.2 / (n.denominator * unit.1), k⟩
  let above : Scaled := ⟨below.digits + 1, k⟩
  match n.contains below.fraction.1 below.fraction.2,
    n.contains above.fraction.1 above.fraction.2 with
  | false, false => none
  | true, false => some below
  | false, true => some above
  | true, true =>
    let twice := compareFractions (2 * n.value) n.denominator
      ((below.digits + above.digits) * unit.1) unit.2
    if twice == .lt then some below else some above

/-- The first decimal on a grid of `digits`, `digits + 1`, … significant digits, `left`
grids long. -/
def firstOnGrid (n : Neighbourhood) (top : Int) : Nat → Nat → Option Scaled
  | _, 0 => none
  | digits, left + 1 =>
    match n.onGrid (top - digits + 1) with
    | some d => some d
    | none => n.firstOnGrid top (digits + 1) left

end Neighbourhood

/-- A decimal whose last digit is a zero, without that digit. -/
def Scaled.coarsen (d : Scaled) : Scaled :=
  if d.digits % 10 = 0 then ⟨d.digits / 10, d.exponent + 1⟩ else d

/-- The shortest decimal of the positive number m · 2^q. A number just below a power of
ten may round to ten units of the first grid, which is one digit and a zero. -/
def Format.shortest (f : Format) (m : Nat) (q : Int) : Scaled :=
  let n := f.neighbourhood m q
  let top := log10Fraction n.value n.denominator
  ((n.firstOnGrid top 1 17).getD ⟨n.value / n.denominator, 0⟩).coarsen

/-- A decimal number without an exponent: zeros fill the places up to the units, and a
point stands in front of the places behind them. -/
def Scaled.text (d : Scaled) : String :=
  let digits := Nat.toDigits 10 d.digits
  if 0 ≤ d.exponent then
    String.ofList (digits ++ List.replicate d.exponent.toNat '0')
  else
    let places := (-d.exponent).toNat
    let filled := List.replicate (places + 1 - digits.length) '0' ++ digits
    let whole := filled.length - places
    String.ofList (filled.take whole ++ '.' :: filled.drop whole)

/-- The text of the number with certain bits. -/
def Format.text (f : Format) (bits : Nat) : String :=
  match f.decode bits with
  | .notANumber => "NaN"
  | .infinite negative => if negative then "-inf" else "inf"
  | .finite negative m q =>
    let text := if m = 0 then "0" else (f.shortest m q).text
    if negative then "-" ++ text else text

end IdlReader.Decimal
