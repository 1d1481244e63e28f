import IdlReader.Constant.Basic
import IdlReader.Fault

/-!
# Casts

`Constant.cast` changes the kind of a constant without a silent loss. An integer must lie
in the range of the new kind; a negative one becomes unsigned if the signed kind of the same
width holds it. Nothing but an integer becomes an integer, and a text keeps its kind.
`Constant.equalize` brings two numbers to a common kind.

* `kind_cast`: a cast gives the kind that was asked for.
-/

namespace IdlReader

/-- The greatest number of a kind; the least one is its negative. -/
def RealKind.greatest : RealKind → Float
  | fixed => 2147483648
  | float => 3.4028234663852886e38
  | _ => 1.7976931348623157e308

/-- The binary exponent of the smallest positive number of a kind. -/
def RealKind.leastExponent : RealKind → Int
  | fixed => -30
  | float => -125
  | _ => -1021

namespace Constant

/-- The integer `v` of the kind `k` as an integer of the kind `t`. -/
def castInteger (k : IntegerKind) (v : Int) (t : IntegerKind) : Except Cause Constant :=
  if t = .bool then .ok (ofBool (v ≠ 0))
  else if t.greatest < v then .error .castAbove
  else if k.isSigned && !t.isSigned then
    if v < t.signedLeast then .error .castBelowSigned else .ok (ofInt t v)
  else if v < t.least then .error .castBelow
  else .ok (ofInt t v)

/-- The number `x` as a real number of the kind `t`. Unless it came from an integer its
exponent must not lie below those of `t`. -/
def castReal (t : RealKind) (x : Float) (fromInteger : Bool) : Except Cause Constant :=
  if x > t.greatest then .error .castAbove
  else if x < -t.greatest then .error .castBelow
  else if !fromInteger && x != 0 && Decimal.binaryExponent x < t.leastExponent then
    .error .castPrecision
  else .ok (ofFloat t x)

/-- A constant as a constant of another kind. -/
def cast (c : Constant) (target : Kind) : Except Cause Constant :=
  if c.kind = target then .ok c
  else
    match c, target with
    | integer k v _, .integer t => castInteger k v t
    | integer _ v _, .real t => castReal t (Decimal.floatOfInt v) true
    | real _ x, .real t => castReal t x false
    | _, _ => .error .castIncompatible

/-- The value of a constant as an integer of a kind. -/
def castInt (c : Constant) (k : IntegerKind) : Except Cause Int := do
  let d ← c.cast (.integer k)
  match d with
  | integer _ v _ => return v
  | _ => throw .castIncompatible

/-- An integer narrower than 32 bits as an integer of 32 bits; anything else as it is. -/
def promote : Constant → Constant
  | integer k v h => if k.rank < IntegerKind.int32.rank then ofInt .int32 v else integer k v h
  | c => c

/-- The kind to which two kinds are brought. A text has none in common with another kind, and of
kinds with one sign, or with a real one, it is the higher one. Of a signed and an unsigned kind of
integers it is the unsigned one if this is not the lower one, the signed one if this is wider, and
else the unsigned kind of the width of the signed one. -/
def commonKind? (a b : Kind) : Option Kind :=
  if a = b then some a
  else if !a.isArithmetic || !b.isArithmetic then none
  else if a.isReal || b.isReal || a.isSigned == b.isSigned then
    some (if a.rank < b.rank then b else a)
  else
    let (signed, unsigned) := if a.isSigned then (a, b) else (b, a)
    some (if signed.rank ≤ unsigned.rank then unsigned
      else if unsigned.bits < signed.bits then signed
      else signed.unsignedCounterpart)

/-- Two constants brought to their common kind. -/
def equalize (a b : Constant) : Except Cause (Constant × Constant) :=
  match commonKind? a.kind b.kind with
  | none => .error .operandsIncompatible
  | some k => do
    let x ← a.cast k
    let y ← b.cast k
    return (x, y)

theorem kind_castInteger {k t : IntegerKind} {v : Int} {d : Constant}
    (h : castInteger k v t = .ok d) : d.kind = .integer t := by
  unfold castInteger at h
  split at h
  · rename_i ht
    cases h
    rw [ht]
    rfl
  · repeat' split at h
    all_goals cases h
    all_goals rfl

theorem kind_castReal {t : RealKind} {x : Float} {b : Bool} {d : Constant}
    (h : castReal t x b = .ok d) : d.kind = .real t := by
  unfold castReal at h
  repeat' split at h
  all_goals cases h
  rfl

theorem kind_cast {c d : Constant} {k : Kind} (h : c.cast k = .ok d) : d.kind = k := by
  unfold cast at h
  split at h
  · cases h
    assumption
  · split at h
    · exact kind_castInteger h
    · exact kind_castReal h
    · exact kind_castReal h
    · cases h

end Constant

end IdlReader
