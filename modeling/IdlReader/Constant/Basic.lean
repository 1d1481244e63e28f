import IdlReader.Constant.Kind
import IdlReader.Decimal.Numeral

/-!
# Constants

A constant is a kind and a value of that kind. The value of an integer lies in the range of
its kind by construction; a real number is kept at the precision of its kind.

* `kind_ofInt`, `integer?_ofInt`: the integer of a kind that is congruent to a number.
-/

namespace IdlReader

/-- A constant value. -/
inductive Constant where
  | integer (kind : IntegerKind) (value : Int) (inRange : kind.Holds value)
  | real (kind : RealKind) (value : Float)
  | text (kind : TextKind) (content : String)

namespace Constant

/-- The kind of a constant. -/
def kind : Constant → Kind
  | integer k _ _ => .integer k
  | real k _ => .real k
  | text k _ => .text k

/-- The integer of a kind that is congruent to `v` modulo two to the width. -/
def ofInt (k : IntegerKind) (v : Int) : Constant := .integer k (k.wrap v) (k.holds_wrap v)

/-- A truth value. -/
def ofBool (b : Bool) : Constant := ofInt .bool (if b then 1 else 0)

/-- The number of a kind that is nearest to `x`. -/
def ofFloat (k : RealKind) (x : Float) : Constant :=
  .real k (if k = .float then x.toFloat32.toFloat else x)

/-- What stands in for a value that is not there. -/
def absent : Constant := ofBool false

instance : Inhabited Constant := ⟨absent⟩

/-- The value of an integer. -/
def integer? : Constant → Option Int
  | integer _ v _ => some v
  | _ => none

/-- The content of a text. -/
def text? : Constant → Option String
  | text _ s => some s
  | _ => none

/-- Whether two constants have one kind and compare as equal; what is no number equals
nothing. -/
def equals : Constant → Constant → Bool
  | integer k v _, integer l w _ => k == l && v == w
  | real k x, real l y => k == l && x == y
  | text k s, text l t => k == l && s == t
  | _, _ => false

/-- The content of a constant as text, without quotes. -/
def content : Constant → String
  | integer .bool v _ => if v = 0 then "false" else "true"
  | integer _ v _ => toString v
  | real .float x => Decimal.Format.binary32.text x.toFloat32.toBits.toNat
  | real _ x => Decimal.Format.binary64.text x.toBits.toNat
  | text _ s => s

/-- The mark in front of a text of a kind. -/
def encodingMark : TextKind → String
  | .string => ""
  | .string16 => "u"
  | .string32 => "U"
  | .wide => "L"

/-- A constant as text; a text stands between quotes. -/
def display (c : Constant) : String :=
  match c with
  | text k s => encodingMark k ++ "\"" ++ s ++ "\""
  | c => c.content

@[simp] theorem kind_ofInt (k : IntegerKind) (v : Int) : (ofInt k v).kind = .integer k := rfl

@[simp] theorem integer?_ofInt (k : IntegerKind) (v : Int) :
    (ofInt k v).integer? = some (k.wrap v) := rfl

@[simp] theorem kind_ofBool (b : Bool) : (ofBool b).kind = .integer .bool := rfl

end Constant

end IdlReader
