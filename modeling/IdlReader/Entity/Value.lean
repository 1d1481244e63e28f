import IdlReader.Expression
import IdlReader.Text.Blank

/-!
# Values of declarations

The value of a declaration is a scalar, a list of elements, or members with names. A path
of accessors such as `.member[2]` leads to a part of a value.

* `navigate_append`: a path leads on from where its first part ends.
-/

namespace IdlReader

/-- The value of a declaration. -/
inductive ValueNode where
  | unassigned
  | simple (value : Evaluated)
  | array (elements : List ValueNode)
  | compound (members : List (String × ValueNode))
deriving Inhabited

/-- A step into a value. -/
inductive Accessor where
  | member (name : String)
  | index (i : Nat)
deriving DecidableEq, Repr

/-- Whether two names are equal, up to the case of ASCII letters unless
`caseSensitive`. -/
def sameName (caseSensitive : Bool) (a b : String) : Bool :=
  if caseSensitive then a == b
  else a.toList.map Char.toLower == b.toList.map Char.toLower

namespace ValueNode

/-- A known scalar. -/
def ofConstant (c : Constant) : ValueNode := simple (.known c)

/-- The scalar, if it is known. -/
def constant? : ValueNode → Option Constant
  | simple (.known c) => some c
  | _ => none

/-- An element of an array. -/
def element? : ValueNode → Nat → Option ValueNode
  | array elements, i => elements[i]?
  | _, _ => none

/-- A member of a compound value. -/
def member? (caseSensitive : Bool) : ValueNode → String → Option ValueNode
  | compound members, name =>
    (members.find? fun m => sameName caseSensitive m.1 name).map Prod.snd
  | _, _ => none

/-- One step into a value. -/
def access? (caseSensitive : Bool) (v : ValueNode) : Accessor → Option ValueNode
  | .member name => v.member? caseSensitive name
  | .index i => v.element? i

/-- The part of a value to which accessors lead. -/
def navigate? (caseSensitive : Bool) (v : ValueNode) : List Accessor → Option ValueNode
  | [] => some v
  | a :: as =>
    match v.access? caseSensitive a with
    | some w => w.navigate? caseSensitive as
    | none => none

theorem navigate_append (cs : Bool) (v : ValueNode) (as bs : List Accessor) :
    v.navigate? cs (as ++ bs) = (v.navigate? cs as).bind (·.navigate? cs bs) := by
  induction as generalizing v with
  | nil => rfl
  | cons a as ih =>
    simp only [List.cons_append, navigate?]
    split
    · exact ih _
    · rfl

mutual

/-- A value as text. -/
def display : ValueNode → String
  | unassigned => ""
  | simple .dynamic => "<dynamic>"
  | simple (.known c) => c.display
  | array elements => "\x7b" ++ ", ".intercalate (displayElements elements) ++ "\x7d"
  | compound members => "\x7b" ++ ", ".intercalate (displayMembers members) ++ "\x7d"

/-- The texts of elements. -/
def displayElements : List ValueNode → List String
  | [] => []
  | v :: vs => v.display :: displayElements vs

/-- The texts of members behind their names. -/
def displayMembers : List (String × ValueNode) → List String
  | [] => []
  | (name, v) :: ms => (name ++ ": " ++ v.display) :: displayMembers ms

end

end ValueNode

/-! ## Paths -/

namespace Accessor

/-- Whether a character ends a name in a path of accessors. -/
def endsName (c : Char) : Bool := c == '.' || c == '['

/-- The number that an index writes: digits behind an optional plus sign, up to 64 bits. -/
def readIndex? (text : List Char) : Option Nat :=
  let digits := match Text.trim text with
    | '+' :: s => s
    | s => s
  let n : Nat := digits.foldl (fun n c => n * 10 + (c.toNat - '0'.toNat)) 0
  if digits.isEmpty || !digits.all Char.isDigit || decide (Nat.pow 2 64 ≤ n) then none else some n

/-- Reads accessors such as `.member[2]`. -/
def readAll? : (budget : Nat) → List Char → Option (List Accessor)
  | _, [] => some []
  | 0, _ => none
  | n + 1, c :: s =>
    if c = '.' then
      let name := s.takeWhile fun c => !endsName c
      if name.isEmpty then none
      else
        (readAll? n (s.dropWhile fun c => !endsName c)).map
          (.member (String.ofList name) :: ·)
    else if c = '[' then
      match s.dropWhile (· ≠ ']') with
      | [] => none
      | _ :: rest => do
        let i ← readIndex? (s.takeWhile (· ≠ ']'))
        let as ← readAll? n rest
        return .index i :: as
    else none

/-- Splits a path such as `A::B.member[2]` into a scoped name and accessors. -/
def readPath? (path : List Char) : Option (List Char × List Accessor) :=
  let rest := path.dropWhile fun c => !endsName c
  (readAll? rest.length rest).map fun as => (path.takeWhile fun c => !endsName c, as)

end Accessor

end IdlReader
