import IdlReader.Constant.Cast
import IdlReader.Text.Blank
import IdlReader.Text.Escape
import IdlReader.Token

/-!
# Literals

`Constant.ofLiteral` is the constant that a literal token writes. An integer gets the first
kind of its ladder that holds it: the signed kinds, or the unsigned ones behind a suffix `u`.
-/

namespace IdlReader.Constant

/-- Whether a letter is a suffix of integers. -/
def isIntegerSuffix (c : Char) : Bool := c == 'u' || c == 'U' || c == 'l' || c == 'L'

/-- The number that digits write in a radix. -/
def digitsValue? (radix : Nat) (digits : List Char) : Option Nat :=
  digits.foldlM (fun v c => (Text.digitValue? radix c).map (v * radix + ·)) 0

/-- The first kind of a ladder that holds `v`. -/
def firstKind? (ladder : List IntegerKind) (v : Nat) : Option IntegerKind :=
  ladder.find? fun k => decide ((v : Int) ≤ k.greatest)

/-- The kinds of integers without a suffix `u`. -/
def signedLadder : List IntegerKind := [.int8, .int16, .int32, .int64]

/-- The kinds of integers with a suffix `u`. -/
def unsignedLadder : List IntegerKind := [.uint8, .uint16, .uint32, .uint64]

/-- The integer that digits with suffix letters write in a radix. Only one that is not
written in decimals may leave the signed kinds without a suffix `u`. -/
def integerOf (radix : Nat) (text : List Char) : Except Cause Constant :=
  let digits := Text.dropTrailing isIntegerSuffix text
  let suffix := text.drop digits.length
  let isUnsigned := suffix.any fun c => c == 'u' || c == 'U'
  match digitsValue? radix digits with
  | none => .error .integerTooLarge
  | some v =>
    if IntegerKind.uint64.greatest < v then .error .integerTooLarge
    else
      match firstKind? (if isUnsigned then unsignedLadder else signedLadder) v with
      | some k => .ok (ofInt k v)
      | none =>
        if radix = 10 then .error .signedIntegerTooLarge else .ok (ofInt .uint64 v)

/-- The number that a numeral writes; its kind depends on the suffix letter. -/
def floatingOf (text : List Char) : Except Cause Constant :=
  let isSuffix (c : Char) : Bool := c == 'f' || c == 'F' || c == 'l' || c == 'L'
  let digits := Text.dropTrailing isSuffix text
  match Decimal.Numeral.read? digits with
  | none => .error .badFloatingPoint
  | some n =>
    match (text.drop digits.length).head? with
    | some 'f' | some 'F' => (Constant.real .double n.toFloat).cast (.real .float)
    | some 'l' | some 'L' => .ok (.real .longDouble n.toFloat)
    | _ => .ok (.real .double n.toFloat)

/-- The fixed-point number that a numeral with the suffix `d` writes. -/
def fixedOf (text : List Char) : Except Cause Constant :=
  match Decimal.Numeral.read? (Text.dropTrailing (fun c => c == 'd' || c == 'D') text) with
  | none => .error .badFixedPoint
  | some n => .ok (.real .fixed n.toFloat)

/-- The encoding prefix of a quoted literal and the text between its quotes. -/
def unquote (text : List Char) : List Char × List Char :=
  let isQuote (c : Char) : Bool := c == '"' || c == '\''
  (text.takeWhile fun c => !isQuote c, ((text.dropWhile fun c => !isQuote c).drop 1).dropLast)

/-- The kind of characters behind an encoding prefix. -/
def characterKind (encoding : List Char) : IntegerKind :=
  match encoding with
  | ['u', '8'] => .uint8
  | ['u'] => .uint16
  | ['U'] | ['L'] => .uint32
  | _ => .int8

/-- The kind of texts behind an encoding prefix. -/
def textKind (encoding : List Char) : TextKind :=
  match encoding with
  | ['u'] => .string16
  | ['U'] => .string32
  | ['L'] => .wide
  | _ => .string

/-- The code of the first character of a character literal. -/
def characterOf (text : List Char) : Except Cause Constant := do
  let (encoding, quoted) := unquote text
  let content ← Text.unescape quoted
  match content with
  | [] => throw .emptyCharacter
  | c :: _ =>
    let k := characterKind encoding
    if k.greatest < c.toNat then throw .characterOutOfRange else return ofInt k c.toNat

/-- The text that a string literal writes. -/
def stringOf (text : List Char) : Except Cause Constant := do
  let (encoding, quoted) := unquote text
  let content ← Text.unescape quoted
  return .text (textKind encoding) (String.ofList content)

/-- The constant that a literal of a kind writes. -/
def ofLiteralText (kind : LiteralKind) (text : List Char) : Except Cause Constant :=
  match kind with
  | .boolean => .ok (ofBool (text.map Char.toLower == ['t', 'r', 'u', 'e']))
  | .null => .ok (ofInt .int32 0)
  | .decInteger => integerOf 10 text
  | .hexInteger => integerOf 16 (text.drop 2)
  | .binInteger => integerOf 2 (text.drop 2)
  | .octInteger => integerOf 8 (text.drop 1)
  | .floating => floatingOf text
  | .fixed => fixedOf text
  | .character => characterOf text
  | .string => stringOf text

/-- The constant that a literal token writes. -/
def ofLiteral (t : Token) : Except Fault Constant :=
  match t.kind with
  | .literal kind =>
    (ofLiteralText kind t.text.toList).mapError fun cause => (Fault.of cause).placed t.position
  | _ => .error ((Fault.of .literalExpected).placed t.position)

end IdlReader.Constant
