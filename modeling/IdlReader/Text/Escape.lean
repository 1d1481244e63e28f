import IdlReader.Fault

/-!
# Escape sequences

`unescape` replaces the escape sequences of a character or string literal by the
characters they stand for. A backslash starts a sequence: one letter for a control
character, a quote or a backslash for itself, `x`, `u` or `U` in front of at most two,
four or eight hexadecimal digits, or one to three octal digits.
-/

namespace IdlReader.Text

/-- The value of a digit in a radix up to sixteen. -/
def digitValue? (radix : Nat) (c : Char) : Option Nat :=
  let v :=
    if '0' ≤ c ∧ c ≤ '9' then c.toNat - '0'.toNat
    else if 'a' ≤ c ∧ c ≤ 'f' then c.toNat - 'a'.toNat + 10
    else if 'A' ≤ c ∧ c ≤ 'F' then c.toNat - 'A'.toNat + 10
    else radix
  if v < radix then some v else none

/-- The character with a code point. -/
def charOfCode? (code : Nat) : Option Char :=
  if code.isValidChar then some (Char.ofNat code) else none

/-- Where the reader of an escaped text stands. -/
inductive EscapeState where
  /-- Outside of escape sequences. -/
  | plain
  /-- Behind the backslash of a sequence. -/
  | backslash
  /-- Inside the digits of a sequence: how many more may follow, the code read so far, and
  whether a digit has been read. -/
  | digits (radix left code : Nat) (seen : Bool)
deriving DecidableEq, Repr

/-- What the character behind a backslash stands for: itself or another character, or the
start of a run of digits. -/
def EscapeState.escaped? (c : Char) : Option (Char ⊕ EscapeState) :=
  match c with
  | 'n' => some (.inl '\n')
  | 't' => some (.inl '\t')
  | 'r' => some (.inl '\r')
  | 'a' => some (.inl '\x07')
  | 'b' => some (.inl '\x08')
  | 'f' => some (.inl '\x0c')
  | 'v' => some (.inl '\x0b')
  | '\\' => some (.inl '\\')
  | '\'' => some (.inl '\'')
  | '"' => some (.inl '"')
  | '?' => some (.inl '?')
  | 'x' => some (.inr (.digits 16 2 0 false))
  | 'u' => some (.inr (.digits 16 4 0 false))
  | 'U' => some (.inr (.digits 16 8 0 false))
  | c => (digitValue? 8 c).map fun d => .inr (.digits 8 2 d true)

/-- The character that a finished run of digits stands for. -/
def EscapeState.decode (code : Nat) (seen : Bool) : Except Cause Char :=
  if seen then
    match charOfCode? code with
    | some c => .ok c
    | none => .error .badCharacterCode
  else .error .badEscape

/-- Reads an escaped text from a state on. -/
def unescapeFrom : EscapeState → List Char → Except Cause (List Char)
  | .plain, [] => .ok []
  | .backslash, [] => .error .badEscape
  | .digits _ _ code seen, [] => do
    let c ← EscapeState.decode code seen
    return [c]
  | .plain, c :: cs =>
    if c = '\\' then unescapeFrom .backslash cs
    else do
      let text ← unescapeFrom .plain cs
      return c :: text
  | .backslash, c :: cs =>
    match EscapeState.escaped? c with
    | none => .error .badEscape
    | some (.inl d) => do
      let text ← unescapeFrom .plain cs
      return d :: text
    | some (.inr state) => unescapeFrom state cs
  | .digits radix left code seen, c :: cs =>
    match if left = 0 then none else digitValue? radix c with
    | some d => unescapeFrom (.digits radix (left - 1) (code * radix + d) true) cs
    | none => do
      let e ← EscapeState.decode code seen
      if c = '\\' then
        let text ← unescapeFrom .backslash cs
        return e :: text
      else
        let text ← unescapeFrom .plain cs
        return e :: c :: text

/-- Replaces the escape sequences of a text. -/
def unescape (text : List Char) : Except Cause (List Char) := unescapeFrom .plain text

end IdlReader.Text
