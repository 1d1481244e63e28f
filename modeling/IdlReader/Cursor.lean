import IdlReader.Position
import IdlReader.Text.Blank
import IdlReader.Text.Bytes

/-!
# Cursors

A cursor stands at a byte of a text and knows its line and column. It moves forward byte
by byte (`bump`), over a whole text (`moveOver`), to the end of the line (`skipLine`) or over a
logical line, whose physical lines are joined by backslashes (`readLogicalLine`).

* `logicalLine_append`: a logical line and what is left make up the text.
-/

namespace IdlReader

/-- A place in a text: the characters before it with the latest first, the characters from
it on, and how many bytes of the first of these lie before it. -/
structure Cursor where
  past : List Char
  within : Nat
  rest : List Char
  position : Position
deriving DecidableEq, Repr

namespace Cursor

/-- The cursor at the start of a text. -/
def ofText (text : List Char) : Cursor := ⟨[], 0, text, Position.start⟩

/-- The whole text of a cursor. -/
def text (c : Cursor) : List Char := c.past.reverse ++ c.rest

/-- The number of bytes in front of a cursor. -/
def offset (c : Cursor) : Nat := Text.byteSize c.past + c.within

/-- Whether a cursor stands at the end. -/
def atEnd (c : Cursor) : Bool := c.rest.isEmpty

/-- The bytes from a cursor on. -/
def bytesAhead (c : Cursor) : List UInt8 := (Text.bytes c.rest).drop c.within

/-- The byte that lies `n` bytes ahead. -/
def peek? (c : Cursor) (n : Nat) : Option UInt8 := c.bytesAhead[n]?

/-- Whether a text stands at a cursor. -/
def startsWith (c : Cursor) (s : List Char) : Bool :=
  (Text.bytes s).isPrefixOf c.bytesAhead

/-- Moves over one byte; at the end there is none. -/
def bump (c : Cursor) : Option UInt8 × Cursor :=
  match c.rest with
  | [] => (none, c)
  | d :: rest =>
    let byte := (Text.charBytes d)[c.within]?
    let position :=
      if d = '\n' then ⟨c.position.line + 1, 1⟩ else ⟨c.position.line, c.position.col + 1⟩
    if c.within + 1 < d.utf8Size then
      (byte, { c with within := c.within + 1, position })
    else (byte, ⟨d :: c.past, 0, rest, position⟩)

/-- Moves over `n` bytes, or to the end. -/
def bumpMany (c : Cursor) : Nat → Cursor
  | 0 => c
  | n + 1 => c.bump.2.bumpMany n

/-- Where the first of the remaining characters starts. -/
def characterStart (c : Cursor) : Position := ⟨c.position.line, c.position.col - c.within⟩

/-- Moves over the characters `read`, behind which `rest` follows. -/
def moveOver (c : Cursor) (read rest : List Char) : Cursor :=
  ⟨read.reverse ++ c.past, 0, rest, c.characterStart.advance read⟩

/-- The text between two byte offsets; empty unless these are boundaries between
characters. -/
def slice (c : Cursor) (first last : Nat) : List Char :=
  (Text.sliceBytes c.text first last).getD []

/-- Whether only blanks stand in front of a cursor on its line. -/
def atLineStart (c : Cursor) : Bool :=
  c.within == 0 &&
    (c.past.takeWhile (· ≠ '\n')).all fun d => d == ' ' || d == '\t' || d == '\r'

/-- Moves to the end of the line. -/
def skipLine (c : Cursor) : Cursor :=
  c.moveOver (c.rest.takeWhile (· ≠ '\n')) (c.rest.dropWhile (· ≠ '\n'))

end Cursor

namespace Text

/-- A logical line, the text it was read from and what is left behind it. A backslash at
the end of a physical line becomes a space, and the next line follows. A carriage return
in front of the end of a line belongs to the end. -/
def logicalLine : List Char → List Char × List Char × List Char
  | [] => ([], [], [])
  | ['\\'] => ([' '], ['\\'], [])
  | ['\\', '\r'] => ([' '], ['\\', '\r'], [])
  | ['\r'] => ([], ['\r'], [])
  | '\n' :: s => ([], ['\n'], s)
  | '\r' :: '\n' :: s => ([], ['\r', '\n'], s)
  | '\\' :: '\n' :: s =>
    let l := logicalLine s
    (' ' :: l.1, '\\' :: '\n' :: l.2.1, l.2.2)
  | '\\' :: '\r' :: '\n' :: s =>
    let l := logicalLine s
    (' ' :: l.1, '\\' :: '\r' :: '\n' :: l.2.1, l.2.2)
  | c :: s =>
    let l := logicalLine s
    (c :: l.1, c :: l.2.1, l.2.2)

theorem logicalLine_append (s : List Char) : (logicalLine s).2.1 ++ (logicalLine s).2.2 = s := by
  fun_induction logicalLine s <;> simp_all +zetaDelta

end Text

namespace Cursor

/-- Reads what is left of the logical line and moves behind it. From inside of a character
nothing but the end of the line is read. -/
def readLogicalLine (c : Cursor) : List Char × Cursor :=
  if c.within = 0 then
    let l := Text.logicalLine c.rest
    (l.1, c.moveOver l.2.1 l.2.2)
  else ([], c.skipLine.bump.2)

end Cursor

end IdlReader
