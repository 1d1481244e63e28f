import IdlReader.Cursor
import IdlReader.Fault
import IdlReader.Token
import IdlReader.Token.Lexicon

/-!
# From text to tokens

`Lexeme.read` takes the first token off a text that starts with no white space. It is a
choice by the first characters among scanners of one kind of token each: words, numbers,
quoted literals, comments, separators and operators. `Token.next` reads the next token
from a cursor, `tokenize` all tokens of a text.

A lexeme splits its text: what it covers, in front of what is left (`Lexeme.Splits`).
-/

namespace IdlReader

/-- The first token of a text: its kind, its text, characters behind it that belong to it
but not to its text, and what is left. -/
structure Lexeme where
  kind : TokenKind
  text : List Char
  dropped : List Char := []
  rest : List Char
deriving DecidableEq, Repr

namespace Lexeme

/-- Whether a lexeme is a part of `s` in front of the rest. -/
def Splits (l : Lexeme) (s : List Char) : Prop := l.text ++ l.dropped ++ l.rest = s

/-- The white space between tokens. -/
def isSpace (c : Char) : Bool :=
  c == ' ' || c == '\t' || c == '\n' || c == '\r' || c == '\x0c'

/-! ## Comments -/

/-- A comment up to the end of its line; carriage returns at its end are no part of its
text. -/
def lineComment (s : List Char) : Lexeme :=
  let line := s.takeWhile (· ≠ '\n')
  let text := Text.dropTrailing (· == '\r') line
  { kind := .comment, text, dropped := line.drop text.length,
    rest := s.dropWhile (· ≠ '\n') }

/-- The text up to the end of a block comment, which belongs to it, and what is left. -/
def throughTerminator : List Char → Option (List Char × List Char)
  | [] => none
  | '*' :: '/' :: s => some (['*', '/'], s)
  | c :: s => (throughTerminator s).map fun r => (c :: r.1, r.2)

/-- A comment between `/*` and the next `*/`. -/
def blockComment (p : Position) (s : List Char) : Except Fault Lexeme :=
  match throughTerminator (s.drop 2) with
  | some (body, rest) => .ok { kind := .comment, text := s.take 2 ++ body, rest }
  | none => failAt .unterminatedComment p

/-! ## Quoted literals -/

/-- The text through the closing quote, and what is left. A backslash hides the character
behind it, which may even be the end of the line. -/
def throughQuote (quote : Char) : List Char → Option (List Char × List Char)
  | [] => none
  | ['\\'] => none
  | '\\' :: c :: s => (throughQuote quote s).map fun r => ('\\' :: c :: r.1, r.2)
  | c :: s =>
    if c = '\n' then none
    else if c = quote then some ([c], s)
    else (throughQuote quote s).map fun r => (c :: r.1, r.2)

/-- Whether a character opens a quoted literal. -/
def isQuote (c : Char) : Bool := c == '"' || c == '\''

/-- A literal in the quotes that `s` starts with, behind an encoding prefix. -/
def quoted (p : Position) (encoding : List Char) (s : List Char) : Except Fault Lexeme :=
  match s with
  | [] => failAt .unterminatedString p
  | quote :: body =>
    match throughQuote quote body with
    | some (text, rest) =>
      let kind := if quote = '"' then LiteralKind.string else .character
      .ok { kind := .literal kind, text := encoding ++ quote :: text, rest }
    | none =>
      failAt (if quote = '"' then .unterminatedString else .unterminatedCharacter)
        (p.advance encoding)

/-! ## Words -/

/-- The words that may stand in front of a quoted literal. -/
def encodings : List String := ["L", "u", "U", "u8"]

/-- The kind of a word. -/
def wordKind (l : Lexicon) (word : String) : TokenKind :=
  if ["TRUE", "FALSE", "true", "false"].contains word then .literal .boolean
  else if l.isNull word then .literal .null
  else if l.isKeyword word then .keyword
  else .identifier

/-- A word, or a quoted literal behind an encoding prefix. -/
def word (l : Lexicon) (p : Position) (s : List Char) : Except Fault Lexeme :=
  let text := s.takeWhile Text.isWord
  let rest := s.dropWhile Text.isWord
  let name := String.ofList text
  if encodings.contains name && (rest.head?.map isQuote).getD false then quoted p text rest
  else .ok { kind := wordKind l name, text, rest }

/-! ## Numbers -/

/-- Whether a character is a digit of a radix up to sixteen. -/
def isHexDigit (c : Char) : Bool :=
  c.isDigit || ('a' ≤ c && c ≤ 'f') || ('A' ≤ c && c ≤ 'F')

/-- Whether a character is a binary digit. -/
def isBinDigit (c : Char) : Bool := c == '0' || c == '1'

/-- The characters of a decimal number, whether a point or an exponent is among them, and
what is left. A sign may follow the letter of an exponent. -/
def decimalRun (floating : Bool) : List Char → List Char × Bool × List Char
  | [] => ([], floating, [])
  | [c] =>
    if c.isDigit then ([c], floating, [])
    else if c = '.' && !floating || c = 'e' || c = 'E' then ([c], true, [])
    else ([], floating, [c])
  | c :: d :: s =>
    if c.isDigit then
      let r := decimalRun floating (d :: s)
      (c :: r.1, r.2.1, r.2.2)
    else if c = '.' && !floating then
      let r := decimalRun true (d :: s)
      (c :: r.1, r.2.1, r.2.2)
    else if c = 'e' || c = 'E' then
      if d = '+' || d = '-' then
        let r := decimalRun true s
        (c :: d :: r.1, r.2.1, r.2.2)
      else
        let r := decimalRun true (d :: s)
        (c :: r.1, r.2.1, r.2.2)
    else ([], floating, c :: d :: s)

/-- The kind that a suffix letter gives to a number; none if the letter is no suffix. -/
def suffixKind? (kind : LiteralKind) (c : Char) : Option LiteralKind :=
  if c = 'u' || c = 'U' || c = 'l' || c = 'L' then some kind
  else if kind = .floating || kind = .decInteger then
    if c = 'f' || c = 'F' then some .floating
    else if c = 'd' || c = 'D' then some .fixed
    else none
  else none

/-- The suffix letters of a number, its kind with them, and what is left. -/
def suffixRun (kind : LiteralKind) : List Char → List Char × LiteralKind × List Char
  | [] => ([], kind, [])
  | c :: s =>
    match suffixKind? kind c with
    | some kind =>
      let r := suffixRun kind s
      (c :: r.1, r.2.1, r.2.2)
    | none => ([], kind, c :: s)

/-- A number without its suffix: its text, its kind and what is left. -/
def unsuffixed (p : Position) : List Char → Except Fault (List Char × LiteralKind × List Char)
  | '0' :: x :: s =>
    if x = 'x' || x = 'X' then
      let digits := s.takeWhile isHexDigit
      if digits.isEmpty then failAt .missingDigits p
      else .ok ('0' :: x :: digits, .hexInteger, s.dropWhile isHexDigit)
    else if x = 'b' || x = 'B' then
      let digits := s.takeWhile isBinDigit
      if digits.isEmpty then failAt .missingDigits p
      else .ok ('0' :: x :: digits, .binInteger, s.dropWhile isBinDigit)
    else
      let r := decimalRun false ('0' :: x :: s)
      if r.2.1 then .ok (r.1, .floating, r.2.2)
      else if r.1.length = 1 then .ok (r.1, .decInteger, r.2.2)
      else if r.1.any (· > '7') then failAt .badOctal p
      else .ok (r.1, .octInteger, r.2.2)
  | s =>
    let r := decimalRun false s
    .ok (r.1, if r.2.1 then .floating else .decInteger, r.2.2)

/-- A number with its suffix, behind which no word may follow. -/
def number (p : Position) (s : List Char) : Except Fault Lexeme := do
  let (digits, kind, rest) ← unsuffixed p s
  let (suffix, kind, rest) := suffixRun kind rest
  if (rest.head?.map Text.isWord).getD false then failAt .badSuffix p
  else return { kind := .literal kind, text := digits ++ suffix, rest }

/-! ## Marks -/

/-- The separators of one character. -/
def separators : List Char := ['{', '}', '(', ')', '[', ']', ';', ',']

/-- The operators of one character that no other character joins. -/
def singleOperators : List Char := ['+', '-', '*', '/', '%', '^', '~', '.', '?']

/-- The operators of one character that another one may join. -/
def openOperators : List Char := ['<', '>', '=', '!', '&', '|', '#']

/-- Whether two characters make up one operator. -/
def isDoubleOperator (c d : Char) : Bool :=
  match c with
  | '<' => d == '<' || d == '='
  | '>' => d == '>' || d == '='
  | '=' | '!' => d == '='
  | '&' => d == '&'
  | '|' => d == '|'
  | '#' => d == '#'
  | _ => false

/-- An operator of one character, or of two where these make up one. -/
def operator (c : Char) : List Char → Lexeme
  | [] => { kind := .operator, text := [c], rest := [] }
  | d :: s =>
    if isDoubleOperator c d then { kind := .operator, text := [c, d], rest := s }
    else { kind := .operator, text := [c], rest := d :: s }

/-- The character that a stray character is reported as: the one with the code of its
first byte. -/
def firstByte (c : Char) : Char :=
  Char.ofNat (((Text.charBytes c).head?.map UInt8.toNat).getD 0)

/-- A separator, an operator or nothing known. -/
def mark (p : Position) (c : Char) (s : List Char) : Except Fault Lexeme :=
  if separators.contains c then .ok { kind := .separator, text := [c], rest := s }
  else if c = ':' then
    match s with
    | ':' :: s => .ok { kind := .separator, text := [':', ':'], rest := s }
    | s => .ok { kind := .separator, text := [':'], rest := s }
  else if openOperators.contains c then .ok (operator c s)
  else if singleOperators.contains c then .ok { kind := .operator, text := [c], rest := s }
  else failAt (.strayCharacter (firstByte c)) p

/-! ## The choice -/

/-- The first token of the text `c :: s` at the position `p`. -/
def read (l : Lexicon) (p : Position) (c : Char) (s : List Char) : Except Fault Lexeme :=
  let next := s.head?.getD ' '
  if c = '/' ∧ next = '/' then .ok (lineComment (c :: s))
  else if c = '/' ∧ next = '*' then blockComment p (c :: s)
  else if isQuote c then quoted p [] (c :: s)
  else if c.isDigit || (c == '.' && next.isDigit) then number p (c :: s)
  else if Text.isWordStart c then word l p (c :: s)
  else mark p c s

end Lexeme

/-- The cursor behind the white space at a cursor. -/
def Cursor.skipSpace (c : Cursor) : Cursor :=
  c.moveOver (c.rest.takeWhile Lexeme.isSpace) (c.rest.dropWhile Lexeme.isSpace)

namespace Token

/-- The directive whose number sign stands at a cursor. Its text is the logical line
behind the sign; it ends on the last physical line that was read, in the column where it
starts. -/
def directive (source : SourceId) (c : Cursor) : Token × Cursor :=
  let l := (c.moveOver (c.rest.take 1) (c.rest.drop 1)).readLogicalLine
  let after := l.2
  let lastLine :=
    if after.past.head? = some '\n' then after.position.line - 1 else after.position.line
  ({ kind := .directive, text := String.ofList (Text.trimLeft l.1),
     span := ⟨c.position, ⟨lastLine, c.position.col⟩⟩, source }, after)

/-- The next token at a cursor and the cursor behind it. A number sign at the start of a
line opens a directive if `directives` says so. -/
def next (l : Lexicon) (directives : Bool) (source : SourceId) (c : Cursor) :
    Except Fault (Token × Cursor) :=
  let c := c.skipSpace
  let p := c.position
  match c.rest with
  | [] => .ok (finish p source, c)
  | d :: s =>
    if directives ∧ d = '#' ∧ c.atLineStart then .ok (directive source c)
    else do
      let x ← Lexeme.read l p d s
      let after := c.moveOver (x.text ++ x.dropped) x.rest
      return ({ kind := x.kind, text := String.ofList x.text, span := ⟨p, after.position⟩,
                source }, after)

/-- All tokens from a cursor on, the end among them, and the fault behind them if there is
one. Every token but the last covers a character, so `budget` may be the number of
characters and one. -/
def readAll (l : Lexicon) (directives : Bool) (source : SourceId) :
    (budget : Nat) → Cursor → List Token × Option Fault
  | 0, _ => ([], some (Fault.of .inputExhausted))
  | n + 1, c =>
    match next l directives source c with
    | .error f => ([], some f)
    | .ok (t, c) =>
      if t.isFinish then ([t], none)
      else
        let r := readAll l directives source n c
        (t :: r.1, r.2)

/-- All tokens of a text, the end among them, and the fault behind them if there is one. -/
def ofText (l : Lexicon) (directives : Bool) (source : SourceId) (text : List Char) :
    List Token × Option Fault :=
  readAll l directives source (text.length + 1) (Cursor.ofText text)

end Token

/-- The tokens of a text without comments and without the end. -/
def tokenize (l : Lexicon) (directives : Bool) (source : SourceId) (text : List Char) :
    Except Fault (List Token) :=
  match Token.ofText l directives source text with
  | (_, some f) => .error f
  | (tokens, none) => .ok (tokens.filter fun t => t.kind ≠ .comment ∧ t.kind ≠ .finish)

end IdlReader
