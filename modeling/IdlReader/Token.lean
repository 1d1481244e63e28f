import IdlReader.Position

/-!
# Tokens

A token is a piece of a source with a kind, its text and the place it was read from.
Tokens that an expansion put in place of a macro's name are marked.
-/

namespace IdlReader

/-- The kinds of literals. -/
inductive LiteralKind where
  | decInteger
  | hexInteger
  | octInteger
  | binInteger
  | floating
  | fixed
  | character
  | string
  | boolean
  | null
deriving DecidableEq, Repr, Inhabited

/-- The kinds of tokens. -/
inductive TokenKind where
  | identifier
  | keyword
  | literal (kind : LiteralKind)
  /-- Brackets, `;`, `,`, `:` and `::`. -/
  | separator
  | operator
  | comment
  /-- A line that starts with `#`; the text is what follows the number sign. -/
  | directive
  /-- The end of the input. -/
  | finish
deriving DecidableEq, Repr, Inhabited

/-- The number of a source, in the order in which sources are opened. -/
abbrev SourceId := Nat

/-- A piece of a source. -/
structure Token where
  kind : TokenKind
  text : String
  span : Span
  source : SourceId
  /-- Whether an expansion produced the token. -/
  expanded : Bool := false
deriving DecidableEq, Repr, Inhabited

namespace Token

/-- A token that starts and ends at one position. -/
def point (kind : TokenKind) (text : String) (p : Position) (source : SourceId) : Token :=
  { kind, text, span := Span.point p, source }

/-- The end of a source. -/
def finish (p : Position) (source : SourceId) : Token := point .finish "" p source

/-- Where a token starts. -/
def position (t : Token) : Position := t.span.first

def isFinish (t : Token) : Bool := t.kind == .finish

def isIdentifier (t : Token) : Bool := t.kind == .identifier

def isKeyword (t : Token) : Bool := t.kind == .keyword

/-- Whether a token is an identifier or a keyword. -/
def isWord (t : Token) : Bool := t.isIdentifier || t.isKeyword

/-- Whether the text of a token has a meaning of its own: literals, comments and
directives are read further by others. -/
def isPlain (t : Token) : Bool :=
  match t.kind with
  | .identifier | .keyword | .separator | .operator => true
  | _ => false

/-- Whether a token is the word or the mark `text`. -/
def is (t : Token) (text : String) : Bool := t.isPlain && t.text == text

/-- Whether a token is one of several words or marks. -/
def isOneOf (t : Token) (texts : List String) : Bool := texts.any t.is

end Token

/-- The texts of tokens with a space between each two. -/
def joinTexts (tokens : List Token) : String :=
  " ".intercalate (tokens.map Token.text)

end IdlReader
