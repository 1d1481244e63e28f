/-!
# Positions in a text

Lines and columns count from one, and a column counts the bytes of the text in
UTF-8. `Position.after` steps over one character and `Position.advance` over many.

* `advance_append`: the position after a joined text is reached through the position
  after its first part.
-/

namespace IdlReader

/-- A line and a byte column, both counted from one. The position `⟨0, 0⟩` lies in no
text; it places the end of an input that held no token. -/
structure Position where
  line : Nat
  col : Nat
deriving DecidableEq, Repr, Inhabited

namespace Position

/-- The first position of every text. -/
def start : Position := ⟨1, 1⟩

/-- The position that follows the character `c`: a line feed opens the next line, every
other character moves on by its bytes. -/
def after (p : Position) (c : Char) : Position :=
  if c = '\n' then ⟨p.line + 1, 1⟩ else ⟨p.line, p.col + c.utf8Size⟩

/-- The position that follows a text. -/
def advance (p : Position) (text : List Char) : Position := text.foldl after p

@[simp] theorem advance_nil (p : Position) : p.advance [] = p := rfl

@[simp] theorem advance_cons (p : Position) (c : Char) (text : List Char) :
    p.advance (c :: text) = (p.after c).advance text := rfl

theorem advance_append (p : Position) (s t : List Char) :
    p.advance (s ++ t) = (p.advance s).advance t := by
  simp [advance, List.foldl_append]

end Position

/-- The stretch of a source that something was read from: where it starts, and where it
ends. -/
structure Span where
  first : Position
  last : Position
deriving DecidableEq, Repr, Inhabited

/-- The span that starts and ends at one position. -/
def Span.point (p : Position) : Span := ⟨p, p⟩

end IdlReader
