import IdlReader.Text.Blank
import IdlReader.Text.Bytes
import IdlReader.Token

/-!
# Comments

Comments lose their markers, their indentation and one asterisk in front of each line, and
several comments make up one text. The flags of a text tell the style and the format of its
comments and whether these follow what they describe. They are the bits of a word, which is
edited bit by bit when a comment is added.
-/

namespace IdlReader.Comment

/-- What is known about a comment text besides its lines, as the bits of a word. -/
structure Flags where
  word : UInt32 := 0
deriving DecidableEq, Repr, Inhabited

namespace Flags

instance : OrOp Flags := ⟨fun f g => ⟨f.word ||| g.word⟩⟩

instance : AndOp Flags := ⟨fun f g => ⟨f.word &&& g.word⟩⟩

/-- Comments between `/*` and `*/`. -/
def block : Flags := ⟨0x1⟩

/-- Comments from `//` to the end of the line. -/
def line : Flags := ⟨0x2⟩

/-- The documentation format that `/**` or `///` announces. -/
def javadoc : Flags := ⟨0x10⟩

/-- The documentation format that `/*!` or `//!` announces. -/
def qt : Flags := ⟨0x20⟩

/-- Both documentation formats. -/
def formats : Flags := ⟨0x30⟩

/-- Comments that follow what they describe. -/
def succeeding : Flags := ⟨0x100⟩

/-- The flags as a number. -/
def bits (f : Flags) : Nat := f.word.toNat

/-- Whether all of some flags are set. -/
def contains (f g : Flags) : Bool := f &&& g == g

/-- Sets flags. -/
def insert (f g : Flags) : Flags := f ||| g

/-- Clears flags. -/
def remove (f g : Flags) : Flags := ⟨f.word &&& ~~~g.word⟩

/-- Whether a comment announces a format. -/
def isFormatted (f : Flags) : Bool := f &&& formats != {}

/-- Javadoc stands for two different formats. -/
def settleFormats (f g : Flags) : Flags :=
  if (g ||| f) &&& formats = formats then (f.remove formats).insert javadoc else f

/-- A text without a format gets that of the comment that is added. -/
def adoptFormat (f g : Flags) : Flags :=
  if g.isFormatted && !f.isFormatted then f.insert (g &&& formats) else f

/-- Lines stay lines only among lines. -/
def settleStyles (f g : Flags) : Flags :=
  if g &&& line ≠ f &&& line then (f.remove line).insert block else f

/-- Only comments that all follow make up a text that follows. -/
def settlePlaces (f g : Flags) : Flags :=
  if g &&& succeeding ≠ f &&& succeeding then f.remove succeeding else f

/-- The flags `f` of a text to which a comment with the flags `g` is added. -/
def merge (f g : Flags) : Flags :=
  (((f.settleFormats g).adoptFormat g).settleStyles g).settlePlaces g

end Flags

/-! ## Markers -/

/-- The markers of a style: the text, the format that it announces, and whether the comment
follows what it describes. A longer marker stands before a shorter one. -/
def markers : List (List Char × Flags) :=
  [(['/', '*', '*', '<'], .block ||| .javadoc ||| .succeeding),
    (['/', '*', '!', '<'], .block ||| .qt ||| .succeeding),
    (['/', '*', '*'], .block ||| .javadoc),
    (['/', '*', '!'], .block ||| .qt),
    (['/', '*'], .block),
    (['/', '/', '/', '<'], .line ||| .javadoc ||| .succeeding),
    (['/', '/', '!', '<'], .line ||| .qt ||| .succeeding),
    (['/', '/', '/'], .line ||| .javadoc),
    (['/', '/', '!'], .line ||| .qt),
    (['/', '/'], .line)]

/-- The marker that a comment starts with. -/
def marker? (text : List Char) : Option (List Char × Flags) :=
  markers.find? fun m => m.1.isPrefixOf text

/-! ## Lines -/

/-- White space of ASCII. -/
def isAsciiBlank (c : Char) : Bool :=
  c == ' ' || c == '\t' || c == '\n' || c == '\r' || c == '\x0c'

/-- The first line of a text: its content, the first character of its end and what follows
its end; nothing if the text does not end a line. -/
def splitLine : List Char → Option (List Char × Char × List Char)
  | [] => none
  | '\n' :: s => some ([], '\n', s)
  | '\r' :: '\n' :: s => some ([], '\r', s)
  | c :: s => (splitLine s).map fun r => (c :: r.1, r.2)

/-- A line without the white space at its end; its first character is kept. -/
def trimLine : List Char → List Char
  | [] => []
  | c :: s => c :: Text.dropTrailing isAsciiBlank s

/-- A line without one asterisk and one space in front of it. -/
def dropAsterisk : List Char → List Char
  | '*' :: ' ' :: s => s
  | '*' :: s => s
  | s => s

/-- The lines of the body of a block comment. Indentation goes, and so do empty lines in
front of the first line. A line of nothing is the first character of its end. What is left
of a body is no line unless it has at least two bytes. -/
def blockLines : (budget : Nat) → (initial : Bool) → List Char → List (List Char)
  | 0, _, _ => []
  | n + 1, initial, body =>
    if Text.byteSize body < 2 then []
    else
      match body with
      | [] => []
      | c :: s =>
        if c = ' ' || c = '\t' || (initial && c = '\n') then blockLines n initial s
        else if initial && c = '\r' && s.head? = some '\n' then
          blockLines n initial (s.drop 1)
        else
          let line := dropAsterisk (c :: s)
          match splitLine line with
          | some ([], e, rest) => [e] :: blockLines n false rest
          | some (content, _, rest) => trimLine content :: blockLines n false rest
          | none => if Text.byteSize line < 2 then [] else [trimLine line]

/-- The lines of a block comment behind its marker. -/
def ofBlock (marker text : List Char) : List (List Char) :=
  let body := (text.drop marker.length).take (text.length - 2 - marker.length)
  blockLines (body.length + 1) true body

/-- The line of a line comment behind its marker, without one space in front of it; an
empty line is none. -/
def ofLine (marker text : List Char) : List (List Char) :=
  let body := text.drop marker.length
  let body := if body.head? = some ' ' then body.drop 1 else body
  let line := Text.trimRight body
  if line.isEmpty then [] else [line]

/-- Whether a text ends a block comment and is long enough to be one. -/
def isClosed (text : List Char) : Bool :=
  decide (4 ≤ Text.byteSize text) && ['*', '/'].isSuffixOf text

/-- The lines and flags of one comment; nothing if the text is none. -/
def read? (text : List Char) : Option (List (List Char) × Flags) := do
  let (marker, flags) ← marker? text
  if flags.contains .block then
    if isClosed text then some (ofBlock marker text, flags) else none
  else some (ofLine marker text, flags)

/-! ## Several comments -/

/-- Adds a comment to the lines and flags of the comments before it. As long as there are
no lines, only the flags of the last comment count. -/
def add (lines : List (List Char)) (flags : Flags) (text : List Char) :
    List (List Char) × Flags :=
  match read? text with
  | none => (lines, flags)
  | some (more, f) => (lines ++ more, if lines.isEmpty then f else flags.merge f)

/-- The text and the flags that comments make up. -/
def combine (comments : List Token) : String × Flags :=
  let r := comments.foldl (fun r t => add r.1 r.2 t.text.toList) ([], {})
  ("\n".intercalate (r.1.map String.ofList), r.2)

end IdlReader.Comment
