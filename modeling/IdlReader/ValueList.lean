import IdlReader.Fault

/-!
# Lists of values in one text

A list such as `a,"b,c",f(1,2)` is a text of values between commas or semicolons. A
backslash takes the next character literally, quotes enclose a value, and separators
inside brackets belong to their value. `ValueList.transition` is the automaton and
`ValueList.split` runs it over a text.
-/

namespace IdlReader.ValueList

/-- Where the reader of a list stands. -/
inductive State where
  /-- In front of a value, which may be quoted. -/
  | valueOrQuote
  /-- Inside a value without quotes. -/
  | valueOrComma
  /-- Inside quotes. -/
  | quoteString
  /-- Behind a closing quote. -/
  | commaOrEnd
deriving DecidableEq, Repr

/-- The classes of characters that the reader tells apart, and the end of the text. -/
inductive Input where
  | quote
  | separator
  | openBracket
  | closeBracket
  | other
  | finish
deriving DecidableEq, Repr

/-- What happens to the character that was read. -/
inductive Action where
  /-- It belongs to the value. -/
  | keep
  /-- It is dropped. -/
  | skip
  /-- It is dropped, and the value is complete. -/
  | emit
deriving DecidableEq, Repr

/-- The class of a character. -/
def Input.ofChar (c : Char) : Input :=
  if c = '"' then .quote
  else if c = ',' ∨ c = ';' then .separator
  else if c = '(' ∨ c = '{' then .openBracket
  else if c = ')' ∨ c = '}' then .closeBracket
  else .other

/-- The next state and what happens to the character. `nested` says that the character
stands inside brackets. -/
def transition (state : State) (input : Input) (nested : Bool) :
    Except Cause (State × Action) :=
  match state, input with
  | .quoteString, .quote => .ok (.commaOrEnd, .skip)
  | .quoteString, .finish => .error .listQuoteUnterminated
  | .quoteString, _ => .ok (.quoteString, .keep)
  | .valueOrQuote, .quote => .ok (.quoteString, .skip)
  | _, .quote => .error .listQuoteInside
  | state, .separator =>
    if nested then .ok (.valueOrComma, .keep)
    else if state = .valueOrQuote then .error .listLeadingSeparator
    else .ok (.valueOrQuote, .emit)
  | _, .finish => .ok (.valueOrQuote, .emit)
  | _, _ => .ok (.valueOrComma, .keep)

/-- The reader of a list: its state, the number of open brackets, the value that is being
read and the complete values, both with the latest first. -/
structure Reader where
  state : State
  depth : Nat
  value : List Char
  values : List (List Char)
deriving DecidableEq, Repr

namespace Reader

/-- The reader in front of a text. -/
def initial : Reader := ⟨.valueOrQuote, 0, [], []⟩

/-- The brackets that are open behind an input; inside quotes brackets do not count. -/
def depthAfter (r : Reader) (input : Input) : Nat :=
  if r.state = .quoteString then r.depth
  else
    match input with
    | .openBracket => r.depth + 1
    | .closeBracket => r.depth - 1
    | _ => r.depth

/-- Reads one input, which stands for `text`. -/
def feed (r : Reader) (input : Input) (text : List Char) : Except Cause Reader := do
  let depth := r.depthAfter input
  let (state, action) ← transition r.state input (decide (0 < depth))
  match action with
  | .keep => return ⟨state, depth, text.reverse ++ r.value, r.values⟩
  | .skip => return ⟨state, depth, r.value, r.values⟩
  | .emit => return ⟨state, depth, [], r.value.reverse :: r.values⟩

/-- Reads a text. A backslash at its end stands for itself. -/
def run (r : Reader) : List Char → Except Cause Reader
  | [] => r.feed .finish []
  | ['\\'] => do
    let r ← r.feed .other ['\\']
    r.feed .finish []
  | '\\' :: c :: cs => do
    let r ← r.feed .other [c]
    r.run cs
  | c :: cs => do
    let r ← r.feed (Input.ofChar c) [c]
    r.run cs

end Reader

/-- The values of a list. The empty text holds none. -/
def split (text : List Char) : Except Cause (List (List Char)) :=
  if text.isEmpty then .ok []
  else do
    let r ← Reader.initial.run text
    return r.values.reverse

end IdlReader.ValueList
