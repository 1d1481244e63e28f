import IdlReader.Comment
import IdlReader.Source.Condition
import IdlReader.Source.Delivery
import IdlReader.Source.Files
import IdlReader.Source.Section

/-!
# Reading sources

A reader holds the sources that are open with the innermost one first, the open
conditional sections, the macros, and what it needs to open further files.
`Reader.step` reads one raw token and does what it asks for; `Reader.run` repeats this
until all sources are read and gives the stream of deliveries.

Every step but the last reads a character, closes a source or uses up the token that was
read ahead, and no file is opened twice. So the steps of a run are bounded by the size of
the files (`Reader.budget`).
-/

namespace IdlReader

/-- An open source: its number, its path if it is a file, where it is read, and how many
sections were open when it was opened. -/
structure Frame where
  source : SourceId
  path : Option String
  cursor : Cursor
  sectionsBelow : Nat
deriving Repr

/-- The state of a run over sources. -/
structure Reader where
  env : Environment
  files : FileTree
  macros : MacroTable
  sections : Sections := []
  frames : List Frame := []
  sources : List SourceInfo := []
  /-- The absolute paths of the files that were opened. -/
  opened : List String := []
  /-- A raw token that was read while looking for the arguments of a macro. -/
  ahead : Option Token := none

/-! ## Raw text -/

namespace Text

/-- What is skipped of a section that is not read: all lines up to the next one that starts
with a number sign, and the blanks in front of the sign. `fresh` says that only blanks went
before on the line. -/
def skipSection (fresh : Bool) : List Char → List Char × List Char
  | [] => ([], [])
  | c :: s =>
    if fresh && c = '#' then ([], c :: s)
    else
      let fresh := c = '\n' || (fresh && (c = ' ' || c = '\t' || c = '\r'))
      let r := skipSection fresh s
      (c :: r.1, r.2)

/-- Whether a line ends a verbatim block. -/
def endsVerbatim (line : List Char) : Bool :=
  match trimLeft line with
  | '#' :: s => "verbatim_end".toList.isPrefixOf (trimLeft s)
  | _ => false

/-- The lines of a verbatim block up to the one that ends it, the text they were read from,
and what is left. Carriage returns at the end of a line are dropped. `line` is the part of
the current line that was read, with the last character first. -/
def verbatimLines (line : List Char) :
    List Char → Option (List (List Char) × List Char × List Char)
  | [] =>
    let text := dropTrailing (· == '\r') line.reverse
    if !line.isEmpty && endsVerbatim text then some ([], [], []) else none
  | c :: s =>
    if c = '\n' then
      let text := dropTrailing (· == '\r') line.reverse
      if endsVerbatim text then some ([], [c], s)
      else (verbatimLines [] s).map fun r => (text :: r.1, c :: r.2.1, r.2.2)
    else (verbatimLines (c :: line) s).map fun r => (r.1, c :: r.2.1, r.2.2)

end Text

namespace Reader

/-- Whether what follows is read. -/
def enabled (r : Reader) : Bool := r.sections.enabled

/-- The path of the innermost open source. -/
def path? (r : Reader) : Option String := r.frames.head?.bind Frame.path

/-- Moves the cursor of the innermost open source. -/
def setCursor (r : Reader) (c : Cursor) : Reader :=
  match r.frames with
  | [] => r
  | f :: fs => { r with frames := { f with cursor := c } :: fs }

/-- Skips what is not read up to the next directive. -/
def skipDisabled (r : Reader) : Reader :=
  match r.frames with
  | [] => r
  | f :: _ =>
    if r.enabled || r.ahead.isSome then r
    else
      let s := Text.skipSection f.cursor.atLineStart f.cursor.rest
      r.setCursor (f.cursor.moveOver s.1 s.2)

/-- The next raw token. Without an open source there is only the end. -/
def raw (r : Reader) : Except Fault (Token × Reader) :=
  match r.ahead with
  | some t => .ok (t, { r with ahead := none })
  | none =>
    match r.frames with
    | [] => .ok (Token.finish ⟨0, 0⟩ 0, r)
    | f :: _ => do
      let (t, c) ← Token.next r.macros.lexicon true f.source f.cursor
      return (t, r.setCursor c)

/-! ## Sources -/

/-- Opens a source. -/
def enter (r : Reader) (path : Option String) (text : List Char) (kind : SourceKind) : Reader :=
  { r with
    frames :=
      ⟨r.sources.length, path, Cursor.ofText text, r.sections.length⟩ :: r.frames
    sources := r.sources ++ [⟨path, kind⟩] }

/-- Closes the innermost open source, in which no section may be left open. -/
def leave (r : Reader) : Except Fault Reader :=
  match r.frames with
  | [] => .ok r
  | f :: fs =>
    match r.sections.closeTo f.sectionsBelow with
    | .ok () => .ok { r with frames := fs }
    | .error cause =>
      .error (((Fault.of cause).placed f.cursor.position).orInFile f.path)

/-- The file that an include directive names. A local name is looked up next to the
including file or in the directory of the run, then like any other in the include
directories. -/
def findInclude (r : Reader) (name : String) (isLocal : Bool) : Option String :=
  let dir := (r.path?.map FileTree.parentPath).getD r.files.directoryPath
  let candidates := r.env.includeDirs.map fun dir => Path.join dir name
  let candidates := if isLocal then Path.join dir name :: candidates else candidates
  candidates.find? r.files.isFile

/-- Opens an included file, which must not have been opened before. -/
def includeFile (r : Reader) (path : String) (isLocal : Bool) : Except Fault Reader :=
  match r.files.canonical path with
  | .error e => fail (.includeUnopened path e.message)
  | .ok canonical =>
    if r.opened.contains canonical then fail (.includeRepeated canonical)
    else if r.env.maxIncludeDepth ≤ r.frames.length then fail .includeTooDeep
    else
      match r.files.read canonical with
      | .error e => fail (.includeUnread path e.message)
      | .ok text =>
        let kind := if isLocal then SourceKind.localInclude else .globalInclude
        .ok ({ r with opened := canonical :: r.opened }.enter (some canonical) text.toList kind)

/-! ## Directives -/

/-- The target of an include directive: whether it is local, its name, and the text from
the opening to the closing mark. -/
def includeTarget (rest : List Char) : Except Fault (Bool × List Char × List Char) :=
  let parse (isLocal : Bool) (first last : Char) (s : List Char) :
      Except Fault (Bool × List Char × List Char) :=
    let name := s.takeWhile (· ≠ last)
    if !s.contains last then fail .includeUnclosed
    else if name.isEmpty then fail .includeNameEmpty
    else .ok (isLocal, name, first :: name ++ [last])
  match Text.trim rest with
  | '"' :: s => parse true '"' '"' s
  | '<' :: s => parse false '<' '>' s
  | _ => fail .includeTarget

/-- Carries out an include directive. -/
def processInclude (r : Reader) (g : Gathered) (rest : List Char) (directive : Token) :
    Except Fault (Reader × Gathered) := do
  let (isLocal, name, content) ← includeTarget rest
  let kind := if isLocal then RecordKind.includeLocal else .includeGlobal
  let g := g.addRecord kind (String.ofList content) directive
  match r.findInclude (String.ofList name) isLocal with
  | none => fail .includeNotFound
  | some path => do
    let r ← r.includeFile path isLocal
    return (r, g)

/-- Reads a verbatim block behind its directive. -/
def readVerbatim (r : Reader) : Except Fault (String × Reader) :=
  match r.frames with
  | [] => .ok ("", r)
  | f :: _ =>
    match Text.verbatimLines [] f.cursor.rest with
    | some (lines, read, rest) =>
      .ok ("\n".intercalate (lines.map String.ofList), r.setCursor (f.cursor.moveOver read rest))
    | none => failAt .verbatimEndMissing (f.cursor.moveOver f.cursor.rest []).position

/-- Carries out a directive that is not about sections. -/
def processCommand (r : Reader) (g : Gathered) (keyword : String) (rest : List Char)
    (directive : Token) : Except Fault (Reader × Gathered) :=
  match keyword with
  | "define" => do
    let (_, macros) ← r.macros.define rest
    return ({ r with macros },
      g.addRecord .define (String.ofList (Text.trim rest)) directive)
  | "undef" =>
    let name := Text.trim rest
    if Text.isName name then
      .ok ({ r with macros := r.macros.eraseName (String.ofList name) },
        g.addRecord .undef (String.ofList name) directive)
    else fail .definitionNameMissing
  | "include" => r.processInclude g rest directive
  | "verbatim" =>
    let content := rest.dropWhile fun c => c == ' ' || c == '\t'
    .ok (r, g.addRecord .verbatim (String.ofList content) directive)
  | "verbatim_begin" => do
    let (content, r) ← r.readVerbatim
    return (r, g.addRecord .verbatimBlock content directive)
  | "verbatim_end" => fail .verbatimEndAlone
  | "pragma" => fail .pragmaUnsupported
  | _ => fail .directiveUnknown

/-- Whether the macro that a directive names is defined. -/
def definedName (r : Reader) (rest : List Char) (directive : Token) : Except Fault Bool :=
  let name := Text.trim rest
  if Text.isName name then .ok (r.macros.isDefined (String.ofList name))
  else failAt .definitionNameMissing directive.position

/-- Goes on with the branch of `#elif`. Its condition counts only if no branch went
before. -/
def processElif (r : Reader) (condition : Except Fault Bool) (p : Position) :
    Except Fault Reader :=
  match r.sections.forElif with
  | .error cause => failAt cause p
  | .ok (s, rest) =>
    match s.processing with
    | .future => do
      let b ← condition
      return { r with sections := { s with processing := if b then .current else .future } :: rest }
    | .current => .ok { r with sections := { s with processing := .previous } :: rest }
    | _ => .ok r

/-- Places a fault that a directive causes. -/
def orAtDirective {α : Type} (p : Position) : Except Fault α → Except Fault α
  | .ok a => .ok a
  | .error f => .error (f.orAt p)

/-- Places a cause at a directive. -/
def causeAtDirective {α : Type} (p : Position) : Except Cause α → Except Fault α
  | .ok a => .ok a
  | .error cause => failAt cause p

/-- Carries out a directive. Where nothing is read only sections are opened and closed. -/
def processDirective (r : Reader) (g : Gathered) (directive : Token) :
    Except Fault (Reader × Gathered) :=
  let text := directive.text.toList
  let keyword := String.ofList (text.takeWhile Text.isWord)
  let rest := text.dropWhile Text.isWord
  let p := directive.position
  let enter (condition : Except Fault Bool) : Except Fault (Reader × Gathered) :=
    if r.enabled then do
      let b ← condition
      return ({ r with sections := r.sections.enter (some b) }, g)
    else .ok ({ r with sections := r.sections.enter none }, g)
  match keyword with
  | "if" => enter (Condition.holds r.macros directive rest)
  | "ifdef" => enter (r.definedName rest directive)
  | "ifndef" => enter ((r.definedName rest directive).map not)
  | "elif" => do
    let r ← r.processElif (Condition.holds r.macros directive rest) p
    return (r, g)
  | "else" => do
    let sections ← causeAtDirective p r.sections.elseBranch
    return ({ r with sections }, g)
  | "endif" => do
    let sections ← causeAtDirective p r.sections.leave
    return ({ r with sections }, g)
  | keyword =>
    if r.enabled then orAtDirective p (r.processCommand g keyword rest directive)
    else .ok (r, g)

/-! ## Calls of macros -/

/-- The next raw token that is no comment. Comments on the way are gathered. -/
def rawSignificant : (budget : Nat) → Reader → Gathered →
    Except Fault (Token × Reader × Gathered)
  | 0, _, _ => fail .inputExhausted
  | n + 1, r, g => do
    let (t, r) ← r.raw
    if t.kind = .comment then rawSignificant n r (g.addComment t) else return (t, r, g)

/-- The number of characters that the innermost open source has left, and two. -/
def charactersLeft (r : Reader) : Nat :=
  match r.frames with
  | [] => 2
  | f :: _ => f.cursor.rest.length + 2

/-- The raw tokens up to the parenthesis that closes the call of the macro `name`, which is
one of them. `depth` parentheses are open. -/
def callTokens (name : Token) : (budget : Nat) → (depth : Nat) → Reader → Gathered →
    Except Fault (List Token × Reader × Gathered)
  | 0, _, _, _ => fail .inputExhausted
  | n + 1, depth, r, g => do
    let (t, r, g) ← r.rawSignificant r.charactersLeft g
    if t.isFinish || t.kind = .directive then failAt (.callUnclosedIn name.text) name.position
    else
      let depth := if t.is "(" then depth + 1 else if t.is ")" then depth - 1 else depth
      if depth = 0 then return ([t], r, g)
      else
        let (ts, r, g) ← callTokens name n depth r g
        return (t :: ts, r, g)

/-- Expands the call of a macro. The name of a macro with parameters that no parenthesis
follows is no call, and stands for itself; the token behind it is kept. -/
def expandCall (r : Reader) (g : Gathered) (d : MacroDefinition) (name : Token) :
    Except Fault (List Token × Reader × Gathered) := do
  if d.isFunctionLike then
    let (next, r, g) ← r.rawSignificant r.charactersLeft g
    if next.is "(" then
      let (ts, r, g) ← callTokens name r.charactersLeft 1 r g
      let (args, _) ← Macro.arguments ts
      let tokens ← Macro.expand r.macros name (some args)
      return (tokens, r, g)
    else return ([name], { r with ahead := some next }, g)
  else
    let tokens ← Macro.expand r.macros name none
    return (tokens, r, g)

/-! ## Steps -/

/-- Reads one raw token and does what it asks for. Gives the tokens that are delivered. -/
def step (r : Reader) (g : Gathered) : Except Fault (List Token × Reader × Gathered) := do
  let (t, r) ← r.skipDisabled.raw
  match t.kind with
  | .finish => do
    let r ← r.leave
    return ([], r, g)
  | .directive => do
    let (r, g) ← r.processDirective g t
    return ([], r, g)
  | kind =>
    if !r.enabled then return ([], r, g)
    else if kind = .comment then return ([], r, g.addComment t)
    else
      match if t.isWord then r.macros.find? t.text else none with
      | some d => r.expandCall g d t
      | none => return ([t], r, g)

/-- The deliveries of tokens; what was gathered goes with the first one. -/
def deliver (g : Gathered) : List Token → List Delivery
  | [] => []
  | t :: ts => ⟨g, t⟩ :: ts.map fun t => ⟨{}, t⟩

/-- Reads all sources. A fault lies in the innermost open source unless it knows better. -/
def run : (budget : Nat) → Reader → Gathered → Stream
  | 0, r, _ => ⟨[], .error (Fault.of .inputExhausted), r.sources⟩
  | n + 1, r, g =>
    if r.frames.isEmpty then ⟨[], .ok g, r.sources⟩
    else
      match r.step g with
      | .error f => ⟨[], .error (f.orInFile r.path?), r.sources⟩
      | .ok (ts, next, gathered) =>
        let s := run n next (if ts.isEmpty then gathered else {})
        { s with deliveries := deliver gathered ts ++ s.deliveries }

/-- A number of steps in which all sources are read. -/
def budget (r : Reader) : Nat :=
  let inFiles := r.files.files.foldr (fun f n => f.2.length + 2 + n) 0
  let inFrames := r.frames.foldr (fun f n => f.cursor.rest.length + 2 + n) 0
  2 * (inFiles + inFrames) + 2

/-- The stream of all deliveries. -/
def stream (r : Reader) : Stream := run r.budget r {}

/-! ## Starting -/

/-- A reader without sources. -/
def ofEnvironment (env : Environment) (files : FileTree) : Except Fault Reader := do
  let macros ← MacroTable.ofEnvironment env
  return { env, files, macros }

/-- A reader of a text in memory. -/
def ofText (env : Environment) (files : FileTree) (text : String) : Except Fault Reader := do
  let r ← ofEnvironment env files
  return r.enter none text.toList .main

/-- A reader of a file. -/
def ofFile (env : Environment) (files : FileTree) (path : String) : Except Fault Reader :=
  match files.canonical path with
  | .error e => fail (.sourceUnopened path e.message)
  | .ok canonical =>
    match files.read canonical with
    | .error e => fail (.sourceUnread path e.message)
    | .ok text => do
      let r ← ofEnvironment env files
      return { r with opened := [canonical] }.enter (some canonical) text.toList .main

end Reader

end IdlReader
