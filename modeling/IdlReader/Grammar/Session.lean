import IdlReader.Entity.Tree
import IdlReader.Source.Delivery

/-!
# Sessions

A session holds what the grammar works on: the tokens that are still to come, the comments
in front of the next one, and the tree that has grown so far. Reading a token brings the
comments and recorded directives of its delivery into the session.

The state of a session outlives a fault, so that the place of a fault can be completed from
the last token that was read (`complete`).
-/

namespace IdlReader

/-- The state of the grammar. -/
structure Session where
  env : Environment
  tree : Tree
  stream : Stream
  /-- Tokens that were looked at or put back. -/
  cache : List Token := []
  /-- The comments in front of the token that was delivered last. -/
  comments : List Token := []
  /-- How many names were generated for a stem. -/
  generated : List (String × Nat) := []
  /-- The token that was delivered last. -/
  last : Option Token := none

/-- An action on a session. -/
abbrev Parsing := EStateM Fault Session

namespace Parsing

/-- Throws a cause at a token. -/
def failAtToken {α : Type} (cause : Cause) (t : Token) : Parsing α := failAt cause t.position

/-- Throws a cause that has no place, if there is one. -/
def orFail {α : Type} : Except Cause α → Parsing α
  | .ok a => pure a
  | .error cause => fail cause

/-- Places the fault of an action unless its position is known. -/
def orAt {α : Type} (p : Position) (x : Parsing α) : Parsing α :=
  tryCatchThe Fault x fun f => throwThe Fault (f.orAt p)

/-- The tree of the session. -/
def tree : Parsing Tree := do
  let s ← get
  return s.tree

/-- An entity of the tree. -/
def entity (id : EntityId) : Parsing Entity := do
  let t ← tree
  return t.get id

/-- Changes the tree. -/
def modifyTree (f : Tree → Tree) : Parsing Unit := modify fun s => { s with tree := f s.tree }

/-- Changes an entity of the tree. -/
def modifyEntity (id : EntityId) (f : Entity → Entity) : Parsing Unit :=
  modifyTree fun t => t.modify id f

/-- Changes the data of a declaration. -/
def modifyDeclaration (id : EntityId) (f : Declaration → Declaration) : Parsing Unit :=
  modifyEntity id (Entity.mapDeclaration f)

/-- Adds an entity without a name. -/
def addEntity (parent : EntityId) (kind : EntityKind) (source : SourceId) (span : Span)
    (data : EntityData) : Parsing EntityId := do
  let t ← tree
  let (id, t) ← orFail (t.add parent kind source span data)
  modifyTree fun _ => t
  return id

/-- Gives an entity its name, as `Tree.setName` does. The name is written down before it is entered,
so that it stays with an entity whose name is taken. -/
def nameEntity (id : EntityId) (name : String) (forward listed : Bool) : Parsing EntityId := do
  let t ← tree
  let place ← orFail (t.namePlace id name)
  let t := t.rename id name
  modifyTree fun _ => t
  let (found, t) ← orFail (t.enterName place id name forward listed)
  modifyTree fun _ => t
  return found

end Parsing

/-! ## Comments of entities -/

/-- Gives an entity the text of comments. A text with a documentation format stays. -/
def Entity.attach (comments : List Token) (e : Entity) : Entity :=
  let c := Comment.combine comments
  if c.1.isEmpty || e.commentFlags.isFormatted then e
  else { e with comments := c.1, commentFlags := c.2 }

/-- Adds recorded directives with their comments to a tree. -/
def Tree.addRecords (t : Tree) (records : List Record) : Tree :=
  records.foldl (fun t r =>
    let (id, t) := t.addRecord r
    t.modify id (Entity.attach r.comments)) t

namespace Parsing

/-! ## Tokens -/

/-- Takes what was gathered on the way to a token into the session. -/
def gather (g : Gathered) : Parsing Unit :=
  modify fun s => { s with comments := g.comments, tree := s.tree.addRecords g.records }

/-- The end of the input, where the token that was delivered last ends. -/
def endToken (last : Option Token) : Token :=
  match last with
  | some t => Token.finish t.span.last t.source
  | none => Token.finish ⟨0, 0⟩ 0

/-- Takes the next token off the stream. Behind the last one stands the end, again and
again. -/
def fetch : Parsing Token := do
  let s ← get
  match s.stream.deliveries with
  | d :: ds => do
    gather d.gathered
    modify fun s => { s with stream := { s.stream with deliveries := ds }, last := some d.token }
    return d.token
  | [] =>
    match s.stream.ending with
    | .error f => throwThe Fault f
    | .ok g => do
      gather g
      modify fun s => { s with stream := { s.stream with ending := .ok {} } }
      return endToken s.last

/-- Takes the next token. -/
def next : Parsing Token := do
  let s ← get
  match s.cache with
  | t :: ts => do
    set { s with cache := ts }
    return t
  | [] => fetch

/-- Takes `n` more tokens into the cache; gives the end if it is met. -/
def fill : Nat → Parsing (Option Token)
  | 0 => return none
  | n + 1 => do
    let t ← fetch
    if t.isFinish then return some t
    else
      modify fun s => { s with cache := s.cache ++ [t] }
      fill n

/-- The token behind the next `i` ones, which is not taken. -/
def peek (i : Nat) : Parsing Token := do
  let s ← get
  match ← fill (i + 1 - s.cache.length) with
  | some t => return t
  | none => do
    let s ← get
    return s.cache[i]?.getD (endToken s.last)

/-- Puts a token back in front of all others. The end need not be put back. -/
def putBack (t : Token) : Parsing Unit :=
  if t.isFinish then pure () else modify fun s => { s with cache := t :: s.cache }

/-- A bound on the number of tokens that are still to come. -/
def tokensLeft : Parsing Nat := do
  let s ← get
  return s.stream.deliveries.length + s.cache.length + 2

/-- A name that was not generated before: the stem and a number. -/
def generateName (stem : String) : Parsing String := do
  let s ← get
  let n := (s.generated.lookup stem).getD 0
  set { s with generated := (stem, n + 1) :: s.generated }
  return stem ++ "_" ++ toString n

/-! ## Comments -/

/-- The comments in front of the next token. -/
def commentsAhead : Parsing (List Token) := do
  let s ← get
  if s.comments.isEmpty then
    let _ ← peek 0
  let s ← get
  return s.comments

/-- Drops the first comments as long as each starts at most one line below the start of the
one before it. -/
def dropAdjacent : (line : Option Nat) → List Token → List Token
  | _, [] => []
  | line, c :: cs =>
    if (line.map fun l => decide (l + 1 < c.position.line)).getD false then c :: cs
    else dropAdjacent (some c.position.line) cs

/-- Drops the block of comments in front of the next token. -/
def skipAdjacentComments : Parsing Unit := do
  let _ ← peek 0
  modify fun s => { s with comments := dropAdjacent none s.comments }

/-- The comments that stand directly above the line `line` of a source or above each other;
they come with the last one first. -/
def precedingComments (source : SourceId) : (line : Nat) → List Token → List Token
  | _, [] => []
  | line, c :: cs =>
    if c.source ≠ source then precedingComments source line cs
    else if c.span.last.line + 1 < line then []
    else c :: precedingComments source c.position.line cs

/-- The comments that describe what starts at the next token. -/
def commentsBefore : Parsing (List Token) := do
  let t ← peek 0
  let comments ← commentsAhead
  return (precedingComments t.source t.position.line comments.reverse).reverse

/-- The comments that start on the line `line` of a source or follow each other from there
on. -/
def succeedingComments (source : SourceId) : (line : Nat) → List Token → List Token
  | _, [] => []
  | line, c :: cs =>
    if c.source ≠ source then succeedingComments source line cs
    else if line < c.position.line then []
    else c :: succeedingComments source (c.span.last.line + 1) cs

/-- Gives an entity the comments in front of it. -/
def attachBefore (id : EntityId) (comments : List Token) : Parsing Unit :=
  modifyEntity id (Entity.attach comments)

/-- Gives an entity the comments that follow it on the line `line`. -/
def attachAfter (id : EntityId) (line : Nat) : Parsing Unit := do
  let e ← entity id
  let comments ← commentsAhead
  let after := succeedingComments e.source line comments
  if (Comment.combine after).1.isEmpty then return
  modifyEntity id fun e =>
    let e := e.attach after
    { e with commentFlags := e.commentFlags.insert .succeeding }
  skipAdjacentComments

/-- Sets where an entity ends. -/
def endAt (id : EntityId) (t : Token) : Parsing Unit :=
  modifyEntity id fun e => { e with span := ⟨e.span.first, t.position⟩ }

/-! ## Faults -/

/-- Completes the place of a fault from the token that was delivered last. -/
def complete (s : Session) (f : Fault) : Fault :=
  match s.last with
  | some t => (f.orAt t.position).orInFile (s.stream.path? t.source)
  | none => f

theorem cause_complete {s : Session} {f : Fault} : (complete s f).cause = f.cause := by
  unfold complete
  cases s.last <;> rfl

end Parsing

end IdlReader
