import IdlReader.Token
import IdlReader.Fault

/-!
# Deliveries

Reading the sources of a run gives a stream of deliveries, one for each token that is left
when directives are carried out and macros are expanded. A delivery brings the comments in
front of its token and the directives that are recorded on the way to it.
-/

namespace IdlReader

/-- How a source was opened. -/
inductive SourceKind where
  | main
  | localInclude
  | globalInclude
deriving DecidableEq, Repr

/-- A source that was opened; a source in memory has no path. -/
structure SourceInfo where
  path : Option String
  kind : SourceKind
deriving DecidableEq, Repr

/-- The kinds of directives that are recorded. -/
inductive RecordKind where
  | includeLocal
  | includeGlobal
  | define
  | undef
  | verbatim
  | verbatimBlock
deriving DecidableEq, Repr

/-- A directive that is recorded, with the comments directly above it. -/
structure Record where
  kind : RecordKind
  content : String
  span : Span
  source : SourceId
  comments : List Token
deriving DecidableEq, Repr

/-- What is gathered on the way to a token. -/
structure Gathered where
  comments : List Token := []
  records : List Record := []
deriving DecidableEq, Repr, Inhabited

namespace Gathered

/-- Adds a comment. -/
def addComment (g : Gathered) (comment : Token) : Gathered :=
  { g with comments := g.comments ++ [comment] }

/-- Splits off the comments directly above the line `line` of a source. The comments come
with the last one first, and so does what is split off in front of what is left. -/
def splitAdjacent (source : SourceId) : (line : Nat) → List Token → List Token × List Token
  | _, [] => ([], [])
  | line, c :: cs =>
    if c.source ≠ source ∨ c.span.last.line + 1 < line ∨ line < c.span.last.line then
      ([], c :: cs)
    else
      let r := splitAdjacent source c.span.first.line cs
      (c :: r.1, r.2)

/-- Records a directive, which takes the comments directly above it. -/
def addRecord (g : Gathered) (kind : RecordKind) (content : String) (directive : Token) :
    Gathered :=
  let r := splitAdjacent directive.source directive.position.line g.comments.reverse
  { comments := r.2.reverse,
    records := g.records ++
      [⟨kind, content, directive.span, directive.source, r.1.reverse⟩] }

end Gathered

/-- A token and what was gathered on the way to it. -/
structure Delivery where
  gathered : Gathered
  token : Token
deriving DecidableEq, Repr

/-- Everything that the sources of a run deliver: the tokens, what was gathered behind the
last one or the fault that ended the reading, and the sources that were opened. -/
structure Stream where
  deliveries : List Delivery
  ending : Except Fault Gathered
  sources : List SourceInfo

/-- The stream of a run without sources. -/
def Stream.empty : Stream := ⟨[], .ok {}, []⟩

/-- The path of a source. -/
def Stream.path? (s : Stream) (source : SourceId) : Option String :=
  s.sources[source]?.bind SourceInfo.path

/-- The tokens of a stream. -/
def Stream.tokens (s : Stream) : List Token := s.deliveries.map Delivery.token

end IdlReader
