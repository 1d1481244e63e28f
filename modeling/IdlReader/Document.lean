import IdlReader.Entity.Fingerprint
import IdlReader.Grammar.Content
import IdlReader.Source.Reader

/-!
# Documents

A document is what reading sources gives: the tree of entities and the list of the sources.
`Document.read` reads a text in memory or a file with everything it includes;
`Document.check` only carries out directives and splits the sources into tokens.
-/

namespace IdlReader

/-- What is to be read. -/
inductive Input where
  | nothing
  /-- A text in memory. -/
  | text (content : String)
  /-- A file. -/
  | file (path : String)
deriving DecidableEq, Repr

/-- What reading gives. -/
structure Document where
  tree : Tree
  sources : List SourceInfo

namespace Document

/-- The reader of an input. -/
def reader (env : Environment) (files : FileTree) : Input → Except Fault Reader
  | .nothing => Reader.ofEnvironment env files
  | .text content => Reader.ofText env files content
  | .file path => Reader.ofFile env files path

/-- The session in which nothing of a stream was read. -/
def session (env : Environment) (stream : Stream) : Session :=
  { env, tree := Tree.initial (env.enables .caseSensitiveNames), stream }

/-- Reads the document that a stream delivers. -/
def ofStream (env : Environment) (stream : Stream) : Except Fault Document :=
  match Parsing.readRoot.run (session env stream) with
  | .ok _ s => .ok ⟨s.tree, stream.sources⟩
  | .error f s => .error (Parsing.complete s f)

/-- Reads a document. -/
def read (env : Environment) (files : FileTree) (input : Input) : Except Fault Document := do
  let r ← reader env files input
  ofStream env r.stream

/-- Reads the tokens of an input. -/
def check (env : Environment) (files : FileTree) (input : Input) : Except Fault Unit := do
  let r ← reader env files input
  let _ ← r.stream.ending

section Results

variable {env : Environment} {files : FileTree} {input : Input} {r : Reader} {S : Stream}
  {d : Document} {e : Fault}

/-- A document has the tree that the grammar leaves in its session. -/
theorem ofStream_eq_ok : ofStream env S = .ok d ↔
    ∃ s, Parsing.readRoot (session env S) = .ok () s ∧ d = ⟨s.tree, S.sources⟩ := by
  unfold ofStream EStateM.run
  generalize Parsing.readRoot (session env S) = result
  cases result with
  | ok a s =>
    constructor
    · intro h
      exact ⟨s, rfl, (Except.ok.inj h).symm⟩
    · rintro ⟨s', h, hd⟩
      cases h
      exact congrArg Except.ok hd.symm
  | error f s =>
    constructor
    · intro h
      cases h
    · rintro ⟨s', h, -⟩
      cases h

/-- The fault of a document is that of the grammar, completed in the session that it is found in. -/
theorem ofStream_eq_error : ofStream env S = .error e ↔
    ∃ f s, Parsing.readRoot (session env S) = .error f s ∧ e = Parsing.complete s f := by
  unfold ofStream EStateM.run
  generalize Parsing.readRoot (session env S) = result
  cases result with
  | ok a s =>
    constructor
    · intro h
      cases h
    · rintro ⟨f, s', h, -⟩
      cases h
  | error f s =>
    constructor
    · intro h
      exact ⟨f, s, rfl, (Except.error.inj h).symm⟩
    · rintro ⟨f', s', h, he⟩
      cases h
      exact congrArg Except.error he.symm

theorem read_eq_ofStream (hReader : reader env files input = .ok r) :
    read env files input = ofStream env r.stream := by
  unfold read
  rw [hReader]
  rfl

/-- Reading all tokens fails as the reading of the sources ends. -/
theorem check_eq_error (hReader : reader env files input = .ok r) :
    check env files input = .error e ↔ r.stream.ending = .error e := by
  unfold check
  rw [hReader]
  change (r.stream.ending >>= fun _ => pure ()) = _ ↔ _
  cases r.stream.ending with
  | ok g =>
    constructor
    · intro h
      cases h
    · intro h
      cases h
  | error f =>
    exact ⟨fun h => congrArg Except.error (Except.error.inj h),
      fun h => congrArg Except.error (Except.error.inj h)⟩

end Results

/-- The path of the source that an entity stands in. -/
def sourcePath (d : Document) (id : EntityId) : Option String :=
  d.sources[(d.tree.get id).source]?.bind SourceInfo.path

end Document

end IdlReader
