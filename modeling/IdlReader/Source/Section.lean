import IdlReader.Fault

/-!
# Conditional sections

Directives such as `#if` and `#endif` enclose sections of a source, of which at most one
branch is read. The open sections form a stack with the innermost one first.
-/

namespace IdlReader

/-- How the current branch of a section stands to the branch that is read. -/
inductive Processing where
  /-- It is the branch that is read. -/
  | current
  /-- That branch may still follow. -/
  | future
  /-- That branch went before. -/
  | previous
  /-- No branch is read, because what encloses the section is not. -/
  | disabled
deriving DecidableEq, Repr

/-- An open section. -/
structure Section where
  processing : Processing
  /-- Whether the current branch is the one without a condition. -/
  inElse : Bool := false
deriving DecidableEq, Repr

/-- The open sections with the innermost one first. -/
abbrev Sections := List Section

namespace Sections

/-- Whether what follows is read. -/
def enabled : Sections → Bool
  | [] => true
  | s :: _ => s.processing == .current

/-- Opens a section; the condition is known where the section is read. -/
def enter (s : Sections) (condition : Option Bool) : Sections :=
  ⟨match condition with
    | some true => .current
    | some false => .future
    | none => .disabled, false⟩ :: s

/-- The innermost section, to which `#elif` adds a branch. -/
def forElif : Sections → Except Cause (Section × Sections)
  | [] => .error .elifUnexpected
  | s :: rest => if s.inElse then .error .elifRepeated else .ok (s, rest)

/-- Goes on with the branch of `#else`. -/
def elseBranch : Sections → Except Cause Sections
  | [] => .error .elseUnexpected
  | s :: rest =>
    if s.inElse then .error .elseRepeated
    else
      let processing := match s.processing with
        | .future => .current
        | .current => .previous
        | other => other
      .ok (⟨processing, true⟩ :: rest)

/-- Closes the innermost section. -/
def leave : Sections → Except Cause Sections
  | [] => .error .endifUnexpected
  | _ :: rest => .ok rest

/-- Checks that no more than `depth` sections are open. -/
def closeTo (s : Sections) (depth : Nat) : Except Cause Unit :=
  if depth < s.length then .error .endifMissing else .ok ()

end Sections

end IdlReader
