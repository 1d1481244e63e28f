import IdlReader.Proofs.Document.Fault
import IdlReader.Proofs.Source.Inclusion
import IdlReader.Proofs.Source.Nesting

/-!
# Inclusion and directives in documents

Reading all tokens comes to an end for all files. The sources that are open at a time are as few as
the environment says, no file is opened twice, and a directive that asks for either is a fault.

A directive that fails ends the reading of the sources, and no document is read. The fault has the
path of the source that the directive stands in, and the line of the directive, unless a condition or
the body of a macro leads to another place or to none.

* `inclusion_bounded`: what holds in all turns of a run, and how it ends.
* `Reader.fault_of_directive`: where the fault of a directive is found.
* `Document.place_of_directive`: what becomes of it.
* `Document.place_of_directive_unplaced`: a condition without an expression.
-/

/-! ## Inclusion -/

namespace IdlReader.Document

open Reader (Turns Turn)

/-- What holds of a reader before it reads. -/
theorem initial_reader {env : Environment} {files : FileTree} {input : Input}
    (hProper : files.Proper) : Ok (reader env files input) fun r =>
      r.env = env ∧ r.files = files ∧ r.ahead = none ∧ r.Bounded := by
  have hEnvironment : Ok (Reader.ofEnvironment env files) fun r =>
      r.env = env ∧ r.files = files ∧ r.ahead = none ∧ r.sources = [] ∧ r.frames = [] ∧
        r.opened = [] := by
    unfold Reader.ofEnvironment
    exact ok_bind (P := fun _ => True) (fun _ _ => trivial) fun macros _ =>
      ok_ok ⟨rfl, rfl, rfl, rfl, rfl, rfl⟩
  cases input with
  | nothing =>
    refine hEnvironment.mono ?_
    rintro r ⟨hEnv, hFiles, hAhead, hSources, hFrames, hOpened⟩
    refine ⟨hEnv, hFiles, hAhead, ?_, ?_, ?_, ?_⟩
    · rw [hFrames]
      exact Nat.zero_le _
    · rw [hSources, hOpened]
      rfl
    · rw [hOpened]
      exact List.nodup_nil
    · rw [hOpened]
      exact nofun
  | text content =>
    refine ok_bind hEnvironment ?_
    rintro r ⟨hEnv, hFiles, hAhead, hSources, hFrames, hOpened⟩
    refine ok_ok ⟨hEnv, hFiles, hAhead, ?_, ?_, ?_, ?_⟩
    · simp only [Reader.enter, hFrames]
      exact Nat.le_max_left _ _
    · simp only [Reader.enter, hSources, hOpened]
      rfl
    · simp only [Reader.enter, hOpened]
      exact List.nodup_nil
    · simp only [Reader.enter, hOpened]
      exact nofun
  | file path =>
    change Ok (Reader.ofFile env files path) _
    unfold Reader.ofFile
    split
    · exact ok_error _ _
    · rename_i canonical hCanonical
      split
      · exact ok_error _ _
      · refine ok_bind hEnvironment ?_
        rintro r ⟨hEnv, hFiles, hAhead, hSources, hFrames, hOpened⟩
        refine ok_ok ⟨hEnv, hFiles, hAhead, ?_, ?_, ?_, ?_⟩
        · simp only [Reader.enter, hFrames]
          exact Nat.le_max_left _ _
        · simp only [Reader.enter, hSources]
          rfl
        · exact List.nodup_cons.mpr ⟨List.not_mem_nil, List.nodup_nil⟩
        · intro path hPath
          simp only [Reader.enter, List.mem_singleton] at hPath
          rw [hPath]
          simp only [Reader.enter, hFiles]
          exact FileTree.canonical_of_canonical hProper hCanonical

/-- Reading all tokens ends at the fault of any step that the turns of a run come to. -/
theorem check_of_fault {env : Environment} {files : FileTree} {input : Input} {r r' : Reader}
    (hProper : files.Proper) (hReader : reader env files input = .ok r) {g : Gathered} {f : Fault}
    (h : Turns (r, {}) (r', g)) (hSome : r'.frames ≠ []) (hStep : r'.step g = .error f) :
    check env files input = .error (f.orInFile r'.path?) := by
  obtain ⟨-, rfl, hAhead, -⟩ := initial_reader hProper r hReader
  exact (check_eq_error hReader).mpr
    (Reader.ending_stream_of_fault hProper hAhead h hSome hStep)

/-- Reading all tokens of an input comes to its end, whatever the files are: there is no infinite
run, the run that the stream is read by is not cut off, and neither are the calls of macros in it.
In all turns on the way, no more sources are open than the environment allows or one, and the
sources that are files are those that were opened, each once under its canonical path. A directive
that includes a file that was opened, or one too deep, ends the reading. -/
theorem inclusion_bounded {env : Environment} {files : FileTree} {input : Input} {r : Reader}
    (hProper : files.Proper) (hReader : reader env files input = .ok r) :
    (∀ p q, Turns (r, {}) p → Turn p q → q.1.remaining < p.1.remaining) ∧
    (∃ p, Turns (r, {}) p ∧ Reader.Ends p r.stream.ending) ∧
    (∀ f, check env files input = .error f → f.cause ≠ .inputExhausted) ∧
    ∀ p, Turns (r, {}) p →
      (∀ name args depth, p.1.macros.definitions.length < depth →
        Macro.expandWithin p.1.macros depth [name.text] name args =
          Macro.expandWithin p.1.macros (p.1.macros.definitions.length + 1) [name.text] name args) ∧
      p.1.frames.length ≤ max 1 env.maxIncludeDepth ∧
      p.1.sources.filterMap SourceInfo.path = p.1.opened.reverse ∧ p.1.opened.Nodup ∧
      (∀ path ∈ p.1.opened, files.canonical path = .ok path) ∧
      ∀ t path, p.1.Includes t path → ∃ canonical, files.canonical path = .ok canonical ∧
        (canonical ∈ p.1.opened ∨ env.maxIncludeDepth ≤ p.1.frames.length → ∃ cause : Cause,
          cause = (if canonical ∈ p.1.opened then .includeRepeated canonical
            else .includeTooDeep) ∧ cause.category = .inclusion ∧
          check env files input = .error ⟨cause, some t.position, p.1.path?⟩) := by
  obtain ⟨rfl, rfl, hAhead, hBounded⟩ := initial_reader hProper r hReader
  obtain ⟨p, hTurns, hEnds⟩ :=
    Reader.ends_run (p := (r, {})) hProper (Reader.remaining_lt_budget hAhead)
  refine ⟨fun p q hp hq => ?_, ⟨p, hTurns, hEnds⟩, fun f hf => ?_, fun p hp => ?_⟩
  · exact Reader.remaining_lt_of_turn ((Reader.same_of_turns hp).2 ▸ hProper) hq
  · exact hEnds.cause_ne ((check_eq_error hReader).mp hf)
  · obtain ⟨hEnv, hFiles⟩ := Reader.same_of_turns hp
    obtain ⟨hDepth, hPaths, hNodup, hCanonical⟩ := Reader.bounded_of_turns hProper hBounded hp
    refine ⟨fun name args depth => Macro.expandWithin_of_lt name args, hEnv ▸ hDepth, hPaths, hNodup,
      fun path hPath => hFiles ▸ hCanonical path hPath, fun t path hIncludes => ?_⟩
    obtain ⟨canonical, hPath, hRejects⟩ := Reader.step_of_includes (g := p.2) hIncludes
    refine ⟨canonical, hFiles ▸ hPath, fun hRejected => ?_⟩
    obtain ⟨cause, hCause, hStep⟩ := hRejects (hEnv ▸ hRejected)
    refine ⟨cause, hCause, ?_, check_of_fault hProper hReader hp hIncludes.1 hStep⟩
    rw [hCause]
    split <;> rfl

/-- Two files that include each other. -/
def circularFiles : FileTree :=
  ⟨["d"], [(["d", "main.idl"], "#include \"a.idl\"\n".toUTF8.toList),
    (["d", "a.idl"], "#include \"main.idl\"\n".toUTF8.toList)]⟩

/-- Reading two files that include each other ends at the second directive. -/
theorem inclusion_bounded_circular :
    circularFiles.Proper ∧ ∃ r p t, reader {} circularFiles (.file "main.idl") = .ok r ∧
      Turns (r, {}) p ∧ p.1.Includes t "/d/main.idl" ∧ p.1.frames.length ≤ 48 ∧
      (∃ q, Turns (r, {}) q ∧ Reader.Ends q r.stream.ending) ∧
      check {} circularFiles (.file "main.idl") =
        .error ⟨.includeRepeated "/d/main.idl", some ⟨1, 1⟩, some "/d/a.idl"⟩ := by
  have hProper : circularFiles.Proper := by
    intro name hName
    rw [List.mem_singleton.mp hName]
    decide
  have hCanonical : circularFiles.canonical "/d/main.idl" = .ok "/d/main.idl" := by decide +kernel
  have hRun : ((reader {} circularFiles (.file "main.idl")).toOption.any fun r =>
      (Reader.next? (r, {})).any fun p => p.1.frames.length == 2 && p.1.enabled &&
        p.1.path? == some "/d/a.idl" && p.1.opened == ["/d/a.idl", "/d/main.idl"] &&
        p.1.skipDisabled.raw.toOption.any fun x => x.1.kind == .directive &&
          x.1.keyword == "include" && x.1.position == ⟨1, 1⟩ &&
          (Reader.includeTarget x.1.behindKeyword).toOption.any fun y =>
            x.2.findInclude (String.ofList y.2.1) y.1 == some "/d/main.idl") = true := by
    decide +kernel
  obtain ⟨r, hReader, hRun⟩ := any_toOption hRun
  obtain ⟨p, hNext, hRun⟩ := (Option.any_eq_true _ _).mp hRun
  simp only [Bool.and_eq_true, beq_iff_eq] at hRun
  obtain ⟨⟨⟨⟨hLength, hEnabled⟩, hPath⟩, hOpened⟩, hRun⟩ := hRun
  obtain ⟨⟨t, r'⟩, hMeets, hRun⟩ := any_toOption hRun
  simp only [Bool.and_eq_true, beq_iff_eq] at hRun
  obtain ⟨⟨⟨hKind, hKeyword⟩, hPosition⟩, hRun⟩ := hRun
  obtain ⟨⟨isLocal, name, content⟩, hTarget, hFind⟩ := any_toOption hRun
  have hTurns : Turns (r, {}) p := .single (Reader.turn_of_next? hNext)
  have hIncludes : p.1.Includes t "/d/main.idl" :=
    ⟨List.ne_nil_of_length_eq_add_one hLength, hEnabled, hKind, hKeyword, r', isLocal, name, content,
      hMeets, hTarget, beq_iff_eq.mp hFind⟩
  obtain ⟨-, hEnds, -, hRuns⟩ := inclusion_bounded hProper hReader
  obtain ⟨-, hDepth, -, -, -, hRejects⟩ := hRuns _ hTurns
  obtain ⟨canonical, hPathOf, hRejected⟩ := hRejects t _ hIncludes
  cases hCanonical.symm.trans hPathOf
  have hMember : "/d/main.idl" ∈ p.1.opened := by
    rw [hOpened]
    decide
  obtain ⟨cause, hCause, -, hCheck⟩ := hRejected (Or.inl hMember)
  refine ⟨hProper, r, p, t, hReader, hTurns, hIncludes, ?_, hEnds, ?_⟩
  · exact Nat.le_trans hDepth (by decide)
  · rw [hCheck, hCause, if_pos hMember, hPosition, hPath]

end IdlReader.Document

/-! ## Faults of directives -/

namespace IdlReader

namespace Reader

variable {r : Reader} {g : Gathered} {t : Token} {f : Fault}

/-- What leads the fault of a directive away from the line that the directive stands on. -/
inductive Displaces (r : Reader) (t : Token) (f : Fault) : Prop where
  /-- The body of a macro, a condition or what two tokens are joined to is split into tokens as a
  source of its own, in which lines are counted anew. -/
  | split {source : SourceId} {text : List Char} :
      t.keyword = "define" ∨ t.keyword = "if" ∨ t.keyword = "elif" →
      tokenize r.macros.lexicon false source text = .error f → Displaces r t f
  /-- Nothing places what is wrong with a condition as a whole. -/
  | unplaced : t.keyword = "if" ∨ t.keyword = "elif" → f.position = none → Displaces r t f
  /-- A call inside of the body of a macro stands where the body was read. -/
  | call : t.keyword = "if" ∨ t.keyword = "elif" →
      f.cause = .argumentsMissing ∨ f.cause = .argumentsTooMany → Displaces r t f

/-- Whether a fault is found on the line of a directive or was led away from it. -/
def Reported (r : Reader) (t : Token) (f : Fault) : Prop :=
  (∃ p, f.position = some p ∧ p.line = t.position.line) ∨ r.Displaces t f

theorem reported_placed {cause : Cause} {p : Position} (h : p.line = t.position.line) :
    r.Reported t ((Fault.of cause).placed p) := Or.inl ⟨p, rfl, h⟩

theorem admits_reported (h : t.keyword = "if" ∨ t.keyword = "elif") :
    AdmitsTokens r.macros.lexicon (fun p => p.line = t.position.line) (r.Reported t) where
  unplaced _ := Or.inr (.unplaced h rfl)
  placed _ := reported_placed
  split hText := Or.inr (.split (Or.inr h) hText)
  call hCause := Or.inr (.call h hCause)

/-- A fault of a definition is placed at the directive unless the body of the macro has a place for
it. -/
theorem admitsTexts_reported (h : t.keyword = "define") :
    AdmitsTexts r.macros.lexicon fun f => r.Reported t (f.orAt t.position) where
  unplaced _ := reported_placed rfl
  split {_ _ f} hText := by
    cases hPosition : f.position with
    | none => exact Or.inl ⟨t.position, by rw [Fault.orAt, hPosition]; rfl, rfl⟩
    | some p =>
      rw [Fault.orAt_of_position hPosition]
      exact Or.inr (.split (Or.inl h) hText)

/-- The fault of a directive is found on its line, or it was led away from there. -/
theorem fault_of_directive (hKeyword : t.keyword ≠ "verbatim_begin")
    (h : r.processDirective g t = .error f) : f.file = none ∧ r.Reported t f :=
  ⟨(finishes_processDirective.fault h).file,
    (exits_processDirective (fun _ => reported_placed rfl) admits_reported admitsTexts_reported
      fun hVerbatim => absurd hVerbatim hKeyword).fault h⟩

theorem step_of_directive {r₁ : Reader} (hMeets : r.Meets t r₁) (hKind : t.kind = .directive)
    (h : r₁.processDirective g t = .error f) : r.step g = .error f := by
  unfold step
  rw [show r.skipDisabled.raw = .ok (t, r₁) from hMeets, ok_bind_eq]
  dsimp only
  rw [hKind, h]
  rfl

end Reader

namespace Document

open Reader (Turns)

/-- **Faults of directives.** Where a run comes to a directive that fails, reading all tokens ends
with the fault, in the source that the directive stands in. No document is read: the grammar fails at
what was delivered in front of the directive, and would do so whatever came there, or the fault is that
of the directive. What is missing of its place is then that of the last token, so the line is that of
the directive unless the fault was led away from it, and the path is that of its source unless this is
a text in memory. -/
theorem place_of_directive {env : Environment} {files : FileTree} {input : Input}
    {r r₁ : Reader} {p : Reader × Gathered} {t : Token} {f : Fault} (hProper : files.Proper)
    (hReader : reader env files input = .ok r) (hTurns : Turns (r, {}) p)
    (hSome : p.1.frames ≠ []) (hMeets : p.1.Meets t r₁) (hKind : t.kind = .directive)
    (hKeyword : t.keyword ≠ "verbatim_begin") (hFault : r₁.processDirective p.2 t = .error f) :
    r₁.Reported t f ∧ check env files input = .error ⟨f.cause, f.position, p.1.path?⟩ ∧
      ∃ e, read env files input = .error e ∧
        (FailsInside env r.stream e ∨
          e.cause = f.cause ∧
          e.position = f.position.or (r.stream.deliveries.getLast?.map (·.token.position)) ∧
          e.file = p.1.path?.or
            (r.stream.deliveries.getLast?.bind fun d => r.stream.path? d.token.source)) := by
  obtain ⟨hFile, hReported⟩ := Reader.fault_of_directive hKeyword hFault
  have hStep := Reader.step_of_directive hMeets hKind hFault
  have hPlace : f.orInFile p.1.path? = ⟨f.cause, f.position, p.1.path?⟩ := by
    rw [Fault.orInFile, hFile, Option.none_or]
  obtain ⟨-, hFiles, hAhead, -⟩ := initial_reader hProper r hReader
  have hEnding := Reader.ending_stream_of_fault (hFiles ▸ hProper) hAhead hTurns hSome hStep
  rw [hPlace] at hEnding
  refine ⟨hReported, (check_eq_error hReader).mpr hEnding, ?_⟩
  obtain ⟨e, hRead, hFault⟩ := read_of_ending hReader hEnding
  refine ⟨e, hRead, hFault.imp_right ?_⟩
  rintro rfl
  exact ⟨Stream.cause_complete, Stream.position_complete, Stream.file_complete⟩

/-- A file with a constant, and a directive that closes no section. -/
def closingFiles : FileTree :=
  ⟨["d"], [(["d", "main.idl"], "const long x = 1;\n#endif\n".toUTF8.toList)]⟩

/-- The directive is reported in the second line of the file, also by what reads the constant in front
of it, which there is nothing wrong with. -/
theorem place_of_directive_closing :
    closingFiles.Proper ∧ ∃ r p r₁ t f, reader {} closingFiles (.file "main.idl") = .ok r ∧
      Turns (r, {}) p ∧ p.1.frames ≠ [] ∧ p.1.Meets t r₁ ∧ t.kind = .directive ∧
      t.keyword ≠ "verbatim_begin" ∧ r₁.processDirective p.2 t = .error f ∧ t.position = ⟨2, 1⟩ ∧
      check {} closingFiles (.file "main.idl") =
        .error ⟨.endifUnexpected, some ⟨2, 1⟩, some "/d/main.idl"⟩ ∧
      read {} closingFiles (.file "main.idl") =
        .error ⟨.endifUnexpected, some ⟨2, 1⟩, some "/d/main.idl"⟩ := by
  have hProper : closingFiles.Proper := by
    intro name hName
    rw [List.mem_singleton.mp hName]
    decide
  have hRun : ((reader {} closingFiles (.file "main.idl")).toOption.any fun r =>
      (ofStream {} { r.stream with ending := .ok {} }).toOption.isSome &&
      ((List.replicate 6 ()).foldlM (fun p _ => Reader.next? p) (r, {})).any fun p =>
        !p.1.frames.isEmpty && p.1.path? == some "/d/main.idl" &&
          p.1.skipDisabled.raw.toOption.any fun x => x.1.kind == .directive &&
            x.1.keyword != "verbatim_begin" && x.1.position == ⟨2, 1⟩ &&
            match x.2.processDirective p.2 x.1 with
            | .ok _ => false
            | .error f => f.cause == .endifUnexpected && f.position == some ⟨2, 1⟩) = true := by
    decide +kernel
  obtain ⟨r, hReader, hRun⟩ := any_toOption hRun
  obtain ⟨hSound, hRun⟩ := (Bool.and_eq_true _ _).mp hRun
  obtain ⟨p, hTurns, hRun⟩ := (Option.any_eq_true _ _).mp hRun
  simp only [Bool.and_eq_true, Bool.not_eq_true', beq_iff_eq] at hRun
  obtain ⟨⟨hSome, hPath⟩, hRun⟩ := hRun
  obtain ⟨⟨t, r₁⟩, hMeets, hRun⟩ := any_toOption hRun
  simp only [Bool.and_eq_true, bne_iff_ne, beq_iff_eq] at hRun
  obtain ⟨⟨⟨hKind, hKeyword⟩, hPosition⟩, hRun⟩ := hRun
  split at hRun
  · cases hRun
  · rename_i f hFault
    simp only [Bool.and_eq_true, beq_iff_eq] at hRun
    have hFrames : p.1.frames ≠ [] := by simpa using hSome
    obtain ⟨-, hCheck, e, hRead, hInside | ⟨hCause, hPlace, hFile⟩⟩ := place_of_directive hProper
      hReader (Reader.turns_of_foldlM hTurns) hFrames hMeets hKind hKeyword hFault
    · rw [hInside.anyway] at hSound
      cases hSound
    · rw [hRun.1] at hCause
      rw [hRun.2, Option.some_or] at hPlace
      rw [hPath, Option.some_or] at hFile
      obtain ⟨cause, position, file⟩ := e
      cases hCause
      cases hPlace
      cases hFile
      refine ⟨hProper, r, p, r₁, t, f, hReader, Reader.turns_of_foldlM hTurns, hFrames, hMeets, hKind,
        hKeyword, hFault, hPosition, ?_, hRead⟩
      rw [hCheck, hRun.1, hRun.2, hPath]

/-- **The line of another token.** The directive in the third line of this text has no condition. What
is reported has the place of the semicolon in the first line. -/
theorem place_of_directive_unplaced :
    ∃ r p t r₁ f e,
      reader {} ⟨[], []⟩ (.text "struct S \x7b long a; \x7d;\n\n#if\n#endif") = .ok r ∧
      Turns (r, {}) p ∧ p.1.Meets t r₁ ∧ t.kind = .directive ∧ t.keyword = "if" ∧
      t.position = ⟨3, 1⟩ ∧ r₁.processDirective p.2 t = .error f ∧
      read {} ⟨[], []⟩ (.text "struct S \x7b long a; \x7d;\n\n#if\n#endif") = .error e ∧
      e.cause = f.cause ∧ e.position = some ⟨1, 21⟩ := by
  have hRun : (match reader {} ⟨[], []⟩
        (.text "struct S \x7b long a; \x7d;\n\n#if\n#endif"),
      read {} ⟨[], []⟩ (.text "struct S \x7b long a; \x7d;\n\n#if\n#endif") with
      | .ok r, .error e => e.cause == .expressionMissing && e.position == some ⟨1, 21⟩ &&
          ((List.replicate 8 ()).foldlM (fun p _ => Reader.next? p) (r, {})).any fun p =>
            p.1.skipDisabled.raw.toOption.any fun x => x.1.kind == .directive &&
              x.1.keyword == "if" && x.1.position == ⟨3, 1⟩ &&
              match x.2.processDirective p.2 x.1 with
              | .ok _ => false
              | .error f => f.cause == .expressionMissing
      | _, _ => false) = true := by decide +kernel
  split at hRun
  · rename_i r e hReader hRead
    simp only [Bool.and_eq_true, beq_iff_eq] at hRun
    obtain ⟨⟨hCause, hPosition⟩, hRun⟩ := hRun
    obtain ⟨p, hTurns, hRun⟩ := (Option.any_eq_true _ _).mp hRun
    obtain ⟨⟨t, r₁⟩, hMeets, hRun⟩ := any_toOption hRun
    simp only [Bool.and_eq_true, beq_iff_eq] at hRun
    obtain ⟨⟨⟨hKind, hKeyword⟩, hPlace⟩, hRun⟩ := hRun
    split at hRun
    · cases hRun
    · rename_i f hFault
      exact ⟨r, p, t, r₁, f, e, hReader, Reader.turns_of_foldlM hTurns, hMeets, hKind, hKeyword,
        hPlace, hFault, hRead, hCause.trans (beq_iff_eq.mp hRun).symm, hPosition⟩
  · cases hRun

end Document

end IdlReader
