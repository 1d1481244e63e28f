import IdlReader.Proofs.Source.Delivery
import IdlReader.Proofs.Trace.Content

/-!
# Places of faults

The line of a fault is that of a token. The path is that of the source whose token was read last
when the fault was raised, since tokens hand on their position only. The two belong to one source
as long as no token of another source was read.

Where the reading of the sources ends with a fault, this is the fault of the document unless the
grammar fails in front of it. Then it fails in the same way whatever the sources end with.

* `fault_of_ofStream`: what completes the faults of a stream.
* `placed_of_read`: no document is read if the reading of the sources ends with a fault, and all
  recorded directives are in the tree.
* `read_of_ending`: the fault of the document.
* `path_of_fault`: lines and paths of faults.
* `path_of_fault_evaluated`: a constant of an included file that is evaluated behind the file.
-/

namespace IdlReader

/-- A fault with what is missing of its place filled in from the last token that was read. -/
def Stream.complete (S : Stream) (read : List Delivery) (f : Fault) : Fault :=
  match read.getLast? with
  | some d => (f.orAt d.token.position).orInFile (S.path? d.token.source)
  | none => f

namespace Stream

variable {S : Stream} {read : List Delivery} {f : Fault}

/-- A completed fault has the file that the fault names, or that of the last token. -/
theorem file_complete : (S.complete read f).file =
    f.file.or (read.getLast?.bind fun d => S.path? d.token.source) := by
  unfold complete
  cases read.getLast? with
  | none => exact (Option.or_none).symm
  | some d => rfl

theorem cause_complete : (S.complete read f).cause = f.cause := by
  unfold complete
  cases read.getLast? with
  | none => rfl
  | some d => rfl

/-- A completed fault has a position if anything was read, and it lies where the position of the
fault did or at the last token. -/
theorem position_complete :
    (S.complete read f).position = f.position.or (read.getLast?.map (·.token.position)) := by
  unfold complete
  cases read.getLast? with
  | none => exact (Option.or_none).symm
  | some d => rfl

end Stream

/-- The fault of a session is completed from the last token that was read. -/
theorem Session.Placed.complete {S : Stream} {τ : Trace} {s : Session} (h : s.Placed S τ)
    (f : Fault) : Parsing.complete s f = S.complete τ.read f := by
  unfold Parsing.complete Stream.complete Stream.path?
  rw [h.last, h.sources]
  cases τ.read.getLast? with
  | none => rfl
  | some d => rfl

namespace Document

open Parsing

/-- The root alone is no recorded directive. -/
theorem placed_initial (S : Stream) (caseSensitive : Bool) :
    (Tree.initial caseSensitive).Placed S {} := by
  have hGet : ∀ i, (Tree.initial caseSensitive).get i =
      (Tree.initial caseSensitive).get Tree.root ∨
        (Tree.initial caseSensitive).get i = default := by
    rintro (_ | i)
    · exact Or.inl rfl
    · exact Or.inr (Tree.get_of_le (Nat.not_lt.mpr (Nat.le_add_left 1 i)))
  refine ⟨fun i => Entity.placed_of_none ?_, rfl, rfl, fun i r hr => ?_, fun i _ => ?_,
    fun s d k x hEntry => ?_⟩
  · rcases hGet i with hSame | hSame <;> rw [hSame] <;> rfl
  · rcases i with _ | i <;> cases hr
  · rcases hGet i with hSame | hSame <;> rw [hSame] <;> rfl
  · have hScope : (Tree.initial caseSensitive).scope s = {} := by
      rcases s with _ | s <;> rfl
    rw [hScope, Scope.get?_empty] at hEntry
    cases hEntry

/-- The session that reading starts in. -/
theorem placed_session (env : Environment) (S : Stream) : (session env S).Placed S {} :=
  ⟨rfl, rfl, rfl, Stream.holds_nil, nofun, placed_initial S _, fun _ => Iff.rfl, rfl⟩

/-- **A fault of a document** is found at a token that was read by then, or it is the one that
ended the stream. What is missing of its place is that of the token that was read last. -/
theorem fault_of_ofStream {env : Environment} {S : Stream} {e : Fault}
    (h : ofStream env S = .error e) :
    ∃ f s delivered, readRoot (session env S) = .error f s ∧ e = complete s f ∧
      S.deliveries = delivered ++ s.stream.deliveries ∧ e = S.complete delivered f ∧
      S.Explains True delivered f := by
  have hRun := (traces_readRoot (session env S) (placed_session env S)).1
  obtain ⟨f, s, hResult, rfl⟩ := ofStream_eq_error.mp h
  rw [hResult] at hRun
  obtain ⟨τ, -, hPlaced, hFault⟩ := hRun
  exact ⟨f, s, τ.read, hResult, rfl, hPlaced.deliveries.symm, hPlaced.complete f, hFault⟩

/-- A stream that ends with a fault gives what it would give with any other end, or that fault. -/
theorem ofStream_of_ending {env : Environment} {S : Stream} {f : Fault}
    (hEnding : S.ending = .error f) :
    (∀ ending, ofStream env { S with ending } = ofStream env S) ∨
      ofStream env S = .error (S.complete S.deliveries f) := by
  obtain ⟨hRun, hEnd⟩ := traces_readRoot (session env S) (placed_session env S)
  refine (hEnd f hEnding).imp (fun hSame ending => ?_) fun ⟨_, s, hFault, hAll⟩ => ?_
  · have hOther : readRoot (session env { S with ending }) =
        ended (readRoot (session env S)) ending := hSame ending
    unfold ofStream EStateM.run
    rw [hOther]
    cases readRoot (session env S) <;> rfl
  · rw [hFault] at hRun
    obtain ⟨τ, -, hPlaced, -⟩ := hRun
    have hDelivered := hPlaced.deliveries
    rw [hAll, List.append_nil] at hDelivered
    exact ofStream_eq_error.mpr ⟨f, s, hFault, hDelivered ▸ (hPlaced.complete f).symm⟩

/-- A document is read up to the end of its sources, which the reading of them came to, and all
directives on the way were recorded. -/
theorem placed_of_read {env : Environment} {files : FileTree} {input : Input} {r : Reader}
    {d : Document} (hReader : reader env files input = .ok r)
    (hRead : read env files input = .ok d) :
    (∃ g, r.stream.ending = .ok g) ∧
      ∃ τ, d.tree.Placed r.stream τ ∧ τ.records = r.stream.records := by
  have hRun := (traces_readRoot (session env r.stream) (placed_session env r.stream)).1
  rw [read_eq_ofStream hReader] at hRead
  obtain ⟨s, hResult, rfl⟩ := ofStream_eq_ok.mp hRead
  rw [hResult] at hRun
  obtain ⟨τ, -, hPlaced, ⟨x, hx, hFinish⟩ | ⟨hEnding, hAll⟩⟩ := hRun
  · have hSolid := solid_deliveries env files input r hReader x.token (List.mem_map_of_mem hx)
    exact absurd (beq_iff_eq.mp hFinish) hSolid.finish
  · have hSome : τ.records <+: r.stream.records := hPlaced.records ▸ List.prefix_append _ _
    exact ⟨hEnding, τ, hPlaced.tree, hSome.eq_of_length_le hAll.length_le⟩

theorem ending_of_read {env : Environment} {files : FileTree} {input : Input} {r : Reader}
    {d : Document} (hReader : reader env files input = .ok r)
    (hRead : read env files input = .ok d) : ∃ g, r.stream.ending = .ok g :=
  (placed_of_read hReader hRead).1

/-- Whether the grammar fails at what a stream delivers. The fault that is completed to `e` is found
at a token that was read by then, if it is found anywhere, and it is the same whatever the stream ends
with. -/
structure FailsInside (env : Environment) (S : Stream) (e : Fault) : Prop where
  fault : ∃ g s delivered, readRoot (session env S) = .error g s ∧ e = complete s g ∧
    S.deliveries = delivered ++ s.stream.deliveries ∧ S.Explains False delivered g
  anyway : ∀ ending, ofStream env { S with ending } = .error e

/-- No document is read where the reading of its sources ends with a fault: the grammar fails at what
stands in front of the fault, or it is this fault, of which what is missing of its place is that of
the last token. -/
theorem read_of_ending {env : Environment} {files : FileTree} {input : Input} {r : Reader}
    {f : Fault} (hReader : reader env files input = .ok r) (hEnding : r.stream.ending = .error f) :
    ∃ e, read env files input = .error e ∧
      (FailsInside env r.stream e ∨ e = r.stream.complete r.stream.deliveries f) := by
  cases hRead : read env files input with
  | ok d =>
    obtain ⟨g, hOk⟩ := ending_of_read hReader hRead
    rw [hEnding] at hOk
    cases hOk
  | error e =>
    refine ⟨e, rfl, ?_⟩
    rw [read_eq_ofStream hReader] at hRead
    rcases @ofStream_of_ending env r.stream f hEnding with hSame | hFault
    · obtain ⟨g, s, delivered, hRun, hComplete, hSplit, hPlace, hFound | ⟨-, hEnd, hAll⟩⟩ :=
        fault_of_ofStream hRead
      · exact Or.inl ⟨⟨g, s, delivered, hRun, hComplete, hSplit, Or.inl hFound⟩,
          fun ending => (hSame ending).trans hRead⟩
      · rw [hEnding] at hEnd
        cases hEnd
        exact Or.inr (hAll ▸ hPlace)
    · exact Or.inr (Except.error.inj (hRead.symm.trans hFault))

/-- **Lines and paths of faults.** The grammar fails in a session, and by then the tokens in front of
those that are left in the session were read. Unless the reading of the sources itself ended with the
fault, its line is that of a token that was read, and its path is that of the source of the last one of
these tokens. So the path is right if all of them come from sources with one path; where the last one
comes from another file than the token on whose line the fault was found, it is not. -/
theorem path_of_fault {env : Environment} {files : FileTree} {input : Input} {r : Reader}
    {e : Fault} (hReader : reader env files input = .ok r)
    (hRead : read env files input = .error e) :
    ∃ f s delivered, readRoot (session env r.stream) = .error f s ∧ e = complete s f ∧
      r.stream.deliveries = delivered ++ s.stream.deliveries ∧
      (r.stream.ending = .error f ∧ s.stream.deliveries = [] ∧
          e = r.stream.complete delivered f ∨
        (e.file = delivered.getLast?.bind fun d => r.stream.path? d.token.source) ∧
        (delivered ≠ [] → ∃ p, e.position = some p ∧ ∃ d ∈ delivered,
          p.line = d.token.span.first.line ∨ p.line = d.token.span.last.line) ∧
        ∀ path, delivered ≠ [] → (∀ d ∈ delivered, r.stream.path? d.token.source = path) →
          e.file = path) := by
  rw [read_eq_ofStream hReader] at hRead
  obtain ⟨f, s, delivered, hRun, hComplete, hSplit, rfl, hFault⟩ := fault_of_ofStream hRead
  refine ⟨f, s, delivered, hRun, hComplete, hSplit, ?_⟩
  rcases hFault with ⟨hFile, hPosition⟩ | ⟨-, hEnding, hAll⟩
  · have hPath := @Stream.file_complete r.stream delivered f
    rw [hFile, Option.none_or] at hPath
    have hLast : delivered ≠ [] → ∃ d ∈ delivered, delivered.getLast? = some d := by
      intro hSome
      obtain ⟨d, hd⟩ := Option.isSome_iff_exists.mp (List.getLast?_isSome.mpr hSome)
      exact ⟨d, List.mem_of_getLast? hd, hd⟩
    refine Or.inr ⟨hPath, fun hSome => ?_, fun path hSome hOne => ?_⟩
    · obtain ⟨last, hMem, hLast⟩ := hLast hSome
      rw [Stream.position_complete, hLast]
      cases hp : f.position with
      | none => exact ⟨_, rfl, last, hMem, Or.inl rfl⟩
      | some p =>
        refine ⟨p, rfl, (hPosition p hp).resolve_left fun hNone => ?_⟩
        rw [hNone] at hSplit
        exact hSome (List.append_eq_nil_iff.mp hSplit.symm).1
    · obtain ⟨last, hMem, hLast⟩ := hLast hSome
      rw [hPath, hLast]
      exact hOne last hMem
  · refine Or.inl ⟨hEnding, ?_, rfl⟩
    rw [hAll] at hSplit
    exact List.self_eq_append_right.mp hSplit

/-- A file that includes another one. -/
def includingFiles (main included : String) : FileTree :=
  ⟨["d"], [(["d", "main.idl"], main.toUTF8.toList), (["d", "a.idl"], included.toUTF8.toList)]⟩

/-- The size of this array is evaluated when the struct around it is closed. By then only tokens of
the included file were read, and the fault has the path of this file, although a constant of the main
file stands behind it. -/
theorem path_of_fault_enclosed :
    ∃ r e, reader {} (includingFiles "#include \"a.idl\"\nconst long y=1;\n"
        "struct S \x7b\nlong x[1/0]; \x7d;\n") (.file "main.idl") = .ok r ∧
      read {} (includingFiles "#include \"a.idl\"\nconst long y=1;\n"
        "struct S \x7b\nlong x[1/0]; \x7d;\n") (.file "main.idl") = .error e ∧
      (r.stream.deliveries.getLast?.bind fun d => r.stream.path? d.token.source) =
        some "/d/main.idl" ∧
      e.file = some "/d/a.idl" := by
  have hRun : (match reader {} (includingFiles "#include \"a.idl\"\nconst long y=1;\n"
        "struct S \x7b\nlong x[1/0]; \x7d;\n") (.file "main.idl"),
      read {} (includingFiles "#include \"a.idl\"\nconst long y=1;\n"
        "struct S \x7b\nlong x[1/0]; \x7d;\n") (.file "main.idl") with
      | .ok r, .error e => r.stream.ending.toOption.isSome && e.file.isSome &&
          ((r.stream.deliveries.getLast?.bind fun d => r.stream.path? d.token.source) ==
            some "/d/main.idl") &&
          match readRoot (session {} r.stream) with
          | .error _ s =>
            (r.stream.deliveries.take (r.stream.deliveries.length - s.stream.deliveries.length)).all
              fun d => r.stream.path? d.token.source == some "/d/a.idl"
          | .ok _ _ => false
      | _, _ => false) = true := by decide +kernel
  split at hRun
  · rename_i r e hReader hRead
    simp only [Bool.and_eq_true, beq_iff_eq] at hRun
    obtain ⟨⟨⟨hEnding, hFile⟩, hMain⟩, hPaths⟩ := hRun
    refine ⟨r, e, hReader, hRead, hMain, ?_⟩
    obtain ⟨f, s, delivered, hFault, -, hSplit, ⟨hFault', -⟩ | ⟨hLast, -, hPath⟩⟩ :=
      path_of_fault hReader hRead
    · rw [hFault'] at hEnding
      cases hEnding
    · rw [hFault, hSplit] at hPaths
      dsimp only at hPaths
      rw [List.length_append, Nat.add_sub_cancel, List.take_left] at hPaths
      refine hPath _ (fun hNone => ?_) fun d hd => beq_iff_eq.mp (List.all_eq_true.mp hPaths d hd)
      rw [hLast, hNone] at hFile
      cases hFile
  · cases hRun

/-- **The path of another file.** The constant of this included file is evaluated when everything
was read. The fault has the position of one token only, the operator in the second line of the
included file, and the path of the main file. -/
theorem path_of_fault_evaluated :
    ∃ r e, reader {} (includingFiles "#include \"a.idl\"\nconst long y=1;\n"
        "\nconst long x = 1/0;\n") (.file "main.idl") = .ok r ∧
      read {} (includingFiles "#include \"a.idl\"\nconst long y=1;\n"
        "\nconst long x = 1/0;\n") (.file "main.idl") = .error e ∧
      e.position = some ⟨2, 17⟩ ∧ e.file = some "/d/main.idl" ∧
      ((r.stream.tokens.filter fun t => t.position == ⟨2, 17⟩).map fun t =>
        (t.text, r.stream.path? t.source)) = [("/", some "/d/a.idl")] := by
  have hRun : (match reader {} (includingFiles "#include \"a.idl\"\nconst long y=1;\n"
        "\nconst long x = 1/0;\n") (.file "main.idl"),
      read {} (includingFiles "#include \"a.idl\"\nconst long y=1;\n"
        "\nconst long x = 1/0;\n") (.file "main.idl") with
      | .ok r, .error e => e.position == some ⟨2, 17⟩ && e.file == some "/d/main.idl" &&
          ((r.stream.tokens.filter fun t => t.position == ⟨2, 17⟩).map fun t =>
            (t.text, r.stream.path? t.source)) == [("/", some "/d/a.idl")]
      | _, _ => false) = true := by decide +kernel
  split at hRun
  · rename_i r e hReader hRead
    simp only [Bool.and_eq_true, beq_iff_eq] at hRun
    obtain ⟨⟨hPosition, hFile⟩, hTokens⟩ := hRun
    exact ⟨r, e, hReader, hRead, hPosition, hFile, hTokens⟩
  · cases hRun

end Document

end IdlReader
