import IdlReader.Proofs.Document.Inclusion
import IdlReader.Proofs.Document.References
import IdlReader.Proofs.Source.Verbatim

/-!
# Verbatim blocks in documents

What stands in a verbatim block of an open source is recorded and nothing else: whatever its lines
hold, the run goes on behind the block with the macros, sections and sources that it came with, and in
the line that comes next in the source. A block that no line ends ends the reading.

* `Document.records_of_read`: the recorded directives of a document are those of its sources.
* `Document.counted_reader`: the reader of an input counts lines.
* `Document.verbatim_block`: a block that a run comes to.
-/

namespace IdlReader

/-! ## Recorded directives -/

/-- The kind and the content of a recorded directive. -/
def Entity.record? (e : Entity) : Option (RecordKind × String) :=
  match e.data with
  | .record kind content => some (kind, content)
  | _ => none

namespace Gathered

theorem splitAdjacent_append (source : SourceId) (line : Nat) (cs : List Token) :
    (splitAdjacent source line cs).1 ++ (splitAdjacent source line cs).2 = cs := by
  induction cs generalizing line with
  | nil => rfl
  | cons c cs ih =>
    unfold splitAdjacent
    split
    · rfl
    · exact congrArg (c :: ·) (ih _)

/-- A directive that is recorded takes comments from the end of what was gathered. -/
theorem addRecord_eq (g : Gathered) (kind : RecordKind) (content : String) (directive : Token) :
    ∃ left taken, g.comments = left ++ taken ∧ g.addRecord kind content directive =
      ⟨left, g.records ++ [⟨kind, content, directive.span, directive.source, taken⟩]⟩ := by
  refine ⟨_, _, ?_, rfl⟩
  rw [← List.reverse_append, splitAdjacent_append, List.reverse_reverse]

end Gathered

namespace Stream

variable {S : Stream} {records : List Record}

theorem records_behind (h : ∃ g, (S.behind records).ending = .ok g) :
    (S.behind records).records = records ++ S.records := by
  obtain ⟨g, hEnding⟩ := h
  unfold Stream.records
  rw [hEnding]
  obtain ⟨deliveries, ending, sources⟩ := S
  cases deliveries with
  | cons d ds =>
    rw [show ending = .ok g from hEnding]
    change (records ++ d.gathered.records) ++ _ ++ g.records = records ++ (d.gathered.records ++ _ ++ _)
    simp only [List.append_assoc]
  | nil =>
    cases ending with
    | error f => cases hEnding
    | ok g' =>
      cases hEnding
      rfl

/-- What is recorded of a stream that goes on with another one. -/
theorem records_append {S' : Stream} {before : List Delivery}
    (hDeliveries : S.deliveries = before ++ S'.deliveries) (hEnding : S.ending = S'.ending) :
    S.records = (before.flatMap fun d => d.gathered.records) ++ S'.records := by
  unfold Stream.records
  rw [hDeliveries, hEnding, List.flatMap_append, List.append_assoc]

end Stream

namespace Reader

variable {p q : Reader × Gathered}

/-- What was recorded in front of a run stands in front of what is recorded in the run. -/
theorem records_run {n : Nat} {r : Reader} {comments : List Token} {records : List Record}
    (h : ∃ g, (run n r ⟨comments, records⟩).ending = .ok g) :
    (run n r ⟨comments, records⟩).records = records ++ (run n r ⟨comments, []⟩).records := by
  have hBehind : (⟨comments, records⟩ : Gathered) = Gathered.behind records ⟨comments, []⟩ := by
    unfold Gathered.behind
    rw [List.append_nil]
  rw [hBehind, run_behind] at h ⊢
  exact Stream.records_behind h

/-- What a run delivers is what it delivers behind its turns, with what these delivered in front. -/
theorem run_of_turns {m : Reader → Nat} (h : Turns p q)
    (hMeasure : ∀ x y, Turns p x → Turn x y → m y.1 < m x.1) {n : Nat} (hn : m p.1 < n) :
    ∃ k before, m q.1 < k ∧
      (run n p.1 p.2).deliveries = before ++ (run k q.1 q.2).deliveries ∧
      (run n p.1 p.2).ending = (run k q.1 q.2).ending ∧
      (run n p.1 p.2).sources = (run k q.1 q.2).sources := by
  induction h with
  | refl => exact ⟨n, [], hn, rfl, rfl, rfl⟩
  | tail hTurns hTurn ih =>
    obtain ⟨k, before, hk, hDeliveries, hEnding, hSources⟩ := ih
    have hLess := hMeasure _ _ hTurns hTurn
    obtain ⟨k, rfl⟩ : ∃ j, k = j + 1 := ⟨k - 1, by omega⟩
    obtain ⟨hSome, ts, g, hStep, hGathered⟩ := hTurn
    rw [run, if_neg (by simpa using hSome), hStep] at hDeliveries hEnding hSources
    dsimp only at hDeliveries hEnding hSources
    rw [← hGathered] at hDeliveries hEnding hSources
    refine ⟨k, before ++ deliver g ts, by omega, ?_, hEnding, hSources⟩
    rw [hDeliveries, List.append_assoc]

end Reader

namespace Document

open Reader (Turns Turn run)

variable {env : Environment} {files : FileTree} {input : Input} {r : Reader}

/-- The recorded directives of a document are those of its sources, in their order. -/
theorem records_of_read {d : Document} (hReader : reader env files input = .ok r)
    (hRead : read env files input = .ok d) :
    d.tree.records.map d.tree.get = r.stream.records.map Record.entity := by
  have hReachable := reachable_of_read hRead
  obtain ⟨-, τ, hPlaced, hAll⟩ := placed_of_read hReader hRead
  have hRecords : d.tree.records =
      (List.range d.tree.size).filter fun i => (d.tree.get i).isRecord := by
    refine hReachable.records_eq.trans (List.filter_congr fun i hi => ?_)
    exact Bool.eq_iff_iff.mpr
      (decide_eq_true_iff.trans (hReachable.isRecord_iff (List.mem_range.mp hi)).symm)
  rw [hRecords, hPlaced.map_get, hAll]

theorem counted_reader (hReader : reader env files input = .ok r) : r.Counted := by
  have hEnvironment : Ok (Reader.ofEnvironment env files) Reader.Counted := by
    unfold Reader.ofEnvironment
    exact ok_bind (P := fun _ => True) (fun _ _ => trivial) fun macros _ =>
      ok_ok (List.forall_mem_nil _)
  cases input with
  | nothing => exact hEnvironment r hReader
  | text content =>
    exact ok_bind hEnvironment (fun r hr => ok_ok (Reader.Counted.enter hr _ _ _)) r hReader
  | file path =>
    change Reader.ofFile env files path = .ok r at hReader
    unfold Reader.ofFile at hReader
    split at hReader
    · cases hReader
    · split at hReader
      · cases hReader
      · refine ok_bind hEnvironment (fun r hr => ok_ok (Reader.Counted.enter ?_ _ _ _)) r hReader
        exact hr

/-- What a document is read of passes through the turns of a run. -/
theorem stream_of_turns (hProper : files.Proper) (hReader : reader env files input = .ok r)
    {p : Reader × Gathered} (hTurns : Turns (r, {}) p) : ∃ n before, p.1.remaining < n ∧
      r.stream.deliveries = before ++ (run n p.1 p.2).deliveries ∧
      r.stream.ending = (run n p.1 p.2).ending := by
  obtain ⟨-, rfl, hAhead, -⟩ := initial_reader hProper r hReader
  obtain ⟨n, before, hn, hDeliveries, hEnding, -⟩ := Reader.run_of_turns (m := Reader.remaining) hTurns
    (fun x y hx hy => Reader.remaining_lt_of_turn ((Reader.same_of_turns hx).2 ▸ hProper) hy)
    (Reader.remaining_lt_budget hAhead)
  exact ⟨n, before, hn, hDeliveries, hEnding⟩

/-- Where nothing is delivered in front of a fault, it is the fault of the document. -/
theorem ofStream_of_silent {S : Stream} {f : Fault} (hNone : S.deliveries = [])
    (hEnding : S.ending = .error f) : ofStream env S = .error f := by
  obtain ⟨deliveries, ending, sources⟩ := S
  subst hNone hEnding
  rfl

/-- **Verbatim blocks.** Where a run comes to the directive that begins a block, on a line of its own
or read ahead of a macro, and the source is read there, the lines up to the one that ends the block
are recorded as they are, as one directive. The run goes on behind that line as it came to the block:
with the same macros, sections and sources, and in the line of the source that is next there. All that
is delivered from then on is what a run delivers of the rest. The entities of the directives of the
document are that of the block between those that were recorded in front of it and those of the rest.
If no line ends the block, reading all tokens ends
with the fault of a directive at the end of the source, and no document is read: something in
front of the block is at fault, or the missing line is, which it is for sure where nothing was
delivered in front. -/
theorem verbatim_block {p : Reader × Gathered} {f : Frame} {o : List Frame} {t : Token} {c : Cursor}
    (hProper : files.Proper) (hReader : reader env files input = .ok r) (hTurns : Turns (r, {}) p)
    (hFrames : p.1.frames = f :: o) (hEnabled : p.1.enabled = true) (hBlock : p.1.AtBlock f t c) :
    (∀ (lines : List (List Char)) (last u : List Char), (∀ l ∈ lines, Text.IsVerbatim l) →
      '\n' ∉ last → Text.ClosesVerbatim last → Text.IsLineEnd u →
      c.rest = Text.linesText lines ++ (last ++ u) → ∃ c' left taken,
        let content := "\n".intercalate (lines.map String.ofList)
        let record : Record := ⟨.verbatimBlock, content, t.span, t.source, taken⟩
        let q : Reader × Gathered :=
          (p.1.placed f o p.1.sections c', ⟨left, p.2.records ++ [record]⟩)
        p.2.comments = left ++ taken ∧
        c'.rest = u.drop 1 ∧ c'.text = f.cursor.text ∧
        c'.position = Position.behind c'.past.reverse ∧
        c'.position.line = c.position.line + lines.length + (u.take 1).length ∧
        p.1.step p.2 = .ok ([], q) ∧ Turn p q ∧
        ∃ n before, q.1.remaining < n ∧
          r.stream.deliveries = before ++ (run n q.1 q.2).deliveries ∧
          r.stream.ending = (run n q.1 q.2).ending ∧
          ∀ d, read env files input = .ok d → d.tree.records.map d.tree.get =
            ((before.flatMap fun x => x.gathered.records) ++ (p.2.records ++
              record :: (run n q.1 ⟨left, []⟩).records)).map Record.entity) ∧
    ((∀ l ∈ c.rest.splitOn '\n', ¬ Text.ClosesVerbatim l) →
      Cause.category .verbatimEndMissing = .directive ∧
      check env files input =
        .error ⟨.verbatimEndMissing, some (c.moveOver c.rest []).position, p.1.path?⟩ ∧
      ∃ e, read env files input = .error e ∧
        (FailsInside env r.stream e ∨ e.cause = .verbatimEndMissing) ∧
        (r.stream.deliveries = [] → e.cause = .verbatimEndMissing)) := by
  have hSome : p.1.frames ≠ [] := by rw [hFrames]; exact List.cons_ne_nil f o
  constructor
  · intro lines last u hLines hLast hCloses hEnd hText
    have hCounted : c.Counted := hBlock.counted
      (Reader.counted_of_turns hTurns (counted_reader hReader) f (hFrames ▸ List.mem_cons_self))
    have hStep := Reader.step_of_block (g := p.2) hFrames hEnabled hBlock hLines hEnd hLast hCloses hText
    obtain ⟨left, taken, hComments, hRecord⟩ := p.2.addRecord_eq .verbatimBlock
      ("\n".intercalate (lines.map String.ofList)) t
    rw [hRecord] at hStep
    have hTurn : Turn p (_, _) := ⟨hSome, [], _, hStep, rfl⟩
    obtain ⟨n, before, hn, hDeliveries, hEnding⟩ :=
      stream_of_turns hProper hReader (hTurns.tail hTurn)
    have hMoved := hCounted.moveOver (Text.linesText lines ++ (last ++ u.take 1)) (u.drop 1)
    refine ⟨_, left, taken, hComments, rfl, ?_, hMoved.position, ?_, hStep, hTurn, n, before, hn,
      hDeliveries, hEnding, fun d hRead => ?_⟩
    · rw [← hBlock.text_eq, Cursor.text, Cursor.text, hText, Cursor.moveOver, List.reverse_append,
        List.reverse_reverse, List.append_assoc, List.append_assoc, List.append_assoc,
        List.take_append_drop]
    · have hFeeds : (Text.linesText lines ++ (last ++ u.take 1)).count '\n' =
          lines.length + (u.take 1).length := by
        have hLine : last.count '\n' = 0 := List.count_eq_zero_of_not_mem hLast
        have hFeed : (u.take 1).count '\n' = (u.take 1).length := by
          rcases hEnd with rfl | ⟨v, rfl⟩ <;> rfl
        rw [List.count_append, List.count_append, Text.count_linesText hLines, hLine, hFeed,
          Nat.zero_add]
      rw [hMoved.position, hCounted.position, Cursor.moveOver, List.reverse_append,
        List.reverse_reverse]
      change (c.past.reverse ++ (Text.linesText lines ++ (last ++ u.take 1))).count '\n' + 1 =
        c.past.reverse.count '\n' + 1 + _ + _
      rw [List.count_append, hFeeds]
      omega
    · have hClosed := ending_of_read hReader hRead
      rw [hEnding] at hClosed
      rw [records_of_read hReader hRead, Stream.records_append hDeliveries hEnding,
        Reader.records_run hClosed, List.append_assoc]
      rfl
  · intro hOpen
    have hStep := Reader.step_of_open (g := p.2) hFrames hEnabled hBlock hOpen
    obtain ⟨-, hFiles, hAhead, -⟩ := initial_reader hProper r hReader
    have hEnding := Reader.ending_stream_of_fault (hFiles ▸ hProper) hAhead hTurns hSome hStep
    refine ⟨rfl, (check_eq_error hReader).mpr hEnding, ?_⟩
    obtain ⟨e, hRead, hFault⟩ := read_of_ending hReader hEnding
    refine ⟨e, hRead, hFault.imp_right fun hComplete => ?_, fun hNone => ?_⟩
    · rw [hComplete, Stream.cause_complete]
      rfl
    · rw [read_eq_ofStream hReader] at hRead
      have hFirst := (ofStream_of_silent hNone hEnding).symm.trans hRead
      cases hFirst
      rfl

/-- The directive of this block is read while looking for the arguments of a macro. Neither the
directive nor the quote in the block takes effect, and the assignment is found in the sixth line. The
block is the last one of two directives of the document. Without the line that ends it the block is a
fault. -/
theorem verbatim_block_ahead :
    (∃ r p t d, reader {} ⟨[], []⟩ (.text ("#define F(x) x\nconst long F\n" ++
        "#verbatim_begin\n#endif \"\n#verbatim_end\n= 1;")) = .ok r ∧
      Turns (r, {}) p ∧ p.1.ahead = some t ∧ t.position = ⟨3, 1⟩ ∧
      read {} ⟨[], []⟩ (.text ("#define F(x) x\nconst long F\n" ++
        "#verbatim_begin\n#endif \"\n#verbatim_end\n= 1;")) = .ok d ∧
      (d.tree.records.filterMap fun i => (d.tree.get i).record?) =
        [(.define, "F(x) x"), (.verbatimBlock, "#endif \"")] ∧
      ∃ c' : Cursor, ∃ f o n before left taken,
        c'.rest = "= 1;".toList ∧ c'.position.line = 6 ∧
        r.stream.deliveries = before ++ (run n (p.1.placed f o p.1.sections c')
          ⟨left, p.2.records ++
            [⟨.verbatimBlock, "#endif \"", t.span, t.source, taken⟩]⟩).deliveries ∧
        d.tree.records.map d.tree.get = ((before.flatMap fun x => x.gathered.records) ++
          (p.2.records ++ ⟨.verbatimBlock, "#endif \"", t.span, t.source, taken⟩ ::
            (run n (p.1.placed f o p.1.sections c') ⟨left, []⟩).records)).map Record.entity) ∧
      check {} ⟨[], []⟩ (.text "#verbatim_begin\nlong") =
        .error ⟨.verbatimEndMissing, some ⟨2, 5⟩, none⟩ := by
  constructor
  · have hRun : ((reader {} ⟨[], []⟩ (.text ("#define F(x) x\nconst long F\n" ++
          "#verbatim_begin\n#endif \"\n#verbatim_end\n= 1;"))).toOption.any
        fun r => ((List.replicate 4 ()).foldlM (fun p _ => Reader.next? p) (r, {})).any fun p =>
          p.1.enabled && p.1.frames.head?.any (fun f =>
            f.cursor.rest == "#endif \"\n#verbatim_end\n= 1;".toList &&
              f.cursor.position.line == 4) &&
          p.1.ahead.any fun t => t.kind == .directive && t.keyword == "verbatim_begin" &&
            t.position == ⟨3, 1⟩) = true := by decide +kernel
    have hData : ((read {} ⟨[], []⟩ (.text ("#define F(x) x\nconst long F\n" ++
          "#verbatim_begin\n#endif \"\n#verbatim_end\n= 1;"))).toOption.any
        fun d => (d.tree.records.filterMap fun i => (d.tree.get i).record?) ==
          [(.define, "F(x) x"), (.verbatimBlock, "#endif \"")]) = true := by decide +kernel
    obtain ⟨r, hReader, hRun⟩ := any_toOption hRun
    obtain ⟨d, hRead, hData⟩ := any_toOption hData
    obtain ⟨p, hTurns, hRun⟩ := (Option.any_eq_true _ _).mp hRun
    simp only [Bool.and_eq_true] at hRun
    obtain ⟨⟨hEnabled, hFrame⟩, hAhead⟩ := hRun
    obtain ⟨f, hFrame, hCursor⟩ := (Option.any_eq_true _ _).mp hFrame
    obtain ⟨t, hAhead, hToken⟩ := (Option.any_eq_true _ _).mp hAhead
    simp only [Bool.and_eq_true, beq_iff_eq] at hCursor hToken
    obtain ⟨⟨hKind, hKeyword⟩, hPosition⟩ := hToken
    obtain ⟨o, hFrames⟩ := List.head?_eq_some_iff.mp hFrame
    obtain ⟨hBlock, -⟩ := verbatim_block (fun _ h => absurd h List.not_mem_nil) hReader
      (Reader.turns_of_foldlM hTurns) hFrames hEnabled (.ahead hAhead hKind hKeyword)
    obtain ⟨c', left, taken, -, hRest, -, -, hLine, -, -, n, before, -, hDeliveries, -, hRecords⟩ :=
      hBlock ["#endif \"".toList] "#verbatim_end".toList ('\n' :: "= 1;".toList)
        (List.forall_mem_singleton.mpr ⟨by decide, by decide, by decide⟩) (by decide) (by decide)
        (Or.inr ⟨_, rfl⟩) hCursor.1
    rw [hCursor.2] at hLine
    exact ⟨r, p, t, d, hReader, Reader.turns_of_foldlM hTurns, hAhead, hPosition, hRead,
      beq_iff_eq.mp hData, c', f, o, n, before, left, taken, hRest, hLine, hDeliveries,
      hRecords d hRead⟩
  · have hRun : ((reader {} ⟨[], []⟩ (.text "#verbatim_begin\nlong")).toOption.any fun r =>
        r.enabled && r.path? == none && r.ahead.isNone && r.frames.head?.any fun f =>
          f.cursor == Cursor.ofText "#verbatim_begin\nlong".toList) = true := by decide +kernel
    obtain ⟨r, hReader, hRun⟩ := any_toOption hRun
    simp only [Bool.and_eq_true, Option.isNone_iff_eq_none, beq_iff_eq] at hRun
    obtain ⟨⟨⟨hEnabled, hPath⟩, hAhead⟩, hFrame⟩ := hRun
    obtain ⟨f, hFrame, hCursor⟩ := (Option.any_eq_true _ _).mp hFrame
    obtain ⟨o, hFrames⟩ := List.head?_eq_some_iff.mp hFrame
    rw [beq_iff_eq] at hCursor
    have hText : f.cursor.rest = [] ++ '#' :: ("verbatim_begin".toList ++ '\n' :: "long".toList) := by
      rw [hCursor]
      rfl
    have hBlock := Reader.AtBlock.line hAhead (List.forall_mem_nil _) hText
      (by rw [hCursor]; decide +kernel) (by decide) (by decide +kernel) (Or.inr ⟨_, rfl⟩)
      (by decide +kernel)
    obtain ⟨-, hOpen⟩ := verbatim_block (fun _ h => absurd h List.not_mem_nil) hReader
      (p := (r, {})) .refl hFrames hEnabled hBlock
    have hLines : ∀ l ∈ "long".toList.splitOn '\n', ¬ Text.ClosesVerbatim l := by decide +kernel
    obtain ⟨-, hCheck, -⟩ := hOpen hLines
    rw [hCheck, hCursor, hPath]
    rfl

end Document

end IdlReader
