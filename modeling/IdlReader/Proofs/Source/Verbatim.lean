import IdlReader.Proofs.Comment.Block
import IdlReader.Proofs.Source.Lines
import IdlReader.Proofs.Source.Turn
import IdlReader.Proofs.Token.Tiling

/-!
# Verbatim blocks

The cursor of an open source is placed by what stands in front of it in the text of the source: its
line is told by the line feeds there, and its column by the bytes behind the last one of these. So it
is where the text starts, and so it stays whatever a run does.

A directive may begin a block whose lines are recorded as they are. The reader looks for the line that
ends the block and for nothing else, so that it comes behind the block in the state in which it came to
it. A block without an end is a fault.

* `counted_next`: the cursor behind one token.
* `Reader.counted_step`, `Reader.counted_of_turns`: the steps of a run.
* `Text.verbatimLines_block`, `Text.verbatimLines_open`: the lines of a block, and a block without an
  end.
* `Reader.step_of_block`, `Reader.step_of_open`: what the reader does about them.
-/

/-! ## Lines are counted -/

namespace IdlReader

/-- Whether a cursor is placed by what stands in front of it. -/
def Cursor.Counted (c : Cursor) : Prop := Token.At c c.past.reverse

theorem Cursor.Counted.moveOver {c : Cursor} (h : c.Counted) (s rest : List Char) :
    (c.moveOver s rest).Counted := by
  have hAt := Token.At.moveOver h s rest
  rw [Cursor.Counted]
  rwa [Cursor.moveOver, List.reverse_append, List.reverse_reverse]

theorem Cursor.counted_ofText (text : List Char) : (Cursor.ofText text).Counted := ⟨rfl, rfl⟩

theorem counted_next {l : Lexicon} {directives : Bool} {source : SourceId} {c : Cursor}
    (h : c.Counted) : Ok (Token.next l directives source c) fun x => x.2.Counted := by
  have hSkip : c.skipSpace.Counted := h.moveOver _ _
  unfold Token.next
  dsimp only
  split
  · exact ok_ok hSkip
  · split
    · refine ok_ok ?_
      have hSign := hSkip.moveOver (c.skipSpace.rest.take 1) (c.skipSpace.rest.drop 1)
      change (c.skipSpace.moveOver _ _).readLogicalLine.2.Counted
      rw [Cursor.readLogicalLine, if_pos hSign.within]
      exact hSign.moveOver _ _
    · refine ok_bind (P := fun _ => True) (fun _ _ => trivial) fun x _ => ok_ok ?_
      exact hSkip.moveOver _ _

namespace Reader

variable {r : Reader} {g : Gathered}

/-- Whether the cursors of all open sources are placed by what stands in front of them. -/
def Counted (r : Reader) : Prop := ∀ f ∈ r.frames, f.cursor.Counted

theorem Counted.setCursor (h : r.Counted) {c : Cursor} (hc : c.Counted) : (r.setCursor c).Counted := by
  unfold Reader.setCursor
  split
  · exact h
  · rename_i f fs hFrames
    rw [Counted, hFrames, List.forall_mem_cons] at h
    exact List.forall_mem_cons.mpr ⟨hc, h.2⟩

theorem Counted.enter (h : r.Counted) (path : Option String) (text : List Char) (kind : SourceKind) :
    (r.enter path text kind).Counted :=
  List.forall_mem_cons.mpr ⟨Cursor.counted_ofText text, h⟩

theorem counted_skipDisabled (h : r.Counted) : r.skipDisabled.Counted := by
  unfold skipDisabled
  split
  · exact h
  · rename_i f fs hFrames
    have hFirst : f.cursor.Counted := h f (hFrames ▸ List.mem_cons_self)
    split
    · exact h
    · exact h.setCursor (hFirst.moveOver _ _)

theorem counted_raw (h : r.Counted) : Ok r.raw fun x => x.2.Counted := by
  unfold raw
  split
  · exact ok_ok h
  · split
    · exact ok_ok h
    · rename_i f fs hFrames
      have hFirst : f.cursor.Counted := h f (hFrames ▸ List.mem_cons_self)
      exact ok_bind (counted_next hFirst) fun x hx => ok_ok (h.setCursor hx)

theorem counted_leave (h : r.Counted) : Ok r.leave Counted := by
  unfold leave
  split
  · exact ok_ok h
  · rename_i f fs hFrames
    rw [Counted, hFrames, List.forall_mem_cons] at h
    split
    · exact ok_ok h.2
    · exact ok_error _ _

/-! ## Directives -/

theorem counted_processInclude (h : r.Counted) {rest : List Char} {directive : Token} :
    Ok (r.processInclude g rest directive) fun x => x.1.Counted := by
  have hFile : ∀ path isLocal, Ok (r.includeFile path isLocal) Counted := by
    intro path isLocal
    unfold includeFile
    split
    · exact ok_error _ _
    · split
      · exact ok_error _ _
      · split
        · exact ok_error _ _
        · split
          · exact ok_error _ _
          · refine ok_ok (Counted.enter ?_ _ _ _)
            exact h
  unfold processInclude
  refine ok_bind (P := fun _ => True) (fun _ _ => trivial) fun target _ => ?_
  dsimp only
  split
  · exact ok_error _ _
  · exact ok_bind (hFile _ _) fun r hr => ok_ok hr

theorem counted_readVerbatim (h : r.Counted) : Ok r.readVerbatim fun x => x.2.Counted := by
  unfold readVerbatim
  split
  · exact ok_ok h
  · rename_i f fs hFrames
    have hFirst : f.cursor.Counted := h f (hFrames ▸ List.mem_cons_self)
    split
    · exact ok_ok (h.setCursor (hFirst.moveOver _ _))
    · exact ok_error _ _

theorem counted_processCommand (h : r.Counted) {keyword : String} {rest : List Char}
    {directive : Token} : Ok (r.processCommand g keyword rest directive) fun x => x.1.Counted := by
  unfold processCommand
  split
  case h_1 => exact ok_bind (P := fun _ => True) (fun _ _ => trivial) fun x _ => ok_ok h
  case h_2 =>
    dsimp only
    split
    · exact ok_ok h
    · exact ok_error _ _
  case h_3 => exact counted_processInclude h
  case h_4 => exact ok_ok h
  case h_5 => exact ok_bind (counted_readVerbatim h) fun x hx => ok_ok hx
  all_goals exact ok_error _ _

theorem counted_processElif (h : r.Counted) {condition : Except Fault Bool} {p : Position} :
    Ok (r.processElif condition p) Counted := by
  unfold processElif
  split
  · exact ok_error _ _
  · split
    · exact ok_bind (P := fun _ => True) (fun _ _ => trivial) fun b _ => ok_ok h
    · exact ok_ok h
    · exact ok_ok h

theorem counted_processDirective (h : r.Counted) {directive : Token} :
    Ok (r.processDirective g directive) fun x => x.1.Counted := by
  have hEnter : ∀ condition : Except Fault Bool,
      Ok (if r.enabled then do
          let b ← condition
          return ({ r with sections := r.sections.enter (some b) }, g)
        else .ok ({ r with sections := r.sections.enter none }, g) :
          Except Fault (Reader × Gathered)) fun x => x.1.Counted := by
    intro condition
    split
    · exact ok_bind (P := fun _ => True) (fun _ _ => trivial) fun b _ => ok_ok h
    · exact ok_ok h
  unfold processDirective
  dsimp only
  split
  case h_1 => exact hEnter _
  case h_2 => exact hEnter _
  case h_3 => exact hEnter _
  case h_4 => exact ok_bind (counted_processElif h) fun r hr => ok_ok hr
  case h_5 => exact ok_bind (P := fun _ => True) (fun _ _ => trivial) fun s _ => ok_ok h
  case h_6 => exact ok_bind (P := fun _ => True) (fun _ _ => trivial) fun s _ => ok_ok h
  case h_7 =>
    split
    · intro x hx
      unfold orAtDirective at hx
      split at hx
      · rename_i a hCommand
        cases hx
        exact counted_processCommand h _ hCommand
      · cases hx
    · exact ok_ok h

/-! ## Calls of macros -/

theorem counted_rawSignificant (n : Nat) (h : r.Counted) :
    Ok (rawSignificant n r g) fun x => x.2.1.Counted := by
  induction n generalizing r g with
  | zero => exact ok_error _ _
  | succ n ih =>
    unfold rawSignificant
    refine ok_bind (counted_raw h) fun x hx => ?_
    dsimp only
    split
    · exact ih hx
    · exact ok_ok hx

theorem counted_callTokens {name : Token} (n depth : Nat) (h : r.Counted) :
    Ok (callTokens name n depth r g) fun x => x.2.1.Counted := by
  induction n generalizing depth r g with
  | zero => exact ok_error _ _
  | succ n ih =>
    unfold callTokens
    refine ok_bind (counted_rawSignificant _ h) fun x hx => ?_
    dsimp only
    split
    · exact ok_error _ _
    · generalize (if x.1.is "(" then depth + 1 else if x.1.is ")" then depth - 1 else depth) = depth'
      split
      · exact ok_ok hx
      · exact ok_bind (ih depth' hx) fun y hy => ok_ok hy

theorem counted_expandCall (h : r.Counted) {d : MacroDefinition} {name : Token} :
    Ok (r.expandCall g d name) fun x => x.2.1.Counted := by
  unfold expandCall
  split
  · refine ok_bind (counted_rawSignificant _ h) fun x hx => ?_
    dsimp only
    split
    · refine ok_bind (counted_callTokens _ _ hx) fun y hy => ?_
      refine ok_bind (P := fun _ => True) (fun _ _ => trivial) fun args _ => ?_
      exact ok_bind (P := fun _ => True) (fun _ _ => trivial) fun ts _ => ok_ok hy
    · exact ok_ok hx
  · exact ok_bind (P := fun _ => True) (fun _ _ => trivial) fun ts _ => ok_ok h

/-! ## Steps -/

theorem counted_step (h : r.Counted) : Ok (r.step g) fun x => x.2.1.Counted := by
  unfold step
  refine ok_bind (counted_raw (counted_skipDisabled h)) fun x hx => ?_
  dsimp only
  split
  · exact ok_bind (counted_leave hx) fun r hr => ok_ok hr
  · exact ok_bind (counted_processDirective hx) fun y hy => ok_ok hy
  · split
    · exact ok_ok hx
    · split
      · exact ok_ok hx
      · split
        · exact counted_expandCall hx
        · exact ok_ok hx

theorem counted_of_turns {p q : Reader × Gathered} (h : Turns p q) (hp : p.1.Counted) :
    q.1.Counted := by
  induction h with
  | refl => exact hp
  | tail _ hTurn ih =>
    obtain ⟨-, ts, g, hStep, -⟩ := hTurn
    exact counted_step ih _ hStep

end Reader

end IdlReader

/-! ## Blocks -/

namespace IdlReader

namespace Text

/-! ## Lines of a block -/

/-- Whether a line ends a verbatim block. Carriage returns at its end do not count. -/
def ClosesVerbatim (line : List Char) : Prop := endsVerbatim (dropTrailing (· == '\r') line) = true

instance : DecidablePred ClosesVerbatim := fun _ => inferInstanceAs (Decidable (_ = true))

/-- Whether a line that goes up to its line feed stands in a verbatim block as it is. -/
structure IsVerbatim (line : List Char) : Prop where
  feed : '\n' ∉ line
  returns : '\r' ∉ line
  inner : endsVerbatim line = false

/-- Lines with their line feeds. -/
def linesText (lines : List (List Char)) : List Char := lines.flatMap (· ++ ['\n'])

variable {line s last u : List Char} {lines : List (List Char)}

theorem dropTrailing_return (h : '\r' ∉ line) : dropTrailing (· == '\r') line = line := by
  have hNone : ∀ c ∈ line.getLast?, (c == '\r') = false := by
    intro c hc
    refine beq_eq_false_iff_ne.mpr ?_
    rintro rfl
    exact h (List.mem_of_getLast? hc)
  have hDrop := Comment.dropTrailing_append_of (f := (· == '\r')) (List.forall_mem_nil _) hNone
  rwa [List.append_nil] at hDrop

/-- A line behind what was read of it, in front of its line feed. -/
theorem verbatimLines_line (h : '\n' ∉ line) (before s : List Char) :
    verbatimLines before (line ++ '\n' :: s) =
      if ClosesVerbatim (before.reverse ++ line) then some ([], line ++ ['\n'], s)
      else (verbatimLines [] s).map fun r =>
        (dropTrailing (· == '\r') (before.reverse ++ line) :: r.1, line ++ '\n' :: r.2.1, r.2.2) := by
  induction line generalizing before with
  | nil =>
    rw [List.nil_append, verbatimLines, if_pos rfl, List.append_nil]
    rfl
  | cons c line ih =>
    rw [List.mem_cons, not_or] at h
    have hRead : (c :: before).reverse ++ line = before.reverse ++ c :: line := by
      rw [List.reverse_cons, List.append_assoc, List.singleton_append]
    rw [List.cons_append, verbatimLines, if_neg (Ne.symm h.1), ih h.2, hRead]
    split
    · rfl
    · cases verbatimLines [] s <;> rfl

/-- The last line, which no line feed ends. -/
theorem verbatimLines_last (h : '\n' ∉ line) (before : List Char) :
    verbatimLines before line =
      if ClosesVerbatim (before.reverse ++ line) then some ([], line, []) else none := by
  induction line generalizing before with
  | nil =>
    rw [verbatimLines, List.append_nil]
    cases before with
    | nil => rfl
    | cons c before => rfl
  | cons c line ih =>
    rw [List.mem_cons, not_or] at h
    have hRead : (c :: before).reverse ++ line = before.reverse ++ c :: line := by
      rw [List.reverse_cons, List.append_assoc, List.singleton_append]
    rw [verbatimLines, if_neg (Ne.symm h.1), ih h.2, hRead]
    split <;> rfl

/-- The line that ends a block. -/
theorem verbatimLines_end (hu : IsLineEnd u) (hLine : '\n' ∉ last) (hEnd : ClosesVerbatim last) :
    verbatimLines [] (last ++ u) = some ([], last ++ u.take 1, u.drop 1) := by
  rcases hu with rfl | ⟨v, rfl⟩
  · rw [List.append_nil, verbatimLines_last hLine, List.reverse_nil, List.nil_append, if_pos hEnd]
    simp
  · rw [verbatimLines_line hLine, List.reverse_nil, List.nil_append, if_pos hEnd]
    rfl

/-- The lines of a block up to the one that ends it. -/
theorem verbatimLines_block (hLines : ∀ l ∈ lines, IsVerbatim l) (hu : IsLineEnd u)
    (hLine : '\n' ∉ last) (hEnd : ClosesVerbatim last) :
    verbatimLines [] (linesText lines ++ (last ++ u)) =
      some (lines, linesText lines ++ (last ++ u.take 1), u.drop 1) := by
  induction lines with
  | nil => exact verbatimLines_end hu hLine hEnd
  | cons l lines ih =>
    rw [List.forall_mem_cons] at hLines
    obtain ⟨hFirst, hRest⟩ := hLines
    have hText : linesText (l :: lines) ++ (last ++ u) =
        l ++ '\n' :: (linesText lines ++ (last ++ u)) := by
      simp [linesText]
    have hOpen : ¬ ClosesVerbatim ([].reverse ++ l) := by
      rw [List.reverse_nil, List.nil_append, ClosesVerbatim, dropTrailing_return hFirst.returns,
        hFirst.inner]
      exact Bool.false_ne_true
    rw [hText, verbatimLines_line hFirst.feed, if_neg hOpen, ih hRest, List.reverse_nil,
      List.nil_append, dropTrailing_return hFirst.returns]
    simp [linesText]

/-- Behind what was read of a line no line ends the block. -/
theorem verbatimLines_open {before : List Char} (hLine : '\n' ∉ before)
    (h : ∀ l ∈ (before.reverse ++ s).splitOn '\n', ¬ ClosesVerbatim l) :
    verbatimLines before s = none := by
  induction s generalizing before with
  | nil =>
    have hLast : (before.reverse ++ []).splitOn '\n' = [before.reverse] := by
      rw [List.append_nil]
      exact List.splitOn_eq_singleton fun hMem => hLine (List.mem_reverse.mp hMem)
    rw [hLast, List.forall_mem_singleton] at h
    rw [verbatimLines_last List.not_mem_nil, List.append_nil, if_neg h]
  | cons c s ih =>
    by_cases hc : c = '\n'
    · subst hc
      have hSplit : (before.reverse ++ '\n' :: s).splitOn '\n' = before.reverse :: s.splitOn '\n' := by
        refine List.splitOnP_append_cons_of_forall_mem (fun d hd => beq_eq_false_iff_ne.mpr ?_) '\n' rfl s
        rintro rfl
        exact hLine (List.mem_reverse.mp hd)
      rw [hSplit, List.forall_mem_cons] at h
      have hRest : verbatimLines [] s = none := ih List.not_mem_nil h.2
      have hFirst := verbatimLines_line (List.not_mem_nil : '\n' ∉ []) before s
      rw [List.nil_append, List.append_nil, if_neg h.1, hRest] at hFirst
      exact hFirst
    · have hMore : '\n' ∉ c :: before := by
        rw [List.mem_cons, not_or]
        exact ⟨Ne.symm hc, hLine⟩
      rw [verbatimLines, if_neg hc, ih hMore]
      · rfl
      · rwa [List.reverse_cons, List.append_assoc, List.singleton_append]

theorem count_linesText (hLines : ∀ l ∈ lines, IsVerbatim l) :
    (linesText lines).count '\n' = lines.length := by
  induction lines with
  | nil => rfl
  | cons l lines ih =>
    rw [List.forall_mem_cons] at hLines
    have hLine : l.count '\n' = 0 := List.count_eq_zero_of_not_mem hLines.1.feed
    have hText : linesText (l :: lines) = l ++ '\n' :: linesText lines := by simp [linesText]
    rw [hText, List.count_append, List.count_cons_self, hLine, ih hLines.2, List.length_cons,
      Nat.zero_add]

end Text

namespace Reader

variable {r : Reader} {g : Gathered} {f : Frame} {o : List Frame} {t : Token} {c : Cursor}

/-! ## Where a block begins -/

/-- Whether a reader comes to the directive `t` that begins a verbatim block, behind whose line the
cursor of the innermost source `f` is `c`. -/
inductive AtBlock (r : Reader) (f : Frame) : Token → Cursor → Prop where
  /-- Behind white space the source goes on with the line of the directive. -/
  | line {space body u : List Char} (hAhead : r.ahead = none)
      (hSpace : ∀ d ∈ space, Lexeme.isSpace d = true)
      (hText : f.cursor.rest = space ++ '#' :: (body ++ u))
      (hStart : (f.cursor.moveOver space ('#' :: (body ++ u))).atLineStart = true)
      (hBody : '\n' ∉ body) (hClosed : ¬ Text.IsContinued body) (hEnd : Text.IsLineEnd u)
      (hKeyword : String.ofList ((Text.directiveText body).takeWhile Text.isWord) =
        "verbatim_begin") :
      AtBlock r f (Token.directive f.source (f.cursor.moveOver space ('#' :: (body ++ u)))).1
        (f.cursor.moveOver (space ++ '#' :: (body ++ u.take 1)) (u.drop 1))
  /-- The directive was read while looking for the arguments of a macro. -/
  | ahead {t : Token} (hAhead : r.ahead = some t) (hKind : t.kind = .directive)
      (hKeyword : t.keyword = "verbatim_begin") : AtBlock r f t f.cursor

theorem AtBlock.counted (h : r.AtBlock f t c) (hCounted : f.cursor.Counted) : c.Counted := by
  cases h with
  | line => exact hCounted.moveOver _ _
  | ahead => exact hCounted

theorem AtBlock.text_eq (h : r.AtBlock f t c) : c.text = f.cursor.text := by
  cases h with
  | line _ _ hText =>
    rw [Cursor.text, Cursor.text, hText, Cursor.moveOver, List.reverse_append, List.reverse_reverse,
      List.append_assoc, List.append_assoc, List.cons_append, List.append_assoc,
      List.take_append_drop]
  | ahead => rfl

/-- The directive of a block is met where the source is read. -/
theorem AtBlock.meets (hFrames : r.frames = f :: o) (hEnabled : r.enabled = true)
    (h : r.AtBlock f t c) : r.Meets t (r.placed f o r.sections c) ∧ t.kind = .directive ∧
      t.keyword = "verbatim_begin" := by
  have hSkip : r.skipDisabled = r := by
    unfold skipDisabled
    rw [hFrames, hEnabled]
    rfl
  cases h with
  | @line space body u hAhead hSpace hText hStart hBody hClosed hEnd hKeyword =>
    have hSelf : r = r.placed f o r.sections f.cursor := by
      rw [placed, ← hFrames, ← hAhead]
    have hSign : f.cursor.skipSpace = f.cursor.moveOver space ('#' :: (body ++ u)) :=
      Cursor.skipSpace_of_rest hText hSpace rfl
    obtain ⟨hDirectiveText, hOver⟩ := directive_of_sign f.source
      (e := f.cursor.moveOver space ('#' :: (body ++ u))) rfl hEnd hBody hClosed
    have hNext : Token.next r.macros.lexicon true f.source f.cursor =
        .ok (Token.directive f.source (f.cursor.moveOver space ('#' :: (body ++ u)))) := by
      unfold Token.next
      dsimp only
      rw [hSign]
      dsimp only [Cursor.moveOver]
      exact if_pos ⟨rfl, rfl, hStart⟩
    have hKind : (Token.directive f.source (f.cursor.moveOver space ('#' :: (body ++ u)))).1.kind =
        .directive := rfl
    rw [Cursor.moveOver_moveOver] at hOver
    generalize Token.directive f.source (f.cursor.moveOver space ('#' :: (body ++ u))) = x at *
    obtain ⟨x, e⟩ := x
    have hMeets := meets_placed (r := r) (o := o) (s := r.sections) hEnabled hNext
    rw [← hSelf, show e = _ from hOver] at hMeets
    exact ⟨hMeets, hKind, by rw [Token.keyword, hDirectiveText, String.toList_ofList, hKeyword]⟩
  | ahead hAhead hKind hKeyword =>
    refine ⟨?_, hKind, hKeyword⟩
    have hPlaced : r.placed f o r.sections f.cursor = { r with ahead := none } := by
      rw [placed, ← hFrames]
    rw [Meets, hSkip, raw, hAhead, hPlaced]

/-! ## What the reader does -/

theorem processDirective_verbatim (hKeyword : t.keyword = "verbatim_begin") (hEnabled : r.enabled = true) :
    r.processDirective g t = orAtDirective t.position
      (r.readVerbatim >>= fun x => .ok (x.2, g.addRecord .verbatimBlock x.1 t)) := by
  unfold processDirective
  dsimp only
  rw [show String.ofList (t.text.toList.takeWhile Text.isWord) = "verbatim_begin" from hKeyword]
  exact if_pos hEnabled

/-- A step at a block reads it behind the line of the directive. -/
theorem step_of_atBlock (hFrames : r.frames = f :: o) (hEnabled : r.enabled = true)
    (h : r.AtBlock f t c) : r.step g =
      (orAtDirective t.position ((r.placed f o r.sections c).readVerbatim >>= fun x =>
        .ok (x.2, g.addRecord .verbatimBlock x.1 t)) >>= fun x => .ok ([], x.1, x.2)) := by
  obtain ⟨hMeets, hKind, hKeyword⟩ := h.meets hFrames hEnabled
  have hPlaced : (r.placed f o r.sections c).enabled = true := hEnabled
  unfold step
  rw [show r.skipDisabled.raw = .ok (t, r.placed f o r.sections c) from hMeets, ok_bind_eq]
  dsimp only
  rw [hKind]
  dsimp only
  rw [processDirective_verbatim hKeyword hPlaced]
  rfl

/-- A block is recorded, and the reader comes behind it as it came to it. -/
theorem step_of_block {lines : List (List Char)} {last u : List Char} (hFrames : r.frames = f :: o)
    (hEnabled : r.enabled = true) (h : r.AtBlock f t c) (hLines : ∀ l ∈ lines, Text.IsVerbatim l)
    (hEnd : Text.IsLineEnd u) (hLast : '\n' ∉ last) (hCloses : Text.ClosesVerbatim last)
    (hText : c.rest = Text.linesText lines ++ (last ++ u)) :
    r.step g = .ok ([],
      r.placed f o r.sections
        (c.moveOver (Text.linesText lines ++ (last ++ u.take 1)) (u.drop 1)),
      g.addRecord .verbatimBlock ("\n".intercalate (lines.map String.ofList)) t) := by
  have hRead : (r.placed f o r.sections c).readVerbatim = .ok
      ("\n".intercalate (lines.map String.ofList), r.placed f o r.sections
        (c.moveOver (Text.linesText lines ++ (last ++ u.take 1)) (u.drop 1))) := by
    unfold readVerbatim
    dsimp only [placed]
    rw [hText, Text.verbatimLines_block hLines hEnd hLast hCloses]
    rfl
  rw [step_of_atBlock hFrames hEnabled h, hRead]
  rfl

/-- A block without an end is a fault at the end of its source. -/
theorem step_of_open (hFrames : r.frames = f :: o) (hEnabled : r.enabled = true)
    (h : r.AtBlock f t c) (hOpen : ∀ l ∈ c.rest.splitOn '\n', ¬ Text.ClosesVerbatim l) :
    r.step g = .error ((Fault.of .verbatimEndMissing).placed (c.moveOver c.rest []).position) := by
  have hRead : (r.placed f o r.sections c).readVerbatim =
      .error ((Fault.of .verbatimEndMissing).placed (c.moveOver c.rest []).position) := by
    unfold readVerbatim
    dsimp only [placed]
    rw [Text.verbatimLines_open List.not_mem_nil hOpen]
    rfl
  rw [step_of_atBlock hFrames hEnabled h, hRead]
  rfl

end Reader

end IdlReader
