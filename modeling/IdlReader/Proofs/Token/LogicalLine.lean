import IdlReader.Proofs.Text.Offset

/-!
# Logical lines

A logical line is made up of physical lines, of which each but the last ends in a backslash. It goes
up to the first line feed in front of which no backslash stands, or to the end of the text. A
carriage return in front of a line feed or of the end of the text belongs to the end of its line.

A directive starts with a number sign and goes over the logical line behind it. It ends on the
physical line of the last byte that it goes over, with or without a line feed at the end of the text.

* `Text.isLogicalLine_logicalLine`: what a logical line goes over and what it reads.
* `Cursor.readLogicalLine_of_rest`: a cursor goes over a logical line byte by byte.
* `Token.isDirectiveAt_directive`: the directive at a number sign.
* `Cursor.logical_lines`: cursors at any byte of a text, and the directives in front of them.
-/

namespace IdlReader

/-! ## Physical lines -/

namespace Text

variable {l s u read left : List Char}

/-- The line that a text ends on: what stands behind its last line feed. -/
def lastLine (s : List Char) : List Char := (s.reverse.takeWhile (· ≠ '\n')).reverse

/-- Whether the next line continues each of the lines that end in a text. -/
def AllContinued (s : List Char) : Prop := ∀ t u, s = t ++ '\n' :: u → IsContinued (lastLine t)

/-- Whether `read` goes up to and including the first line feed of `read ++ left` whose line is not
continued, or is all of the text where there is none. -/
def IsLogicalLine (read left : List Char) : Prop :=
  (∃ s, read = s ++ ['\n'] ∧ AllContinued s ∧ ¬ IsContinued (lastLine s)) ∨
    (left = [] ∧ AllContinued read)

/-- What a physical line adds to a logical one: the line without the carriage return at its end, and
with a space in place of a backslash there. -/
def joined (line : List Char) : List Char :=
  if IsContinued line then (dropReturn line).dropLast ++ [' '] else dropReturn line

/-- The physical lines of a text joined. -/
def joinLines (s : List Char) : List Char := (s.splitOn '\n').flatMap joined

theorem lastLine_of_notMem (h : '\n' ∉ l) : lastLine l = l := by
  have hAll : ∀ c ∈ l.reverse, (decide (c ≠ '\n')) = true := by
    intro c hc
    refine decide_eq_true ?_
    rintro rfl
    exact h (List.mem_reverse.mp hc)
  have hTake := @List.takeWhile_append_of_pos _ _ _ [] hAll
  rw [List.append_nil, List.takeWhile_nil, List.append_nil] at hTake
  rw [lastLine, hTake, List.reverse_reverse]

theorem lastLine_append (s t : List Char) : lastLine (s ++ '\n' :: t) = lastLine t := by
  unfold lastLine
  rw [List.reverse_append, List.reverse_cons, List.append_assoc, List.takeWhile_append]
  split
  · rename_i hAll
    rw [(List.takeWhile_prefix _).eq_of_length hAll]
    simp
  · rfl

theorem joinLines_of_notMem (h : '\n' ∉ l) : joinLines l = joined l := by
  rw [joinLines, List.splitOn_eq_singleton h, List.flatMap_singleton]

theorem joinLines_append (h : '\n' ∉ l) (s : List Char) :
    joinLines (l ++ '\n' :: s) = joined l ++ joinLines s := by
  rw [joinLines, List.splitOn_append_cons_self_of_not_mem h, List.flatMap_cons]
  rfl

theorem allContinued_of_notMem (h : '\n' ∉ s) : AllContinued s := by
  rintro t u rfl
  exact absurd (List.mem_append_right t List.mem_cons_self) h

theorem AllContinued.append (hLine : '\n' ∉ l) (hContinued : IsContinued l) (h : AllContinued s) :
    AllContinued (l ++ '\n' :: s) := by
  intro t u hEq
  rcases List.append_eq_append_iff.mp hEq with ⟨v, ht, hv⟩ | ⟨v, hl, hv⟩
  · cases v with
    | nil => rwa [ht, List.append_nil, lastLine_of_notMem hLine]
    | cons c v =>
      obtain ⟨rfl, hs⟩ := List.cons.inj hv
      rw [ht, lastLine_append]
      exact h v u hs
  · cases v with
    | nil => rwa [← hl.trans (List.append_nil t), lastLine_of_notMem hLine]
    | cons c v =>
      obtain ⟨rfl, -⟩ := List.cons.inj hv
      exact absurd (hl ▸ List.mem_append_right t List.mem_cons_self) hLine

theorem IsLogicalLine.append (hLine : '\n' ∉ l) (hContinued : IsContinued l)
    (h : IsLogicalLine read left) : IsLogicalLine (l ++ '\n' :: read) left := by
  rcases h with ⟨s, rfl, hAll, hLast⟩ | ⟨hLeft, hAll⟩
  · refine Or.inl ⟨l ++ '\n' :: s, ?_, hAll.append hLine hContinued, ?_⟩
    · rw [List.append_assoc, List.cons_append]
    · rwa [lastLine_append]
  · exact Or.inr ⟨hLeft, hAll.append hLine hContinued⟩

/-- What holds of the last line of a text, and of a text with one more line in front, holds of
every text. -/
theorem induction_on_lines {P : List Char → Prop} (hLast : ∀ l, '\n' ∉ l → P l)
    (hLine : ∀ l s, '\n' ∉ l → P s → P (l ++ '\n' :: s)) (s : List Char) : P s := by
  have hNone : '\n' ∉ s.takeWhile (· ≠ '\n') := by
    intro hMem
    simpa using List.all_eq_true.mp List.all_takeWhile _ hMem
  have hParts : s.takeWhile (· ≠ '\n') ++ s.dropWhile (· ≠ '\n') = s := List.takeWhile_append_dropWhile
  generalize hRest : s.dropWhile (· ≠ '\n') = u at hParts
  cases u with
  | nil =>
    rw [List.append_nil] at hParts
    exact hLast s (hParts ▸ hNone)
  | cons c u =>
    have hFeed : c = '\n' := by
      have hHead := List.head?_dropWhile_not (· ≠ '\n') s
      rw [hRest] at hHead
      simpa using hHead
    have hLess : u.length < s.length := by
      rw [← hParts, List.length_append, List.length_cons]
      omega
    rw [← hParts, hFeed]
    exact hLine _ u hNone (induction_on_lines hLast hLine u)
termination_by s.length

/-! ## Logical lines -/

/-- The character that continues a line may be its last one, or the last but a carriage return. -/
theorem isContinued_cons_cons {c d : Char} (h : IsContinued (c :: d :: s)) :
    IsContinued (d :: s) ∨ (c = '\\' ∧ d = '\r' ∧ s = []) := by
  rw [IsContinued, dropReturn_cons_cons] at h
  cases hDrop : dropReturn (d :: s) with
  | nil =>
    rw [hDrop, List.getLast?_singleton] at h
    cases s with
    | nil =>
      refine Or.inr ⟨Option.some.inj h, ?_, rfl⟩
      by_contra hReturn
      rw [dropReturn, if_neg hReturn] at hDrop
      cases hDrop
    | cons e s => cases hDrop
  | cons e t =>
    rw [hDrop, List.getLast?_cons_cons] at h
    refine Or.inl ?_
    rwa [IsContinued, hDrop]

/-- The logical line that starts with a line which the next one continues. -/
theorem logicalLine_append_of_continued (hu : IsLineEnd u) (hLine : '\n' ∉ s) (h : IsContinued s) :
    logicalLine (s ++ u) =
      ((dropReturn s).dropLast ++ ' ' :: (logicalLine (u.drop 1)).1,
        s ++ u.take 1 ++ (logicalLine (u.drop 1)).2.1, (logicalLine (u.drop 1)).2.2) := by
  induction s with
  | nil => cases h
  | cons c s ih =>
    have hChar : c ≠ '\n' := fun hEq => hLine (hEq ▸ List.mem_cons_self)
    cases s with
    | nil =>
      have hReturn : c ≠ '\r' := by
        rintro rfl
        cases h
      have hSlash : c = '\\' := by
        rw [IsContinued, dropReturn, if_neg hReturn, List.getLast?_singleton] at h
        exact Option.some.inj h
      subst hSlash
      rcases hu with rfl | ⟨v, rfl⟩ <;> rfl
    | cons d s =>
      rcases isContinued_cons_cons h with hMore | ⟨rfl, rfl, rfl⟩
      · have hNext : d ≠ '\n' := fun hEq => hLine (hEq ▸ List.mem_cons_of_mem c List.mem_cons_self)
        have hSome : dropReturn (d :: s) ≠ [] := by
          intro hNil
          rw [IsContinued, hNil] at hMore
          cases hMore
        rw [List.cons_append, logicalLine_cons hChar,
          ih (fun hMem => hLine (List.mem_cons_of_mem c hMem)) hMore, dropReturn_cons_cons,
          List.dropLast_cons_of_ne_nil hSome]
        · rfl
        · exact fun _ => ⟨d, s ++ u, rfl, hNext⟩
        · rintro rfl
          refine ⟨d, s ++ u, rfl, hNext, ?_⟩
          rintro rfl
          cases s with
          | nil => cases hMore
          | cons e s => exact ⟨e, s ++ u, rfl, fun hEq => hLine (by simp [hEq])⟩
      · rcases hu with rfl | ⟨v, rfl⟩ <;> rfl

/-- What a logical line goes over, and what it reads. -/
theorem isLogicalLine_logicalLine (s : List Char) :
    IsLogicalLine (logicalLine s).2.1 (logicalLine s).2.2 ∧
      (logicalLine s).1 = joinLines (logicalLine s).2.1 := by
  induction s using induction_on_lines with
  | hLast l hLine =>
    have hRead : logicalLine l = (joined l, l, []) := by
      rw [joined, ← List.append_nil l]
      by_cases hContinued : IsContinued l
      · rw [logicalLine_append_of_continued (Or.inl rfl) hLine hContinued, List.append_nil,
          if_pos hContinued]
        simp [logicalLine]
      · rw [logicalLine_append_of_not_continued (Or.inl rfl) hLine hContinued, List.append_nil,
          if_neg hContinued]
        simp
    rw [hRead]
    exact ⟨Or.inr ⟨rfl, allContinued_of_notMem hLine⟩, (joinLines_of_notMem hLine).symm⟩
  | hLine l s hLine ih =>
    obtain ⟨hEnds, hJoined⟩ := ih
    by_cases hContinued : IsContinued l
    · have hRead : logicalLine (l ++ '\n' :: s) =
          (joined l ++ (logicalLine s).1, l ++ '\n' :: (logicalLine s).2.1, (logicalLine s).2.2) := by
        rw [logicalLine_append_of_continued (Or.inr ⟨s, rfl⟩) hLine hContinued, joined,
          if_pos hContinued]
        simp
      rw [hRead]
      refine ⟨hEnds.append hLine hContinued, ?_⟩
      rw [joinLines_append hLine, ← hJoined]
    · have hRead : logicalLine (l ++ '\n' :: s) = (joined l, l ++ ['\n'], s) := by
        rw [logicalLine_append_of_not_continued (Or.inr ⟨s, rfl⟩) hLine hContinued, joined,
          if_neg hContinued]
        rfl
      rw [hRead]
      refine ⟨Or.inl ⟨l, rfl, allContinued_of_notMem hLine, ?_⟩, ?_⟩
      · rwa [lastLine_of_notMem hLine]
      · rw [joinLines_append hLine]
        exact (List.append_nil _).symm

end Text

/-! ## Cursors -/

namespace Cursor

open Text (IsLogicalLine bytes byteSize joinLines)

variable {c : Cursor} {text : List Char} {n : Nat}

/-- A cursor goes over one logical line of the text that is left, byte by byte. -/
theorem readLogicalLine_of_rest (hWithin : c.within = 0) : ∃ read left, c.rest = read ++ left ∧
    IsLogicalLine read left ∧ c.readLogicalLine = (joinLines read, c.bumpMany (byteSize read)) ∧
    c.bumpMany (byteSize read) = c.moveOver read left := by
  obtain ⟨hEnds, hJoined⟩ := Text.isLogicalLine_logicalLine c.rest
  have hRest : c.rest = (Text.logicalLine c.rest).2.1 ++ (Text.logicalLine c.rest).2.2 :=
    (Text.logicalLine_append c.rest).symm
  have hMove := moveOver_eq_bumpMany hWithin hRest
  refine ⟨_, _, hRest, hEnds, ?_, hMove.symm⟩
  rw [readLogicalLine, if_pos hWithin, ← hJoined, ← hMove]

example : (ofText "define A \\\n  1\nnext".toList).readLogicalLine.1 = "define A    1".toList := by
  decide +kernel

/-- Wherever a cursor stands, behind a logical line it is at a byte offset of the text. -/
theorem exists_ofOffset_readLogicalLine (text : List Char) (n : Nat) :
    ∃ m, (ofOffset text n).readLogicalLine.2 = ofOffset text m := by
  by_cases hWithin : (ofOffset text n).within = 0
  · obtain ⟨read, left, -, -, hRead, -⟩ := readLogicalLine_of_rest hWithin
    exact ⟨n + byteSize read, by rw [hRead, ofOffset_add]⟩
  · obtain ⟨hStands, -⟩ := standsIn_ofOffset text n
    cases hRest : (ofOffset text n).rest with
    | nil => exact absurd (hStands.within_end hRest) hWithin
    | cons d s =>
      -- a character with a byte inside is no line feed
      have hFeed : d ≠ '\n' := by
        refine Text.ne_lineFeed_of_inside (n := (ofOffset text n).within - 1) ?_
        rw [Nat.sub_add_cancel (Nat.pos_of_ne_zero hWithin)]
        exact hStands.within_lt d s hRest
      have hLine : (ofOffset text n).skipLine = (ofOffset text n).moveOver
          (d :: s.takeWhile (· ≠ '\n')) (s.dropWhile (· ≠ '\n')) := by
        rw [skipLine, hRest, List.takeWhile_cons_of_pos (by simpa using hFeed),
          List.dropWhile_cons_of_pos (by simpa using hFeed)]
      obtain ⟨m, hm⟩ := @exists_ofOffset_moveOver text n d (s.takeWhile (· ≠ '\n'))
        (s.dropWhile (· ≠ '\n')) (by rw [hRest, List.takeWhile_append_dropWhile])
      refine ⟨m + 1, ?_⟩
      rw [readLogicalLine, if_neg hWithin, hLine, hm, ofOffset_add]
      rfl

end Cursor

/-! ## Directives -/

namespace Token

open Cursor (ofOffset)
open Text (IsLogicalLine byteSize joinLines)

variable {c : Cursor} {text : List Char} {n : Nat}

/-- Whether the number sign of a directive stands at the byte offset `n` of a text, and the cursor
`d` behind the logical line `read` that follows the sign. -/
structure IsDirectiveAt (t : Token) (text : List Char) (n : Nat) (read : List Char) (d : Cursor) :
    Prop where
  text_eq : t.text = String.ofList (Text.trimLeft (joinLines read))
  first : t.span.first = Position.ofOffset text n
  /-- The last line is the one of the last byte in front of the cursor. -/
  last_line : t.span.last.line = (Position.ofOffset text (d.offset - 1)).line
  behind : d = ofOffset text (n + byteSize ('#' :: read))

/-- The directive at a number sign goes over the logical line behind it. -/
theorem isDirectiveAt_directive (source : SourceId) {tail : List Char}
    (hWithin : (ofOffset text n).within = 0) (hRest : (ofOffset text n).rest = '#' :: tail) :
    ∃ read left, tail = read ++ left ∧ IsLogicalLine read left ∧
      IsDirectiveAt (directive source (ofOffset text n)).1 text n read
        (directive source (ofOffset text n)).2 := by
  have hSign : (ofOffset text n).moveOver ['#'] tail = ofOffset text (n + 1) := by
    rw [Cursor.ofOffset_add]
    exact Cursor.moveOver_eq_bumpMany hWithin hRest
  obtain ⟨read, left, hTail, hEnds, hRead, hMove⟩ :=
    @Cursor.readLogicalLine_of_rest ((ofOffset text n).moveOver ['#'] tail) rfl
  have hOffset : n + 1 + byteSize read = n + byteSize ('#' :: read) := Nat.add_assoc n 1 _
  rw [Cursor.moveOver_moveOver, hSign, ← Cursor.ofOffset_add, hOffset] at hMove
  rw [hSign, ← Cursor.ofOffset_add, hOffset, ← hSign] at hRead
  refine ⟨read, left, hTail, hEnds, ?_⟩
  have hLine : ((ofOffset text n).moveOver ((ofOffset text n).rest.take 1)
      ((ofOffset text n).rest.drop 1)).readLogicalLine =
        (joinLines read, ofOffset text (n + byteSize ('#' :: read))) := by
    rw [hRest]
    exact hRead
  obtain ⟨hStands, -⟩ := Cursor.standsIn_ofOffset text (n + byteSize ('#' :: read))
  generalize hAfter : ofOffset text (n + byteSize ('#' :: read)) = after at hMove hLine hStands
  have hPast : after.past = read.reverse ++ '#' :: (ofOffset text n).past := by
    rw [hMove]
    simp [Cursor.moveOver]
  obtain ⟨x, past, hLast⟩ := List.exists_cons_of_ne_nil (l := after.past) (by simp [hPast])
  unfold directive
  rw [hLine]
  refine ⟨rfl, Cursor.position_ofOffset text n, ?_, hAfter.symm⟩
  rw [hStands.line_before (by rw [hMove]; rfl) hLast]
  dsimp only
  rw [hLast, List.head?_cons]
  simp only [Option.some.injEq]

/-- A directive is met at a number sign behind white space. -/
theorem directive_of_next {l : Lexicon} {directives : Bool} {source : SourceId} {t : Token}
    {d : Cursor} (h : next l directives source c = .ok (t, d)) (hKind : t.kind = .directive) :
    ∃ tail, c.skipSpace.rest = '#' :: tail ∧ directive source c.skipSpace = (t, d) := by
  unfold next at h
  dsimp only at h
  split at h
  · cases h
    cases hKind
  · rename_i e s hText
    split at h
    · rename_i hSign
      obtain ⟨-, rfl, -⟩ := hSign
      exact ⟨s, hText, Except.ok.inj h⟩
    · obtain ⟨x, hRead, h⟩ := bind_eq_ok.mp h
      cases h
      exact absurd hKind (Lexeme.kind_read x hRead).2

end Token

/-! ## Lines behind every byte of a text -/

namespace Cursor

open Text (IsLogicalLine bytes byteSize joinLines)

/-- A cursor that stands anywhere in a text is at the line and the column of its byte offset behind a
logical line. In front of the text `rest`, it goes up to and including the first line feed whose line
is not continued, or over everything, and joins the physical lines of what it goes over. A directive
that is met there starts at its number sign and ends on the line of the last byte it goes over.
(From inside of a character no text is left.) -/
theorem logical_lines (text : List Char) (n : Nat) :
    (ofOffset text n).readLogicalLine.2.position =
        Position.ofOffset text (ofOffset text n).readLogicalLine.2.offset ∧
      ∀ rest, (ofOffset text n).bytesAhead = bytes rest →
        (∃ read left, rest = read ++ left ∧ IsLogicalLine read left ∧
          (ofOffset text n).readLogicalLine = (joinLines read, ofOffset text (n + byteSize read))) ∧
        ∀ {l : Lexicon} {directives : Bool} {source : SourceId} {t : Token} {d : Cursor},
          Token.next l directives source (ofOffset text n) = .ok (t, d) → t.kind = .directive →
          ∃ gap read left, rest = gap ++ '#' :: (read ++ left) ∧
            (∀ e ∈ gap, Lexeme.isSpace e = true) ∧ IsLogicalLine read left ∧
            t.IsDirectiveAt text (n + byteSize gap) read d := by
  obtain ⟨m, hm⟩ := exists_ofOffset_readLogicalLine text n
  refine ⟨?_, fun rest hAhead => ?_⟩
  · rw [hm]
    exact (standsIn_ofOffset text m).1.position
  · obtain ⟨hWithin, rfl⟩ := (standsIn_ofOffset text n).1.rest_of_bytesAhead hAhead
    refine ⟨?_, fun hNext hKind => ?_⟩
    · obtain ⟨read, left, hRest, hEnds, hRead, -⟩ := readLogicalLine_of_rest hWithin
      refine ⟨read, left, hRest, hEnds, ?_⟩
      rw [hRead, ofOffset_add]
    · obtain ⟨tail, hTail, hDirective⟩ := Token.directive_of_next hNext hKind
      obtain ⟨gap, hGap, hRest, hHead⟩ := Token.exists_space (ofOffset text n)
      rw [hTail] at hRest hHead
      have hSkip : (ofOffset text n).skipSpace = ofOffset text (n + byteSize gap) := by
        rw [skipSpace_of_rest hRest hGap hHead, moveOver_eq_bumpMany hWithin hRest, ofOffset_add]
      have hSign : (ofOffset text n).skipSpace.within = 0 := rfl
      rw [hSkip] at hTail hDirective hSign
      obtain ⟨read, left, rfl, hEnds, hAt⟩ := Token.isDirectiveAt_directive _ hSign hTail
      rw [hDirective] at hAt
      exact ⟨gap, read, left, hRest, hGap, hEnds, hAt⟩

/-- A directive over two lines behind another one. Both end in a backslash, in front of a carriage
return and of the line feed that the text ends in. -/
def continuedLines : List Char := "é\r\n \t#define A\\\r\n\\ ß\\\n".toList

theorem logical_lines_continued :
    (ofOffset continuedLines 4).bytesAhead = bytes (continuedLines.drop 3) ∧
      (∃ read left, continuedLines.drop 3 = read ++ left ∧ IsLogicalLine read left ∧
        (ofOffset continuedLines 4).readLogicalLine =
          (joinLines read, ofOffset continuedLines (4 + byteSize read))) ∧
      ∃ t d, Token.next (Environment.lexicon {}) true 0 (ofOffset continuedLines 4) = .ok (t, d) ∧
        t.kind = .directive ∧ t.span.first.line = 2 ∧ t.span.last.line = 3 ∧ d.position.line = 4 ∧
        ∃ gap read left, continuedLines.drop 3 = gap ++ '#' :: (read ++ left) ∧
          (∀ e ∈ gap, Lexeme.isSpace e = true) ∧ IsLogicalLine read left ∧
          t.IsDirectiveAt continuedLines (4 + byteSize gap) read d := by
  have hAhead : (ofOffset continuedLines 4).bytesAhead = bytes (continuedLines.drop 3) := by
    decide +kernel
  have hRun : (Token.next (Environment.lexicon {}) true 0 (ofOffset continuedLines 4)).toOption.any
      (fun r => r.1.kind = .directive ∧ r.1.span.first.line = 2 ∧ r.1.span.last.line = 3 ∧
        r.2.position.line = 4) = true := by decide +kernel
  obtain ⟨⟨t, d⟩, hNext, hLines⟩ := any_toOption hRun
  obtain ⟨hKind, hFirst, hLast, hBehind⟩ := of_decide_eq_true hLines
  obtain ⟨hRead, hDirective⟩ := (logical_lines continuedLines 4).2 _ hAhead
  exact ⟨hAhead, hRead, t, d, hNext, hKind, hFirst, hLast, hBehind, hDirective hNext hKind⟩

end Cursor

end IdlReader
