import IdlReader.Proofs.Comment.Scan

/-!
# The lines of a block comment are parts of it

What is collected of a block comment line by line is what its bytes hold between the offsets that
`spans` finds. So it lies in front of the end of the comment, for any marker and any text behind it.

* `slices_spans`: the lines behind an offset.
* `slices_blockSpans`: the lines of a block comment; there are none where its marker meets its end.
* `combine_copies`: the text of any comments.
-/

namespace IdlReader.Comment

open Text (bytes byteSize length_bytes sliceBytes)

variable {c : Char} {s before : List Char} {initial : Bool}

/-! ## All lines -/

theorem exists_lineEnd {content rest : List Char} {e : Char}
    (h : splitLine s = some (content, e, rest)) :
    ∃ returns, s = content ++ (lineEnd returns ++ rest) ∧ e = endMark returns := by
  fun_induction splitLine s generalizing content with
  | case1 => cases h
  | case2 s =>
    cases h
    exact ⟨false, rfl, rfl⟩
  | case3 s =>
    cases h
    exact ⟨true, rfl, rfl⟩
  | case4 c s _ _ ih =>
    obtain ⟨⟨content', e', rest'⟩, hs, hr⟩ := Option.map_eq_some_iff.mp h
    cases hr
    obtain ⟨returns, hText, hMark⟩ := ih hs
    exact ⟨returns, congrArg (c :: ·) hText, hMark⟩

theorem trimLine_prefix (line : List Char) : trimLine line <+: line := by
  cases line with
  | nil => exact List.prefix_refl []
  | cons c s =>
    exact (List.prefix_append_right_inj [c]).mpr ⟨_, Lexeme.append_drop_dropTrailing isAsciiBlank s⟩

/-- A line is copied up to its last byte that is no white space, and its first one at least. -/
theorem sliceBytes_stopOf {text line rest : List Char} (hText : text = before ++ (line ++ rest))
    (hLine : line ≠ []) :
    sliceBytes text (byteSize before) (stopOf (byteSize before) line + 1) = some (trimLine line) := by
  obtain ⟨tail, hTail⟩ := trimLine_prefix line
  have hSome : 0 < byteSize (trimLine line) := by
    obtain ⟨c, s, rfl⟩ := List.exists_cons_of_ne_nil hLine
    rw [trimLine, Text.byteSize_cons]
    exact Nat.add_pos_left (Char.utf8Size_pos c) _
  have hStop : stopOf (byteSize before) line + 1 = byteSize (before ++ trimLine line) := by
    rw [stopOf, Text.byteSize_append]
    omega
  have hSplit : text = before ++ trimLine line ++ (tail ++ rest) :=
    calc text = before ++ (trimLine line ++ tail ++ rest) := by rw [hText, hTail]
      _ = before ++ trimLine line ++ (tail ++ rest) := by simp only [List.append_assoc]
  rw [hStop, hSplit]
  exact Text.sliceBytes_middle _ _ _

/-- Where there is nothing on a line the first byte of its end is copied. -/
theorem sliceBytes_endMark {text rest : List Char} {returns : Bool}
    (hText : text = before ++ (lineEnd returns ++ rest)) :
    sliceBytes text (byteSize before) (byteSize before + 1) = some [endMark returns] := by
  have hSplit : ∃ tail, text = before ++ [endMark returns] ++ tail := by
    cases returns with
    | false => exact ⟨rest, by rw [hText, List.append_assoc]; rfl⟩
    | true => exact ⟨'\n' :: rest, by rw [hText, List.append_assoc]; rfl⟩
  have hStop : byteSize before + 1 = byteSize (before ++ [endMark returns]) := by
    rw [byteSize_concat]
    cases returns <;> rfl
  obtain ⟨tail, hTail⟩ := hSplit
  rw [hStop, hTail]
  exact Text.sliceBytes_middle _ _ _

/-- What the spans of a text from `before` on hold. -/
def slices (text : List Char) (spans : List Span) : List (Option (List Char)) :=
  spans.map fun r => sliceBytes text r.start (r.stop + 1)

section Lines

variable {text : List Char}

theorem length_bytes_closing (hText : text = before ++ (s ++ closing)) :
    (bytes text).length = byteSize before + (byteSize s + 2) := by
  rw [hText, length_bytes, Text.byteSize_append, Text.byteSize_append]
  rfl

theorem stopAt_nil (start : Nat) (c : Char) : stopAt start [] c = start := by
  unfold stopAt
  split <;> rfl

/-- A line and those behind it, where these are known. -/
theorem slices_spansOfLine {line : List Char} (hText : text = before ++ (line ++ closing))
    (hNext : ∀ before' rest, text = before' ++ (rest ++ closing) → rest.length < line.length →
      slices text (spans (bytes text) false (byteSize before')) = (linesFrom false rest).map some) :
    slices text (spansOfLine (bytes text) (byteSize before)) = List.map some
      (match splitLine line with
        | some (content, e, rest) =>
          (if content = [] then [e] else trimLine content) :: linesFrom false rest
        | none => if byteSize line < 2 then [] else [trimLine line]) := by
  have hLength := length_bytes_closing hText
  rcases line with _ | ⟨d, t⟩
  · rw [spansOfLine, if_pos (by rw [hLength]; rfl)]
    rfl
  · have hSome : byteSize before ≠ (bytes text).length - 2 := by
      have hSize := Char.utf8Size_pos d
      rw [Text.byteSize_cons] at hLength
      omega
    have hScan := scanLine_bytes (b := bytes text) before [] d t (by rw [hText]; rfl)
    rw [stopAt_nil, List.append_nil] at hScan
    rw [spansOfLine, if_neg hSome, hScan, scanned]
    cases hSplit : splitLine (d :: t) with
    | none =>
      dsimp only
      rw [spans_of_le (Nat.le_refl _), List.append_nil, List.nil_append]
      split
      · rfl
      · exact congrArg (· :: []) (sliceBytes_stopOf hText (List.cons_ne_nil d t))
    | some r =>
      obtain ⟨content, e, rest⟩ := r
      obtain ⟨returns, hLine, rfl⟩ := exists_lineEnd hSplit
      rw [hLine] at hText
      have hContent : text = before ++ (content ++ (lineEnd returns ++ (rest ++ closing))) := by
        rw [hText, List.append_assoc, List.append_assoc]
      have hRest : text = before ++ (content ++ lineEnd returns) ++ (rest ++ closing) := by
        rw [hText]
        simp only [List.append_assoc]
      have hBehind : (bytes text).length - 2 - byteSize rest =
          byteSize (before ++ (content ++ lineEnd returns)) := by
        have hLength := length_bytes_closing hRest
        omega
      have hShorter := length_splitLine hSplit
      dsimp only
      rw [List.nil_append, hBehind, slices, List.map_append, ← slices, ← slices,
        hNext _ _ hRest (by omega)]
      refine congrArg (· :: (linesFrom false rest).map some) ?_
      split
      · rename_i hNone
        subst hNone
        exact sliceBytes_endMark hContent
      · rename_i hSome
        exact sliceBytes_stopOf hContent hSome

/-- Where a line starts that is not skipped, it is what is left behind its asterisk. -/
theorem linesFrom_eq_of_line (hSize : 2 ≤ byteSize (c :: s)) (hPad : isPad c = false)
    (hEnd : ¬ (initial = true ∧ endSize c s ≠ 0)) : linesFrom initial (c :: s) =
      match splitLine (dropAsterisk (c :: s)) with
      | some (content, e, rest) =>
        (if content = [] then [e] else trimLine content) :: linesFrom false rest
      | none =>
        if byteSize (dropAsterisk (c :: s)) < 2 then [] else [trimLine (dropAsterisk (c :: s))] := by
  have hNoPad : c ≠ ' ' ∧ c ≠ '\t' := by simpa [isPad] using hPad
  have hFirst : initial = true → c ≠ '\n' ∧ (c = '\r' → s.head? ≠ some '\n') := by
    intro hInitial
    have hNone : endSize c s = 0 := by_contra fun h => hEnd ⟨hInitial, h⟩
    unfold endSize at hNone
    refine ⟨fun hc => ?_, fun hc hHead => ?_⟩
    · rw [if_pos hc] at hNone
      exact absurd hNone Nat.one_ne_zero
    · rw [if_neg (by rw [hc]; decide), if_pos ⟨hc, hHead⟩] at hNone
      exact absurd hNone (Nat.succ_ne_zero 1)
  cases hSplit : splitLine (dropAsterisk (c :: s)) with
  | none => exact linesFrom_of_none hSize hNoPad hFirst hSplit
  | some r => exact linesFrom_of_splitLine hSize hNoPad hFirst hSplit

/-- What the lines of a comment are copied from holds these lines. -/
theorem slices_spans (initial : Bool) (before s : List Char) (hText : text = before ++ (s ++ closing)) :
    slices text (spans (bytes text) initial (byteSize before)) = (linesFrom initial s).map some := by
  induction hn : s.length using Nat.strong_induction_on generalizing before s initial with
  | h n ih =>
  have hLength := length_bytes_closing hText
  by_cases hShort : byteSize s < 2
  · rw [spans_of_le (by omega), linesFrom_of_lt hShort]
    rfl
  obtain ⟨c, s, rfl⟩ : ∃ c t, s = c :: t := by
    cases s with
    | nil => exact absurd (Nat.zero_lt_two) hShort
    | cons c t => exact ⟨c, t, rfl⟩
  have hBound : byteSize before < (bytes text).length - 3 := by omega
  have hBytes : bytes text = bytes (before ++ c :: (s ++ closing)) := by rw [hText]; rfl
  have hPad : isPadByte (byteAt (bytes text) (byteSize before)) = isPad c := by
    rw [hBytes, isPadByte_byteAt]
  have hWidth : endWidth (bytes text) (byteSize before) = endSize c s := by
    rw [hBytes, endWidth_bytes]
  by_cases hc : isPad c = true
  · have hSkip : skipPad (bytes text) (byteSize before) =
        byteSize (before ++ (c :: s).takeWhile isPad) := by
      rw [hText, skipPad_bytes]
    have hLess : ((c :: s).dropWhile isPad).length < n := by
      rw [← hn, List.dropWhile_cons_of_pos hc, List.length_cons]
      exact Nat.lt_succ_of_le (List.dropWhile_suffix isPad).length_le
    rw [spans_pad hBound (hPad.trans hc), hSkip, ← linesFrom_dropWhile (c :: s)]
    refine ih _ hLess initial _ _ ?_ rfl
    rw [hText, List.append_assoc, ← List.append_assoc (List.takeWhile _ _),
      List.takeWhile_append_dropWhile]
  · have hNoPad : ¬ isPadByte (byteAt (bytes text) (byteSize before)) = true := by rwa [hPad]
    by_cases hEmpty : initial = true ∧ endSize c s ≠ 0
    · obtain ⟨rfl, hEnd⟩ := hEmpty
      obtain ⟨e, rest, hSplit, -, -, hSize⟩ := splitLine_of_end hEnd
      obtain ⟨returns, hLine, -⟩ := exists_lineEnd hSplit
      rw [List.nil_append] at hLine
      have hRest : text = before ++ lineEnd returns ++ (rest ++ closing) := by
        rw [hText, hLine]
        simp only [List.append_assoc]
      have hBehind : byteSize before + endSize c s = byteSize (before ++ lineEnd returns) := by
        have hLength' := length_bytes_closing hRest
        omega
      have hShorter := length_splitLine hSplit
      rw [spans_empty hBound hNoPad (by rwa [hWidth]), hWidth, hBehind, hLine, linesFrom_lineEnd,
        if_pos rfl]
      exact ih _ (by omega) true _ _ hRest rfl
    · obtain ⟨mark, hMark⟩ := suffix_dropAsterisk (c :: s)
      have hLine : text = before ++ mark ++ (dropAsterisk (c :: s) ++ closing) :=
        calc text = before ++ (mark ++ dropAsterisk (c :: s) ++ closing) := by rw [hText, hMark]
          _ = before ++ mark ++ (dropAsterisk (c :: s) ++ closing) := by simp only [List.append_assoc]
      have hStart : skipAsterisk (bytes text) (byteSize before) = byteSize (before ++ mark) := by
        have hSkip := skipAsterisk_bytes before c s
        have hLength' := length_bytes_closing hLine
        rw [← hBytes] at hSkip
        omega
      rw [spans_line hBound hNoPad (by rwa [hWidth]), hStart, slices_spansOfLine hLine]
      · rw [linesFrom_eq_of_line (by omega) (Bool.eq_false_iff.mpr hc) hEmpty]
      · intro before' rest hRest hLess
        have hLe := (suffix_dropAsterisk (c :: s)).length_le
        exact ih _ (by omega) false before' rest hRest rfl

end Lines

/-! ## Block comments -/

/-- Whether a text is a block comment. -/
structure IsBlock (text : List Char) : Prop where
  size : 4 ≤ byteSize text
  opens : ['/', '*'] <+: text
  closes : closing <:+ text

instance : DecidablePred IsBlock := fun text =>
  decidable_of_iff (4 ≤ byteSize text ∧ ['/', '*'] <+: text ∧ closing <:+ text)
    ⟨fun ⟨hSize, hOpens, hCloses⟩ => ⟨hSize, hOpens, hCloses⟩,
      fun h => ⟨h.size, h.opens, h.closes⟩⟩

/-- The offset behind the marker that a comment starts with. -/
def markerEnd (text : List Char) : Nat := ((marker? text).map fun m => byteSize m.1).getD 0

/-- What the lines of a block comment are copied from. -/
def blockSpans (text : List Char) : List Span := spans (bytes text) true (markerEnd text)

theorem exists_body {text : List Char} (h : IsBlock text) :
    ∃ body, text = '/' :: '*' :: (body ++ closing) := by
  obtain ⟨s, rfl⟩ := h.opens
  obtain ⟨front, hFront⟩ := h.closes
  match front, hFront with
  | [], hFront => exact absurd (List.cons.inj hFront).1 (by decide)
  | [_], hFront =>
    -- the asterisk would be that of both ends
    have hSize := h.size
    rw [← hFront, closing, List.singleton_append, Text.byteSize_cons] at hSize
    obtain rfl := (List.cons.inj hFront).1
    exact absurd hSize (by decide)
  | a :: b :: body, hFront =>
    obtain ⟨hFirst, hRest⟩ := List.cons.inj hFront
    obtain ⟨hSecond, hText⟩ := List.cons.inj hRest
    exact ⟨body, congrArg (fun s => '/' :: '*' :: s) hText.symm⟩

theorem opening_prefix (c : Char) (s : List Char) : opening c s <+: s := by
  cases s with
  | nil => exact List.nil_prefix
  | cons d s =>
    rw [opening]
    by_cases hMark : d = c ∨ d = '!'
    · rw [if_pos hMark, List.cons_prefix_cons]
      refine ⟨rfl, ?_⟩
      by_cases hHead : s.head? = some '<'
      · obtain ⟨t, rfl⟩ : ∃ t, s = '<' :: t := List.head?_eq_some_iff.mp hHead
        exact ⟨t, rfl⟩
      · rw [if_neg hHead]
        exact List.nil_prefix
    · rw [if_neg hMark]
      exact List.nil_prefix

theorem markerEnd_block (body : List Char) : markerEnd ('/' :: '*' :: (body ++ closing)) =
    byteSize ('/' :: '*' :: opening '*' (body ++ closing)) := by
  rw [markerEnd, marker?_opens (.inl rfl)]
  rfl

/-- The lines of a block comment are copied from it; where its marker and its end overlap there are
none. -/
theorem slices_blockSpans {text : List Char} (h : IsBlock text) : ∃ lines,
    read? text = some (lines, ownFlags text) ∧ slices text (blockSpans text) = lines.map some := by
  obtain ⟨body, rfl⟩ := exists_body h
  refine ⟨_, read?_block body, ?_⟩
  obtain ⟨rest, hRest⟩ := opening_prefix '*' (body ++ closing)
  rw [blockSpans, markerEnd_block]
  rcases Nat.lt_or_ge body.length (opening '*' (body ++ closing)).length with hOverlap | hApart
  · have hBehind : behindMarker body = [] := List.drop_eq_nil_of_le (Nat.le_of_lt hOverlap)
    have hInside : body <+: opening '*' (body ++ closing) :=
      List.prefix_of_prefix_length_le (List.prefix_append body closing) ⟨rest, hRest⟩
        (Nat.le_of_lt hOverlap)
    have hSize : byteSize body ≤ byteSize (opening '*' (body ++ closing)) := by
      obtain ⟨tail, hTail⟩ := hInside
      rw [← hTail, Text.byteSize_append]
      exact Nat.le_add_right _ _
    have hLength : (bytes ('/' :: '*' :: (body ++ closing))).length = 2 + (byteSize body + 2) :=
      @length_bytes_closing body ['/', '*'] _ rfl
    have hMarker : byteSize ('/' :: '*' :: opening '*' (body ++ closing)) =
        2 + byteSize (opening '*' (body ++ closing)) := Text.byteSize_append ['/', '*'] _
    rw [spans_of_le (by omega), hBehind]
    rfl
  · have hBody : body = opening '*' (body ++ closing) ++ behindMarker body := by
      have hPrefix : opening '*' (body ++ closing) <+: body :=
        List.prefix_of_prefix_length_le ⟨rest, hRest⟩ (List.prefix_append body closing) hApart
      exact (List.prefix_iff_eq_append.mp hPrefix).symm
    have hText : '/' :: '*' :: (body ++ closing) =
        '/' :: '*' :: opening '*' (body ++ closing) ++ (behindMarker body ++ closing) := by
      rw [List.cons_append, List.cons_append, ← List.append_assoc, ← hBody]
    exact slices_spans true _ _ hText

/-! ## Texts of comments -/

theorem isBlock_of_isClosed {text : List Char} (hOpens : ['/', '*'] <+: text)
    (hClosed : isClosed text = true) : IsBlock text := by
  rw [isClosed, Bool.and_eq_true, decide_eq_true_eq, List.isSuffixOf_iff_suffix] at hClosed
  exact ⟨hClosed.1, hOpens, hClosed.2⟩

theorem markers_opens : ∀ m ∈ markers,
    if m.2.contains .block = true then ['/', '*'] <+: m.1 else ['/', '/'] <+: m.1 := by
  decide

/-- What is no comment adds no line. -/
theorem contributed_of_not {t : Token} (hBlock : ¬ IsBlock t.text.toList)
    (hLine : ¬ ['/', '/'] <+: t.text.toList) : contributed t = [] := by
  have hNone : read? t.text.toList = none := by
    unfold read?
    cases hMarker : marker? t.text.toList with
    | none => rfl
    | some m =>
      have hPrefix : m.1 <+: t.text.toList := by
        have hFound := List.find?_some hMarker
        exact List.isPrefixOf_iff_prefix.mp hFound
      have hOpens := markers_opens m (List.mem_of_find?_eq_some hMarker)
      by_cases hStyle : m.2.contains .block = true
      · rw [if_pos hStyle] at hOpens
        have hOpen : ¬ isClosed t.text.toList = true :=
          fun hClosed => hBlock (isBlock_of_isClosed (hOpens.trans hPrefix) hClosed)
        exact (if_pos hStyle).trans (if_neg hOpen)
      · rw [if_neg hStyle] at hOpens
        exact absurd (hOpens.trans hPrefix) hLine
  rw [contributed, hNone]
  rfl

theorem addAll_fst (r : List (List Char) × Flags) (cs : List Token) :
    (addAll r cs).1 = r.1 ++ cs.flatMap contributed := by
  induction cs generalizing r with
  | nil => exact (List.append_nil _).symm
  | cons c cs ih =>
    have hHead : (add r.1 r.2 c.text.toList).1 = r.1 ++ contributed c := by
      unfold add contributed
      cases read? c.text.toList with
      | none => exact (List.append_nil _).symm
      | some x => rfl
    rw [addAll_cons, ih, hHead, List.append_assoc, List.flatMap_cons]

/-- Comments make up a text line by line, whatever they are. Those of a block comment are copied from
it one behind the other, and nothing is copied of the two bytes that close it. -/
theorem combine_copies (comments : List Token) :
    (combine comments).1 = "\n".intercalate ((comments.flatMap contributed).map String.ofList) ∧
    ∀ t ∈ comments,
      (IsBlock t.text.toList →
        Safe (markerEnd t.text.toList) (byteSize t.text.toList - 3) (blockSpans t.text.toList) ∧
        slices t.text.toList (blockSpans t.text.toList) = (contributed t).map some) ∧
      (¬ IsBlock t.text.toList → ¬ ['/', '/'] <+: t.text.toList → contributed t = []) := by
  refine ⟨?_, fun t _ => ⟨fun hBlock => ⟨?_, ?_⟩, contributed_of_not⟩⟩
  · have hLines := addAll_fst ([], {}) comments
    rw [List.nil_append] at hLines
    exact congrArg (fun lines => "\n".intercalate (lines.map String.ofList)) hLines
  · rw [← length_bytes]
    exact spans_safe _ _ _
  · obtain ⟨lines, hRead, hSlices⟩ := slices_blockSpans hBlock
    rw [hSlices, contributed, hRead]
    rfl

/-- Markers that overlap the end of their comment, and two lines with an end of two bytes. -/
theorem combine_copies_overlap :
    let token := fun text => Token.point .comment text ⟨1, 1⟩ 0
    let comments := [token "/**/", token "/*!*/", token "/** a\r\n  * bé*/"]
    (combine comments).1 = "a\nbé" ∧
      comments.map (fun t => (byteSize t.text.toList - 3, blockSpans t.text.toList)) =
        [(1, []), (2, []), (13, [⟨4, 4⟩, ⟨11, 13⟩])] ∧
      ∀ t ∈ comments, Safe (markerEnd t.text.toList) (byteSize t.text.toList - 3)
        (blockSpans t.text.toList) := by
  intro token comments
  have hBlock : ∀ t ∈ comments, IsBlock t.text.toList := by decide +kernel
  obtain ⟨hText, hSpans⟩ := combine_copies comments
  exact ⟨hText.trans (by decide +kernel), by decide +kernel,
    fun t ht => ((hSpans t ht).1 (hBlock t ht)).1⟩

end IdlReader.Comment
