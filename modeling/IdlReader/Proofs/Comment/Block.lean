import IdlReader.Proofs.Comment.Flags
import IdlReader.Proofs.Token.Lexeme
import Mathlib.Data.List.TakeWhile

/-!
# The lines of a block comment

A block comment is taken apart line by line. `linesFrom` collects the lines of what stands behind
its marker; each line loses its indentation, one asterisk, and the white space at its end.

* `linesFrom_line`, `linesFrom_last`: a line in front of its end, and the last one.
-/

namespace IdlReader.Comment

variable {c : Char} {s line rest : List Char} {first returns : Bool}

/-! ## Lines -/

theorem length_splitLine {content : List Char} {e : Char}
    (h : splitLine s = some (content, e, rest)) : content.length + rest.length < s.length := by
  fun_induction splitLine s generalizing content with
  | case1 => cases h
  | case2 s =>
    cases h
    simp
  | case3 s =>
    cases h
    simp only [List.length_cons, List.length_nil]
    omega
  | case4 c s _ _ ih =>
    obtain ⟨⟨content', e', rest'⟩, hs, hr⟩ := Option.map_eq_some_iff.mp h
    cases hr
    have hShorter := ih hs
    simp only [List.length_cons]
    omega

theorem splitLine_eq_none (h : '\n' ∉ s) : splitLine s = none := by
  fun_induction splitLine s with
  | case1 => rfl
  | case2 s => exact absurd List.mem_cons_self h
  | case3 s => exact absurd (List.mem_cons_of_mem _ List.mem_cons_self) h
  | case4 c s _ _ ih => rw [ih fun hMem => h (List.mem_cons_of_mem c hMem), Option.map_none]

theorem suffix_dropAsterisk (s : List Char) : dropAsterisk s <:+ s := by
  unfold dropAsterisk
  split
  · exact ⟨['*', ' '], rfl⟩
  · exact ⟨['*'], rfl⟩
  · exact List.suffix_refl _

theorem byteSize_le_of_suffix {t : List Char} (h : t <:+ s) : Text.byteSize t ≤ Text.byteSize s := by
  obtain ⟨u, rfl⟩ := h
  rw [Text.byteSize_append]
  omega

theorem length_le_byteSize (s : List Char) : s.length ≤ Text.byteSize s := by
  induction s with
  | nil => exact Nat.le_refl 0
  | cons c s ih =>
    have hChar := Char.utf8Size_pos c
    rw [List.length_cons, Text.byteSize_cons]
    omega

/-! ## Bodies -/

/-- A budget that exceeds the length of a body does not matter. -/
theorem blockLines_congr {n m : Nat} (hn : s.length < n) (hm : s.length < m) :
    blockLines n first s = blockLines m first s := by
  induction n generalizing m s first with
  | zero => omega
  | succ n ih =>
    obtain ⟨m, rfl⟩ : ∃ k, m = k + 1 := ⟨m - 1, by omega⟩
    cases s with
    | nil => rfl
    | cons c s =>
      simp only [List.length_cons] at hn hm
      have hTail : ∀ first, blockLines n first s = blockLines m first s :=
        fun first => ih (by omega) (by omega)
      have hDrop : blockLines n first (s.drop 1) = blockLines m first (s.drop 1) :=
        ih (by rw [List.length_drop]; omega) (by rw [List.length_drop]; omega)
      have hRest : ∀ {content : List Char} {e : Char} {rest : List Char},
          splitLine (dropAsterisk (c :: s)) = some (content, e, rest) →
          blockLines n false rest = blockLines m false rest := by
        intro content e rest hSplit
        have hShorter := length_splitLine hSplit
        have hLine := (suffix_dropAsterisk (c :: s)).length_le
        rw [List.length_cons] at hLine
        exact ih (by omega) (by omega)
      unfold blockLines
      dsimp only
      rw [hTail, hDrop]
      split
      · rfl
      · split
        · rfl
        · split
          · rfl
          · split
            · rename_i hSplit
              rw [hRest hSplit]
            · rename_i hSplit
              rw [hRest hSplit]
            · rfl

/-- The lines of what stands behind a marker; `first` says that no line was collected yet. -/
def linesFrom (first : Bool) (body : List Char) : List (List Char) :=
  blockLines (body.length + 1) first body

theorem linesFrom_of_lt (h : Text.byteSize s < 2) : linesFrom first s = [] := by
  unfold linesFrom blockLines
  exact if_pos h

theorem linesFrom_skip (hc : c = ' ' ∨ c = '\t' ∨ first = true ∧ c = '\n') :
    linesFrom first (c :: s) = linesFrom first s := by
  by_cases hSize : Text.byteSize (c :: s) < 2
  · rw [linesFrom_of_lt hSize,
      linesFrom_of_lt (Nat.lt_of_le_of_lt (byteSize_le_of_suffix (List.suffix_cons c s)) hSize)]
  · have hSkipped : (c = ' ' || c = '\t' || (first && c = '\n')) = true := by
      simpa [or_assoc] using hc
    rw [linesFrom, blockLines, if_neg hSize]
    exact if_pos hSkipped

theorem linesFrom_skip_return : linesFrom true ('\r' :: '\n' :: s) = linesFrom true s := by
  have hSize : ¬ Text.byteSize ('\r' :: '\n' :: s) < 2 := by
    have hLength := length_le_byteSize ('\r' :: '\n' :: s)
    simp only [List.length_cons] at hLength
    omega
  rw [linesFrom, blockLines, if_neg hSize]
  exact blockLines_congr (by rw [List.length_cons, List.length_cons]; exact Nat.lt_succ_of_lt (Nat.lt_succ_self _)) (Nat.lt_succ_self _)

section Line

variable (hSize : 2 ≤ Text.byteSize (c :: s)) (hPad : c ≠ ' ' ∧ c ≠ '\t')
  (hFirst : first = true → c ≠ '\n' ∧ (c = '\r' → s.head? ≠ some '\n'))

include hSize hPad hFirst

/-- Where a line starts neither padding nor the end of an empty first line is skipped. -/
theorem linesFrom_cons : linesFrom first (c :: s) =
    match splitLine (dropAsterisk (c :: s)) with
    | some ([], e, rest) => [e] :: blockLines (c :: s).length false rest
    | some (content, _, rest) => trimLine content :: blockLines (c :: s).length false rest
    | none =>
      if Text.byteSize (dropAsterisk (c :: s)) < 2 then [] else [trimLine (dropAsterisk (c :: s))] := by
  have hSkip : ¬ (c = ' ' || c = '\t' || (first && c = '\n')) = true := by
    cases first with
    | false => simp [hPad]
    | true => simp [hPad, (hFirst rfl).1]
  have hReturn : ¬ (first && c = '\r' && s.head? = some '\n') = true := by
    cases first with
    | false => simp
    | true => simpa using (hFirst rfl).2
  rw [linesFrom, blockLines, if_neg (by omega)]
  exact (if_neg hSkip).trans (if_neg hReturn)

theorem linesFrom_of_splitLine {content : List Char} {e : Char}
    (hSplit : splitLine (dropAsterisk (c :: s)) = some (content, e, rest)) :
    linesFrom first (c :: s) =
      (if content = [] then [e] else trimLine content) :: linesFrom false rest := by
  have hRest : blockLines (c :: s).length false rest = linesFrom false rest := by
    have hShorter := length_splitLine hSplit
    have hLine := (suffix_dropAsterisk (c :: s)).length_le
    exact blockLines_congr (by omega) (by omega)
  rw [linesFrom_cons hSize hPad hFirst, hSplit, ← hRest]
  cases content <;> rfl

theorem linesFrom_of_none (hSplit : splitLine (dropAsterisk (c :: s)) = none) :
    linesFrom first (c :: s) =
      if Text.byteSize (dropAsterisk (c :: s)) < 2 then [] else [trimLine (dropAsterisk (c :: s))] := by
  rw [linesFrom_cons hSize hPad hFirst, hSplit]

end Line

/-! ## One line -/

/-- Whether a character pads a line. -/
def isPad (c : Char) : Bool := c == ' ' || c == '\t'

/-- Whether nothing but padding is on a line. -/
def isEmptyLine (line : List Char) : Bool := line.all isPad

/-- What is on a line behind its padding and one asterisk with a space. -/
def core (line : List Char) : List Char := dropAsterisk (line.dropWhile isPad)

/-- The end of a line, with or without a carriage return. -/
def lineEnd (returns : Bool) : List Char := if returns then ['\r', '\n'] else ['\n']

/-- The first character of the end of a line. -/
def endMark (returns : Bool) : Char := if returns then '\r' else '\n'

/-- The line that is collected of a line in front of its end: where there is nothing on it, the first
character of the end. -/
def shown (returns : Bool) (line : List Char) : List Char :=
  if core line = [] then [endMark returns] else trimLine (core line)

/-- The lines that are collected of the last line: none unless two bytes are on it. -/
def shownLast (line : List Char) : List (List Char) :=
  if Text.byteSize (core line) < 2 then [] else [trimLine (core line)]

/-- Whether a text goes on over no end of a line. -/
def IsSingle (line : List Char) : Prop := '\n' ∉ line ∧ '\r' ∉ line

theorem IsSingle.of_suffix {t : List Char} (h : IsSingle line) (hSuffix : t <:+ line) : IsSingle t :=
  ⟨fun hMem => h.1 (hSuffix.subset hMem), fun hMem => h.2 (hSuffix.subset hMem)⟩

theorem linesFrom_dropWhile (s : List Char) : linesFrom first (s.dropWhile isPad) = linesFrom first s := by
  induction s with
  | nil => rfl
  | cons c s ih =>
    by_cases hc : isPad c = true
    · have hPad : c = ' ' ∨ c = '\t' := by simpa [isPad] using hc
      rw [List.dropWhile_cons_of_pos hc, ih, linesFrom_skip (hPad.imp_right .inl)]
    · rw [List.dropWhile_cons_of_neg hc]

theorem splitLine_lineEnd (h : IsSingle line) (returns : Bool) (s : List Char) :
    splitLine (line ++ (lineEnd returns ++ s)) = some (line, endMark returns, s) := by
  induction line with
  | nil => cases returns <;> rfl
  | cons c line ih =>
    obtain ⟨hFeed, hReturn⟩ := h
    rw [List.mem_cons, not_or] at hFeed hReturn
    rw [List.cons_append, splitLine, ih ⟨hFeed.2, hReturn.2⟩]
    · rfl
    · exact fun hc => hFeed.1 hc.symm
    · exact fun _ hc _ => hReturn.1 hc.symm

theorem dropAsterisk_of_ne (hc : c ≠ '*') (s : List Char) : dropAsterisk (c :: s) = c :: s := by
  unfold dropAsterisk
  split
  · rename_i hText
    exact absurd (List.cons.inj hText).1 hc
  · rename_i hText
    exact absurd (List.cons.inj hText).1 hc
  · rfl

theorem dropAsterisk_asterisk (hc : c ≠ ' ') (s : List Char) :
    dropAsterisk ('*' :: c :: s) = c :: s := by
  unfold dropAsterisk
  split
  · rename_i hText
    exact absurd (List.cons.inj (List.cons.inj hText).2).1 hc
  · rename_i hText
    exact (List.cons.inj hText).2.symm
  · rename_i hOther
    exact absurd rfl (hOther _)

/-- An asterisk and a space go from the front of a line whatever follows the line. -/
theorem dropAsterisk_lineEnd (line : List Char) (returns : Bool) (s : List Char) :
    dropAsterisk (line ++ (lineEnd returns ++ s)) = dropAsterisk line ++ (lineEnd returns ++ s) := by
  rcases line with _ | ⟨c, line⟩
  · cases returns <;> rfl
  · by_cases hc : c = '*'
    · subst hc
      rcases line with _ | ⟨d, line⟩
      · cases returns <;> rfl
      · by_cases hd : d = ' '
        · subst hd
          rfl
        · rw [List.cons_append, List.cons_append, dropAsterisk_asterisk hd,
            dropAsterisk_asterisk hd, List.cons_append]
    · rw [List.cons_append, dropAsterisk_of_ne hc, dropAsterisk_of_ne hc, List.cons_append]

theorem dropWhile_lineEnd (line : List Char) (returns : Bool) (s : List Char) :
    (line ++ (lineEnd returns ++ s)).dropWhile isPad =
      line.dropWhile isPad ++ (lineEnd returns ++ s) := by
  rw [List.dropWhile_append]
  split
  · rename_i hNone
    rw [List.isEmpty_iff.mp hNone]
    cases returns <;> rfl
  · rfl

theorem isEmptyLine_iff : isEmptyLine line = true ↔ line.dropWhile isPad = [] := by
  rw [isEmptyLine, List.all_eq_true, List.dropWhile_eq_nil_iff]

/-- An empty line in front of its end. -/
theorem linesFrom_lineEnd (s : List Char) :
    linesFrom first (lineEnd returns ++ s) =
      if first then linesFrom true s
      else if returns = false ∧ s = [] then []
      else [endMark returns] :: linesFrom false s := by
  -- behind the first line an end makes a line of its own, unless it is the last byte
  have hOwn : ∀ {c : Char} {t : List Char}, 2 ≤ (c :: t).length → c ≠ ' ' ∧ c ≠ '\t' →
      splitLine (dropAsterisk (c :: t)) = some ([], c, s) →
      linesFrom false (c :: t) = [c] :: linesFrom false s := by
    intro c t hLength hPad hSplit
    exact linesFrom_of_splitLine (Nat.le_trans hLength (length_le_byteSize _)) hPad
      (fun h => absurd h Bool.false_ne_true) hSplit
  cases first with
  | true =>
    cases returns with
    | false => exact linesFrom_skip (.inr (.inr ⟨rfl, rfl⟩))
    | true => exact linesFrom_skip_return
  | false =>
    cases returns with
    | false =>
      cases s with
      | nil => exact linesFrom_of_lt (by decide)
      | cons c s => exact hOwn (by simp) (by decide) rfl
    | true => exact hOwn (by simp) (by decide) rfl

/-- A line in front of its end. -/
theorem linesFrom_line (h : IsSingle line) (s : List Char) :
    linesFrom first (line ++ (lineEnd returns ++ s)) =
      if isEmptyLine line then
        if first then linesFrom true s
        else if returns = false ∧ s = [] then []
        else [endMark returns] :: linesFrom false s
      else shown returns line :: linesFrom false s := by
  have hSuffix : line.dropWhile isPad <:+ line := List.dropWhile_suffix _
  have hHead := List.head?_dropWhile_not isPad line
  rw [← linesFrom_dropWhile, dropWhile_lineEnd]
  cases hText : line.dropWhile isPad with
  | nil => rw [if_pos (isEmptyLine_iff.mpr hText), List.nil_append, linesFrom_lineEnd]
  | cons c rest =>
    have hNone : ¬ isEmptyLine line = true := by
      rw [isEmptyLine_iff, hText]
      exact List.cons_ne_nil _ _
    rw [hText] at hSuffix hHead
    have hSingle := h.of_suffix hSuffix
    have hPad : c ≠ ' ' ∧ c ≠ '\t' := by simpa [isPad] using hHead
    have hMark : c ≠ '\n' ∧ c ≠ '\r' :=
      ⟨fun hc => hSingle.1 (hc ▸ List.mem_cons_self), fun hc => hSingle.2 (hc ▸ List.mem_cons_self)⟩
    have hSize : 2 ≤ Text.byteSize (c :: (rest ++ (lineEnd returns ++ s))) := by
      have hLength := length_le_byteSize (c :: (rest ++ (lineEnd returns ++ s)))
      have hEnd : 1 ≤ (lineEnd returns).length := by cases returns <;> decide
      simp only [List.length_cons, List.length_append] at hLength
      omega
    have hSplit : splitLine (dropAsterisk (c :: rest ++ (lineEnd returns ++ s))) =
        some (core line, endMark returns, s) := by
      rw [dropAsterisk_lineEnd, core, hText]
      exact splitLine_lineEnd (hSingle.of_suffix (suffix_dropAsterisk _)) returns s
    rw [if_neg hNone]
    exact linesFrom_of_splitLine hSize hPad (fun _ => ⟨hMark.1, fun hc => absurd hc hMark.2⟩) hSplit

/-- The line that no other one follows. -/
theorem linesFrom_last (h : '\n' ∉ line) : linesFrom first line = shownLast line := by
  have hSuffix : line.dropWhile isPad <:+ line := List.dropWhile_suffix _
  have hHead := List.head?_dropWhile_not isPad line
  rw [← linesFrom_dropWhile, shownLast, core]
  cases hText : line.dropWhile isPad with
  | nil => rfl
  | cons c rest =>
    rw [hText] at hSuffix hHead
    have hFeed : '\n' ∉ c :: rest := fun hMem => h (hSuffix.subset hMem)
    have hCore : dropAsterisk (c :: rest) <:+ c :: rest := suffix_dropAsterisk _
    by_cases hSize : Text.byteSize (c :: rest) < 2
    · rw [linesFrom_of_lt hSize,
        if_pos (Nat.lt_of_le_of_lt (byteSize_le_of_suffix hCore) hSize)]
    · have hPad : c ≠ ' ' ∧ c ≠ '\t' := by simpa [isPad] using hHead
      have hNext : rest.head? ≠ some '\n' :=
        fun hNext => hFeed (List.mem_cons_of_mem c (List.mem_of_head? hNext))
      exact linesFrom_of_none (by omega) hPad
        (fun _ => ⟨fun hc => hFeed (hc ▸ List.mem_cons_self), fun _ => hNext⟩)
        (splitLine_eq_none fun hMem => hFeed (hCore.subset hMem))

/-! ## One line between the markers -/

theorem dropTrailing_append_of {f : Char → Bool} {s q : List Char} (hq : ∀ c ∈ q, f c = true)
    (hs : ∀ c ∈ s.getLast?, f c = false) : Text.dropTrailing f (s ++ q) = s := by
  have hReverse : ∀ c ∈ q.reverse, f c = true := fun c hc => hq c (List.mem_reverse.mp hc)
  rw [Text.dropTrailing, List.reverse_append, List.dropWhile_append_of_pos hReverse]
  cases hText : s.reverse with
  | nil => exact (List.reverse_eq_nil_iff.mp hText).symm
  | cons c t =>
    rw [← List.head?_reverse, hText] at hs
    have hc : ¬ f c = true := Bool.eq_false_iff.mp (hs c rfl)
    rw [List.dropWhile_cons_of_neg hc, ← hText, List.reverse_reverse]

theorem isAsciiBlank_of_isPad (h : isPad c = true) : isAsciiBlank c = true := by
  rcases (by simpa [isPad] using h : c = ' ' ∨ c = '\t') with rfl | rfl <;> rfl

/-- White space goes from the end of a line that does not end in it otherwise. -/
theorem trimLine_append_of {text q : List Char} (hText : text ≠ [])
    (hq : ∀ c ∈ q, isAsciiBlank c = true) (hLast : ∀ c ∈ text.getLast?, isAsciiBlank c = false) :
    trimLine (text ++ q) = text := by
  obtain ⟨c, s, rfl⟩ := List.exists_cons_of_ne_nil hText
  rw [List.cons_append, trimLine, dropTrailing_append_of hq]
  intro d hd
  refine hLast d ?_
  cases s with
  | nil => cases hd
  | cons e s => rwa [List.getLast?_cons_cons]

theorem opening_of_ne (hc : c ≠ '*' ∧ c ≠ '!') (s : List Char) : opening '*' (c :: s) = [] := by
  rw [opening, if_neg (not_or.mpr hc)]

theorem ownFlags_of_ne (hc : c ≠ '*' ∧ c ≠ '!') (s : List Char) :
    ownFlags ('/' :: '*' :: c :: s) = .block := by
  have hStar : ('*' == c) = false := beq_false_of_ne hc.1.symm
  have hMark : ('!' == c) = false := beq_false_of_ne hc.2.symm
  simp [ownFlags, isLine, isJavadoc, isQt, isTrailing, startsWithAny, List.isPrefixOf, hStar, hMark]
  rfl

/-- A block comment whose marker has two characters. -/
theorem read?_of_ne (hc : c ≠ '*' ∧ c ≠ '!') (s : List Char) :
    read? ('/' :: '*' :: (c :: s ++ ['*', '/'])) =
      some (linesFrom true (c :: s), .block) := by
  have hBehind : behindMarker (c :: s) = c :: s := by
    rw [behindMarker, List.cons_append, opening_of_ne hc]
    rfl
  rw [read?_block, hBehind, List.cons_append, ownFlags_of_ne hc]
  rfl

/-- Padding in front of a text does not belong to the marker. -/
theorem read?_padded {p : List Char} (hp : ∀ d ∈ p, isPad d = true) (hc : c ≠ '*' ∧ c ≠ '!')
    (s : List Char) : read? ('/' :: '*' :: (p ++ c :: s ++ ['*', '/'])) =
      some (linesFrom true (p ++ c :: s), .block) := by
  cases p with
  | nil => exact read?_of_ne hc s
  | cons d p =>
    refine read?_of_ne ?_ (p ++ c :: s)
    rcases (by simpa [isPad] using hp d List.mem_cons_self : d = ' ' ∨ d = '\t') with rfl | rfl <;>
      decide

theorem core_padded {p : List Char} (hp : ∀ d ∈ p, isPad d = true) (hc : isPad c = false)
    (hMark : c ≠ '*') (s : List Char) : core (p ++ c :: s) = c :: s := by
  rw [core, List.dropWhile_append_of_pos hp, List.dropWhile_cons_of_neg (Bool.eq_false_iff.mp hc),
    dropAsterisk_of_ne hMark]

theorem not_mem_of_isPad {p : List Char} (hp : ∀ d ∈ p, isPad d = true) : '\n' ∉ p :=
  fun hMem => absurd (hp '\n' hMem) (by decide)

theorem byteSize_lt_two_iff {text : List Char} (hText : text ≠ []) (q : List Char) :
    Text.byteSize (text ++ q) < 2 ↔ q = [] ∧ Text.byteSize text = 1 := by
  have hSome := length_le_byteSize text
  have hLength := List.length_pos_iff.mpr hText
  rw [Text.byteSize_append]
  cases q with
  | nil => simp; omega
  | cons c q =>
    have hChar := length_le_byteSize (c :: q)
    rw [List.length_cons] at hChar
    simp only [List.cons_ne_nil, false_and, iff_false]
    omega

/-- A block comment on one line keeps its text, except that a text of one byte with nothing between
it and the end of the comment is lost. -/
theorem combine_block_line {t : Token} {p text q : List Char}
    (hToken : t.text.toList = '/' :: '*' :: (p ++ text ++ q ++ ['*', '/']))
    (hp : ∀ c ∈ p, isPad c = true) (hq : ∀ c ∈ q, isPad c = true) (hText : text ≠ [])
    (hLine : '\n' ∉ text)
    (hFirst : ∀ c ∈ text.head?, isAsciiBlank c = false ∧ c ≠ '*' ∧ c ≠ '!')
    (hLast : ∀ c ∈ text.getLast?, isAsciiBlank c = false) :
    combine [t] = (if q = [] ∧ Text.byteSize text = 1 then "" else String.ofList text,
      .block) := by
  have hFeed : '\n' ∉ p ++ (text ++ q) := by
    simp [not_mem_of_isPad hp, not_mem_of_isPad hq, hLine]
  have hBlank : ∀ d ∈ q, isAsciiBlank d = true := fun d hd => isAsciiBlank_of_isPad (hq d hd)
  have hTrim : trimLine (text ++ q) = text := trimLine_append_of hText hBlank hLast
  have hSize := byteSize_lt_two_iff hText q
  obtain ⟨c, s, rfl⟩ := List.exists_cons_of_ne_nil hText
  obtain ⟨hBlank, hMark⟩ := hFirst c rfl
  have hNoPad : isPad c = false :=
    Bool.eq_false_iff.mpr fun hPad => Bool.eq_false_iff.mp hBlank (isAsciiBlank_of_isPad hPad)
  have hLines : linesFrom true (p ++ (c :: s ++ q)) =
      if q = [] ∧ Text.byteSize (c :: s) = 1 then [] else [c :: s] := by
    rw [linesFrom_last hFeed, shownLast, List.cons_append, core_padded hp hNoPad hMark.1,
      ← List.cons_append, hTrim]
    simp only [hSize]
  have hRead : read? t.text.toList = some (linesFrom true (p ++ (c :: s ++ q)),
      .block) := by
    rw [hToken, List.append_assoc p]
    exact read?_padded hp hMark (s ++ q)
  rw [combine_singleton hRead, hLines]
  split <;> rfl

/-- A text of two bytes and one of one byte with a blank behind it are kept. -/
theorem combine_block_line_short :
    let token := fun text => Token.point .comment text ⟨1, 1⟩ 0
    combine [token "/*\té*/"] = ("é", .block) ∧
      combine [token "/*x */"] = ("x", .block) := by
  intro token
  have hAccent := combine_block_line (t := token "/*\té*/") (p := ['\t']) (q := [])
    (by decide +kernel) (List.forall_mem_singleton.mpr rfl) (List.forall_mem_nil _)
    (List.cons_ne_nil 'é' []) (by decide) (by rintro _ ⟨⟩; decide) (by rintro _ ⟨⟩; decide)
  have hBlank := combine_block_line (t := token "/*x */") (p := []) (q := [' '])
    (by decide +kernel) (List.forall_mem_nil _) (List.forall_mem_singleton.mpr rfl)
    (List.cons_ne_nil 'x' []) (by decide) (by rintro _ ⟨⟩; decide) (by rintro _ ⟨⟩; decide)
  exact ⟨hAccent, hBlank⟩

/-- A text of one byte in front of the end of its comment is lost. -/
theorem combine_block_line_lost :
    combine [Token.point .comment "/*x*/" ⟨1, 1⟩ 0] = ("", .block) := by
  decide +kernel

end IdlReader.Comment
