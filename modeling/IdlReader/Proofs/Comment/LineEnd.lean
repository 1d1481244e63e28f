import IdlReader.Proofs.Comment.Block
import Mathlib.Data.List.Basic

/-!
# Block comments with one kind of line ends or the other

The lines of a block comment are separated by line feeds or by carriage returns with line feeds. The
text that is collected is the same for both as long as something is on every line between the first
and the last one. A line with nothing on it is collected as the first character of its end: it makes
two empty lines of the one kind and a line with a carriage return of the other.

* `linesFrom_intercalate`, `linesFrom_intercalate_first`: the lines of a body.
* `combine_line_ends`: the lines, the flags and the text of a comment with either kind of ends.
-/

namespace IdlReader.Comment

variable {first returns : Bool} {line last : List Char} {lines : List (List Char)}

/-! ## Lines of a body -/

/-- The lines in front of the last one of which something is collected behind the first one. If the
last line is empty, an empty line in front of it is a line feed without anything else and is left
out. -/
def reached (returns : Bool) (lines : List (List Char)) (last : List Char) : List (List Char) :=
  if returns = false ∧ last = [] ∧ lines.getLast?.any isEmptyLine = true then lines.dropLast
  else lines

theorem reached_cons (h : isEmptyLine line = true → returns = false → last = [] → lines ≠ []) :
    reached returns (line :: lines) last = line :: reached returns lines last := by
  unfold reached
  cases lines with
  | nil =>
    rw [if_neg, if_neg]
    · simp
    · rintro ⟨hEnd, hLast, hEmpty⟩
      exact h (by simpa using hEmpty) hEnd hLast rfl
  | cons line' lines =>
    rw [List.getLast?_cons_cons]
    split <;> rfl

theorem reached_subset : reached returns lines last ⊆ lines := by
  unfold reached
  split
  · exact List.dropLast_subset lines
  · exact List.Subset.refl lines

/-- Where no line is empty every one is reached. -/
theorem reached_of_forall (h : ∀ line ∈ lines, ¬ isEmptyLine line = true) :
    reached returns lines last = lines := by
  refine if_neg ?_
  rintro ⟨-, -, hEmpty⟩
  obtain ⟨line, hLine, hTrue⟩ := (Option.any_eq_true _ _).mp hEmpty
  exact h line (List.mem_of_getLast? hLine) hTrue

theorem reached_returns : reached true lines last = lines := if_neg nofun

theorem intercalate_eq_nil {e : List Char} (he : e ≠ []) :
    e.intercalate (lines ++ [last]) = [] ↔ lines = [] ∧ last = [] := by
  cases lines with
  | nil => simp
  | cons line lines =>
    rw [List.cons_append, List.intercalate_cons_of_ne_nil (by simp)]
    simp [he]

theorem shown_of_isEmptyLine (h : isEmptyLine line = true) :
    shown returns line = [endMark returns] := by
  rw [shown, core, isEmptyLine_iff.mp h]
  rfl

/-- Behind the first line that is collected. -/
theorem linesFrom_intercalate (h : ∀ line ∈ lines, IsSingle line) (hLast : '\n' ∉ last) :
    linesFrom false ((lineEnd returns).intercalate (lines ++ [last])) =
      (reached returns lines last).map (shown returns) ++ shownLast last := by
  induction lines with
  | nil =>
    have hNone : reached returns [] last = [] := List.subset_nil.mp reached_subset
    rw [hNone, List.nil_append, List.intercalate_singleton, linesFrom_last hLast]
    rfl
  | cons line lines ih =>
    rw [List.forall_mem_cons] at h
    have hEnd : lineEnd returns ≠ [] := by cases returns <;> decide
    rw [List.cons_append, List.intercalate_cons_of_ne_nil (by simp), List.append_assoc,
      linesFrom_line h.1, ih h.2]
    simp only [intercalate_eq_nil hEnd]
    by_cases hEmpty : isEmptyLine line = true
    · rw [if_pos hEmpty, if_neg (by decide)]
      by_cases hOver : returns = false ∧ lines = [] ∧ last = []
      · obtain ⟨rfl, rfl, rfl⟩ := hOver
        have hNone : reached false [line] [] = [] := if_pos ⟨rfl, rfl, by simpa using hEmpty⟩
        rw [if_pos ⟨rfl, rfl, rfl⟩, hNone]
        rfl
      · rw [if_neg hOver, reached_cons, List.map_cons, shown_of_isEmptyLine hEmpty]
        · rfl
        · exact fun _ hReturns hNone hLines => hOver ⟨hReturns, hLines, hNone⟩
    · rw [if_neg hEmpty, reached_cons fun hTrue => absurd hTrue hEmpty]
      rfl

/-- Empty lines in front of the first one that is collected are left out. -/
theorem linesFrom_intercalate_first (h : ∀ line ∈ lines, IsSingle line) (hLast : '\n' ∉ last) :
    linesFrom true ((lineEnd returns).intercalate (lines ++ [last])) =
      (reached returns (lines.dropWhile isEmptyLine) last).map (shown returns) ++ shownLast last := by
  induction lines with
  | nil =>
    have hNone : reached returns [] last = [] := List.subset_nil.mp reached_subset
    rw [List.dropWhile_nil, hNone, List.nil_append, List.intercalate_singleton, linesFrom_last hLast]
    rfl
  | cons line lines ih =>
    rw [List.forall_mem_cons] at h
    rw [List.cons_append, List.intercalate_cons_of_ne_nil (by simp), List.append_assoc,
      linesFrom_line h.1]
    by_cases hEmpty : isEmptyLine line = true
    · rw [if_pos hEmpty, if_pos rfl, ih h.2, List.dropWhile_cons_of_pos hEmpty]
    · rw [if_neg hEmpty, linesFrom_intercalate h.2 hLast, List.dropWhile_cons_of_neg hEmpty,
        reached_cons fun hTrue => absurd hTrue hEmpty]
      rfl

/-! ## Comments -/

/-- A block comment with certain lines between its first two characters and its last two. -/
def written (returns : Bool) (lines : List (List Char)) : List Char :=
  '/' :: '*' :: ((lineEnd returns).intercalate lines ++ ['*', '/'])

/-- The lines behind the marker, to which the first characters of the first line may belong. -/
def linesBehind : List (List Char) → List (List Char)
  | [] => []
  | line :: lines => line.drop (opening '*' line).length :: lines

theorem length_opening_le (c : Char) (s : List Char) : (opening c s).length ≤ s.length := by
  rcases s with _ | ⟨d, _ | ⟨e, s⟩⟩
  · exact Nat.le_refl 0
  · rw [opening]
    split <;> simp
  · rw [opening]
    split
    · split <;> simp
    · simp

/-- No more than the first line tells the marker. -/
theorem opening_append {s : List Char}
    (hs : ∀ c ∈ s.head?, c ≠ '<' ∧ (line = [] → c ≠ '*' ∧ c ≠ '!')) :
    opening '*' (line ++ s) = opening '*' line := by
  rcases line with _ | ⟨c, _ | ⟨d, line⟩⟩
  · cases s with
    | nil => rfl
    | cons c s => exact opening_of_ne ((hs c rfl).2 rfl) s
  · have hNext : s.head? ≠ some '<' := fun hNext => (hs '<' hNext).1 rfl
    simp [opening, hNext]
  · rfl

theorem head?_lineEnd (returns : Bool) (s : List Char) :
    ∀ c ∈ (lineEnd returns ++ s).head?, c ≠ '<' ∧ c ≠ '*' ∧ c ≠ '!' := by
  cases returns <;>
  · rintro _ ⟨⟩
    decide

theorem behindMarker_intercalate (lines : List (List Char)) :
    behindMarker ((lineEnd returns).intercalate lines) =
      (lineEnd returns).intercalate (linesBehind lines) := by
  rcases lines with _ | ⟨line, _ | ⟨line', lines⟩⟩
  · rfl
  · simp only [linesBehind, List.intercalate_singleton, behindMarker]
    cases line with
    | nil => rfl
    | cons c line =>
      rw [opening_append]
      rintro _ ⟨⟩
      exact ⟨by decide, fun hNil => absurd hNil (List.cons_ne_nil c line)⟩
  · rw [linesBehind, List.intercalate_cons_cons, List.intercalate_cons_cons, behindMarker]
    simp only [List.append_assoc]
    rw [opening_append fun c hc =>
      (head?_lineEnd returns _ c hc).imp_right fun hMark _ => hMark]
    exact List.drop_append_of_le_length (length_opening_le '*' line)

theorem ownFlags_lineEnd (line : List Char) (returns : Bool) (s : List Char) :
    ownFlags ('/' :: '*' :: (line ++ (lineEnd returns ++ s))) =
      ownFlags ('/' :: '*' :: (line ++ ['\n'])) := by
  rcases line with _ | ⟨c, _ | ⟨d, line⟩⟩
  · cases returns <;> rfl
  · cases returns <;> simp [ownFlags, isLine, isJavadoc, isQt, isTrailing, startsWithAny,
      List.isPrefixOf, lineEnd]
  · simp [ownFlags, isLine, isJavadoc, isQt, isTrailing, startsWithAny, List.isPrefixOf]

/-- The ends of the lines have no part in the flags. -/
theorem ownFlags_written (lines : List (List Char)) :
    ownFlags (written true lines) = ownFlags (written false lines) := by
  rcases lines with _ | ⟨line, _ | ⟨line', lines⟩⟩
  · rfl
  · simp only [written, List.intercalate_singleton]
  · simp only [written, List.intercalate_cons_cons, List.append_assoc]
    rw [ownFlags_lineEnd, ownFlags_lineEnd]

theorem isSingle_linesBehind (h : ∀ line ∈ lines, IsSingle line) :
    ∀ line ∈ linesBehind lines, IsSingle line := by
  cases lines with
  | nil => exact nofun
  | cons line lines =>
    rw [List.forall_mem_cons] at h
    exact List.forall_mem_cons.mpr ⟨h.1.of_suffix (List.drop_suffix _ _), h.2⟩

section Written

variable {t : Token} (ht : t.text.toList = written returns lines)

include ht

theorem read?_written : read? t.text.toList =
    some (linesFrom true ((lineEnd returns).intercalate (linesBehind lines)),
      ownFlags (written returns lines)) := by
  rw [ht, written, read?_block, behindMarker_intercalate]
  rfl

theorem combine_written : combine [t] =
    ("\n".intercalate ((contributed t).map String.ofList), ownFlags (written returns lines)) := by
  rw [combine_singleton (read?_written ht), contributed, read?_written ht]
  rfl

theorem contributed_written (hLines : ∀ line ∈ lines, IsSingle line) :
    contributed t =
      (reached returns ((linesBehind lines).dropLast.dropWhile isEmptyLine)
        ((linesBehind lines).getLast?.getD [])).map (shown returns) ++
      shownLast ((linesBehind lines).getLast?.getD []) := by
  have hBehind := isSingle_linesBehind hLines
  rw [contributed, read?_written ht]
  change linesFrom true _ = _
  revert hBehind
  generalize linesBehind lines = body
  intro hBehind
  rcases List.eq_nil_or_concat' body with rfl | ⟨lines, last, rfl⟩
  · rw [List.intercalate_nil, linesFrom_of_lt (by decide)]
    cases returns <;> rfl
  · rw [List.forall_mem_append, List.forall_mem_singleton] at hBehind
    rw [List.dropLast_concat, List.getLast?_concat]
    exact linesFrom_intercalate_first hBehind.1 hBehind.2.1

end Written

/-! ## Texts -/

theorem trimLine_subset (s : List Char) : trimLine s ⊆ s := by
  cases s with
  | nil => exact List.Subset.refl []
  | cons c s =>
    refine List.cons_subset_cons c fun d hd => ?_
    rw [← Lexeme.dropTrailing_append isAsciiBlank s]
    exact List.mem_append_left _ hd

theorem IsSingle.core (h : IsSingle line) : IsSingle (trimLine (core line)) := by
  have hCore : Comment.core line <:+ line :=
    (suffix_dropAsterisk _).trans (List.dropWhile_suffix _)
  have hSubset : trimLine (Comment.core line) ⊆ line :=
    List.Subset.trans (trimLine_subset _) hCore.subset
  exact ⟨fun hMem => h.1 (hSubset hMem), fun hMem => h.2 (hSubset hMem)⟩

theorem mem_shownLast {x : List Char} (h : x ∈ shownLast line) : x = trimLine (core line) := by
  unfold shownLast at h
  split at h
  · cases h
  · exact List.mem_singleton.mp h

/-- A character of joined texts is one of a text or of what joins them. -/
theorem mem_intercalate {c : Char} {e : List Char} {texts : List (List Char)} (hc : c ∉ e) :
    c ∈ e.intercalate texts ↔ ∃ s ∈ texts, c ∈ s := by
  induction texts with
  | nil => simp
  | cons s texts ih =>
    cases texts with
    | nil => simp
    | cons s' texts =>
      rw [List.intercalate_cons_cons, List.mem_append, List.mem_append, ih]
      simp [hc]

theorem toList_intercalate_ofList (texts : List (List Char)) :
    ("\n".intercalate (texts.map String.ofList)).toList = ['\n'].intercalate texts := by
  rw [String.toList_intercalate, List.map_map]
  congr 1
  simp [Function.comp_def]

/-! ### What is collected -/

theorem core_of_isEmptyLine (h : isEmptyLine line = true) : core line = [] := by
  rw [core, isEmptyLine_iff.mp h]
  rfl

theorem shown_of_ne (h : core line ≠ []) : shown returns line = trimLine (core line) := if_neg h

theorem isSingle_shownLast (h : IsSingle line) : ∀ x ∈ shownLast line, IsSingle x := by
  intro x hx
  rw [mem_shownLast hx]
  exact h.core

/-- Without a carriage return in the ends of the lines there is none in what is collected. -/
theorem not_mem_shown (h : IsSingle line) : '\r' ∉ shown false line := by
  by_cases hCore : core line = []
  · rw [shown, if_pos hCore]
    decide
  · rw [shown_of_ne hCore]
    exact h.core.2

section Collected

variable {inner : List (List Char)}

theorem isSingle_map_shown (h : ∀ line ∈ inner, IsSingle line) (hCore : ∀ line ∈ inner, core line ≠ []) :
    ∀ x ∈ inner.map (shown returns), IsSingle x := by
  intro x hx
  obtain ⟨line, hLine, rfl⟩ := List.mem_map.mp hx
  rw [shown_of_ne (hCore line hLine)]
  exact (h line hLine).core

theorem map_shown_congr (hCore : ∀ line ∈ inner, core line ≠ []) :
    (reached false inner last).map (shown false) = inner.map (shown true) := by
  rw [reached_of_forall fun line hLine hEmpty => hCore line hLine (core_of_isEmptyLine hEmpty)]
  refine List.map_congr_left fun line hLine => ?_
  rw [shown_of_ne (hCore line hLine), shown_of_ne (hCore line hLine)]

theorem return_mem_map_shown (h : ¬ ∀ line ∈ inner, core line ≠ []) :
    ['\r'] ∈ inner.map (shown true) := by
  push Not at h
  obtain ⟨line, hLine, hCore⟩ := h
  exact List.mem_map.mpr ⟨line, hLine, if_pos hCore⟩

end Collected

/-- Both kinds of line ends lead to the same flags. They lead to the same text, and all lines that
are collected go on over no end of a line, exactly if something is on every line between the first
one that is collected and the last one. A line with nothing on it is collected as one line, the first
character of its end. -/
theorem combine_line_ends {t u : Token} (hLines : ∀ line ∈ lines, IsSingle line)
    (ht : t.text.toList = written false lines) (hu : u.text.toList = written true lines) :
    let inner := (linesBehind lines).dropLast.dropWhile isEmptyLine
    let last := (linesBehind lines).getLast?.getD []
    contributed t = (reached false inner last).map (shown false) ++ shownLast last ∧
    contributed u = inner.map (shown true) ++ shownLast last ∧
    (combine [u]).2 = (combine [t]).2 ∧
    ((combine [u]).1 = (combine [t]).1 ↔ ∀ line ∈ inner, core line ≠ []) ∧
    ((∀ line ∈ contributed t ++ contributed u, IsSingle line) ↔ ∀ line ∈ inner, core line ≠ []) := by
  intro inner last
  have hFeed : contributed t = (reached false inner last).map (shown false) ++ shownLast last :=
    contributed_written ht hLines
  have hReturn : contributed u = inner.map (shown true) ++ shownLast last := by
    rw [contributed_written hu hLines, reached_returns]
  have hBehind := isSingle_linesBehind hLines
  have hInner : ∀ line ∈ inner, IsSingle line := fun line hLine =>
    hBehind line (List.dropLast_subset _ ((List.dropWhile_suffix _).subset hLine))
  have hLast : IsSingle last := by
    cases hSome : (linesBehind lines).getLast? with
    | none => simp [last, hSome, IsSingle]
    | some line => simpa [last, hSome] using hBehind line (List.mem_of_getLast? hSome)
  -- a line without anything on it shows its carriage return, and without returns there is none
  have hShows : (¬ ∀ line ∈ inner, core line ≠ []) → ['\r'] ∈ contributed u := by
    intro h
    rw [hReturn]
    exact List.mem_append_left _ (return_mem_map_shown h)
  have hNone : ∀ x ∈ contributed t, '\r' ∉ x := by
    intro x hx
    rw [hFeed] at hx
    rcases List.mem_append.mp hx with hx | hx
    · obtain ⟨line, hLine, rfl⟩ := List.mem_map.mp hx
      exact not_mem_shown (hInner line (reached_subset hLine))
    · exact (isSingle_shownLast hLast x hx).2
  have hSame : (∀ line ∈ inner, core line ≠ []) → contributed t = contributed u := by
    intro h
    rw [hFeed, hReturn, map_shown_congr h]
  refine ⟨hFeed, hReturn, ?_, ⟨fun hText => ?_, fun h => ?_⟩, ⟨fun hSingle => ?_, fun h => ?_⟩⟩
  · rw [combine_written ht, combine_written hu, ownFlags_written]
  · by_contra h
    have hMem : '\r' ∈ (combine [u]).1.toList := by
      rw [combine_written hu, toList_intercalate_ofList, mem_intercalate (by decide)]
      exact ⟨['\r'], hShows h, List.mem_singleton_self _⟩
    rw [hText, combine_written ht, toList_intercalate_ofList, mem_intercalate (by decide)] at hMem
    obtain ⟨x, hx, hChar⟩ := hMem
    exact hNone x hx hChar
  · rw [combine_written ht, combine_written hu, hSame h]
  · by_contra h
    exact (hSingle ['\r'] (List.mem_append_right _ (hShows h))).2 (List.mem_singleton_self _)
  · rw [hSame h, hReturn]
    intro x hx
    rw [List.mem_append, or_self, List.mem_append] at hx
    exact hx.elim (isSingle_map_shown hInner h x) (isSingle_shownLast hLast x)

/-- An asterisk alone and an empty line are nothing but the ends of their lines. -/
theorem combine_line_ends_blank :
    let token := fun text => Token.point .comment text ⟨1, 1⟩ 0
    (combine [token "/** a\r\n *\r\n\r\nb */"]).1 ≠ (combine [token "/** a\n *\n\nb */"]).1 ∧
      contributed (token "/** a\n *\n\nbc */") = [['a'], ['\n'], ['\n'], ['b', 'c']] := by
  intro token
  have hLines : ∀ line ∈ [['*', ' ', 'a'], [' ', '*'], [], ['b', ' ']], IsSingle line := by
    unfold IsSingle
    decide
  obtain ⟨-, -, -, hText, -⟩ := combine_line_ends (t := token "/** a\n *\n\nb */")
    (u := token "/** a\r\n *\r\n\r\nb */") hLines (by decide +kernel) (by decide +kernel)
  refine ⟨fun hSame => ?_, by decide +kernel⟩
  exact absurd (hText.mp hSame) (by decide)

/-- One empty line between two others is read as two of them, or as a carriage return. -/
theorem combine_line_ends_differ :
    let token := fun text => Token.point .comment text ⟨1, 1⟩ 0
    (combine [token "/* a\n\nbc */"]).1 = "a\n\n\nbc" ∧
      (combine [token "/* a\r\n\r\nbc */"]).1 = "a\n\r\nbc" := by
  decide +kernel

end IdlReader.Comment
