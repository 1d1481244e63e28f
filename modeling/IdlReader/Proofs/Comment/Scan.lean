import Mathlib.Data.List.GetD
import IdlReader.Proofs.Comment.Block
import IdlReader.Proofs.Text.Offset
import IdlReader.Proofs.Token.Tiling

/-!
# Scanning the bytes of a comment

The lines of a block comment can be copied from its bytes without taking its text apart: an offset
goes over the bytes, and each line is what stands between the offsets of two bytes. The bounds are
counted from the end of the comment, so that the two bytes that close it are never reached.

The offset meets the same line ends, padding and asterisks as one takes from the characters of the
comment: a byte inside of a character is none of a character of ASCII.

* `scanLine_safe`: what one line copies and where the next one starts.
* `spans_safe`: all lines lie in front of the end of their comment, one behind the other.
* `skipPad_bytes`, `skipAsterisk_bytes`, `endWidth_bytes`: one step over the bytes.
* `scanLine_bytes`: one line, of which a part was gone over.
-/

/-! ## Bounds of lines -/

namespace IdlReader.Comment

/-! ## Offsets -/

/-- What a line is copied from: the offsets of its first and of its last byte. -/
structure Span where
  start : Nat
  stop : Nat
deriving DecidableEq, Repr

/-- The byte at an offset; zero behind the last one. -/
def byteAt (b : List UInt8) (pos : Nat) : UInt8 := b.getD pos 0

/-- Whether a byte pads a line. -/
def isPadByte (x : UInt8) : Bool := x == ' '.toUInt8 || x == '\t'.toUInt8

/-- White space of ASCII. -/
def isBlankByte (x : UInt8) : Bool :=
  isPadByte x || x == '\n'.toUInt8 || x == '\r'.toUInt8 || x == '\x0c'.toUInt8

variable {b : List UInt8} {pos start stop : Nat} {initial : Bool}

theorem lt_length_of_isPadByte (h : isPadByte (byteAt b pos) = true) : pos < b.length := by
  by_contra hEnd
  rw [byteAt, List.getD_eq_getElem?_getD, List.getElem?_eq_none (Nat.le_of_not_lt hEnd)] at h
  exact absurd h (by decide)

/-- The offset behind the padding at `pos`. -/
def skipPad (b : List UInt8) (pos : Nat) : Nat :=
  if h : isPadByte (byteAt b pos) = true then
    have hPos : pos < b.length := lt_length_of_isPadByte h
    skipPad b (pos + 1)
  else pos
termination_by b.length - pos

/-- The offset behind an asterisk at `pos` and one space behind it. -/
def skipAsterisk (b : List UInt8) (pos : Nat) : Nat :=
  if byteAt b pos = '*'.toUInt8 then
    if byteAt b (pos + 1) = ' '.toUInt8 then pos + 2 else pos + 1
  else pos

/-- The number of bytes of the end of a line at `pos`; none where no line ends. -/
def endWidth (b : List UInt8) (pos : Nat) : Nat :=
  if byteAt b pos = '\n'.toUInt8 then 1
  else if byteAt b pos = '\r'.toUInt8 ∧ byteAt b (pos + 1) = '\n'.toUInt8 then 2
  else 0

/-- Goes over the line from `start` on, of which `stop` is the last byte up to `pos` that is no
white space. The result is the last byte to copy, unless there is nothing to copy, and the offset of
the next line. -/
def scanLine (b : List UInt8) (start stop pos : Nat) : Option Nat × Nat :=
  if endWidth b pos ≠ 0 then (some stop, pos + endWidth b pos)
  else if b.length - 3 ≤ pos then (if pos = start then none else some stop, pos)
  else scanLine b start (if isBlankByte (byteAt b (pos + 1)) then stop else pos + 1) (pos + 1)
termination_by b.length - pos

theorem le_skipPad (b : List UInt8) (pos : Nat) : pos ≤ skipPad b pos := by
  fun_induction skipPad b pos with
  | case1 pos _ _ ih => exact Nat.le_of_succ_le ih
  | case2 pos _ => exact Nat.le_refl pos

theorem skipPad_eq (b : List UInt8) (pos : Nat) :
    skipPad b pos = if isPadByte (byteAt b pos) = true then skipPad b (pos + 1) else pos := by
  rw [skipPad]
  exact dite_eq_ite

theorem lt_skipPad (h : isPadByte (byteAt b pos) = true) : pos < skipPad b pos := by
  rw [skipPad_eq, if_pos h]
  exact le_skipPad b (pos + 1)

theorem skipAsterisk_bounds (b : List UInt8) (pos : Nat) :
    pos ≤ skipAsterisk b pos ∧ skipAsterisk b pos ≤ pos + 2 := by
  unfold skipAsterisk
  split
  · split <;> omega
  · omega

theorem le_scanLine (b : List UInt8) (start stop pos : Nat) : pos ≤ (scanLine b start stop pos).2 := by
  fun_induction scanLine b start stop pos with
  | case1 => exact Nat.le_add_right _ _
  | case2 => exact Nat.le_refl _
  | case3 stop pos _ _ ih => exact Nat.le_of_succ_le ih

/-- A line that starts in front of the bound is gone over. -/
theorem lt_scanLine (h : pos < b.length - 3) : pos < (scanLine b start stop pos).2 := by
  rw [scanLine]
  split
  · rename_i hEnd
    exact Nat.lt_add_of_pos_right (Nat.pos_of_ne_zero hEnd)
  · rw [if_neg (Nat.not_le_of_lt h)]
    exact le_scanLine _ _ _ _

/-- What the lines from `pos` on are copied from; `initial` says that there was no line yet. -/
def spans (b : List UInt8) (initial : Bool) (pos : Nat) : List Span :=
  if _hBound : pos < b.length - 3 then
    if _hPad : isPadByte (byteAt b pos) = true then spans b initial (skipPad b pos)
    else if _hEmpty : initial = true ∧ endWidth b pos ≠ 0 then spans b initial (pos + endWidth b pos)
    else
      let start := skipAsterisk b pos
      if start = b.length - 2 then []
      else
        let line := scanLine b start start start
        (line.1.map fun stop => ⟨start, stop⟩).toList ++ spans b false line.2
  else []
termination_by b.length - pos
decreasing_by
  · have hSkip := lt_skipPad _hPad
    omega
  · omega
  · have hStart := skipAsterisk_bounds b pos
    by_cases hLine : skipAsterisk b pos < b.length - 3
    · have hScan : skipAsterisk b pos <
          (scanLine b (skipAsterisk b pos) (skipAsterisk b pos) (skipAsterisk b pos)).2 :=
        lt_scanLine hLine
      omega
    · have hScan := le_scanLine b (skipAsterisk b pos) (skipAsterisk b pos) (skipAsterisk b pos)
      omega

/-! ## Bounds -/

/-- A line that starts in front of the last two bytes is copied from bytes in front of these, and the
next line starts behind what is copied, unless there is none. -/
theorem scanLine_safe {next : Nat} (hStart : start ≤ stop) (hStop : stop ≤ pos)
    (hPos : pos ≤ b.length - 3) {last : Nat} (h : scanLine b start stop pos = (some last, next)) :
    start ≤ last ∧ last ≤ b.length - 3 ∧ (last < next ∨ b.length - 3 ≤ next) := by
  fun_induction scanLine b start stop pos with
  | case1 stop pos hEnd =>
    obtain ⟨hLast, hNext⟩ := Prod.mk.inj h
    cases hLast
    omega
  | case2 stop pos _ hBound =>
    obtain ⟨hLast, hNext⟩ := Prod.mk.inj h
    rw [Option.ite_none_left_eq_some] at hLast
    obtain ⟨-, hLast⟩ := hLast
    cases hLast
    omega
  | case3 stop pos _ hBound ih =>
    refine ih ?_ ?_ (by omega) h <;> split <;> omega

/-- Whether lines are copied from bytes between two offsets, one line behind the other. -/
structure Safe (first last : Nat) (spans : List Span) : Prop where
  within : ∀ r ∈ spans, first ≤ r.start ∧ r.start ≤ r.stop ∧ r.stop ≤ last
  ordered : spans.Pairwise fun r s => r.stop < s.start

theorem Safe.nil (first last : Nat) : Safe first last [] := ⟨List.forall_mem_nil _, List.Pairwise.nil⟩

theorem Safe.mono {first first' last : Nat} {spans : List Span} (h : Safe first last spans)
    (hFirst : first' ≤ first) : Safe first' last spans :=
  ⟨fun r hr => ⟨Nat.le_trans hFirst (h.within r hr).1, (h.within r hr).2⟩, h.ordered⟩

theorem Safe.cons {first next last : Nat} {r : Span} {spans : List Span} (h : Safe next last spans)
    (hFirst : first ≤ r.start) (hSpan : r.start ≤ r.stop) (hLast : r.stop ≤ last)
    (hNext : r.stop < next) : Safe first last (r :: spans) := by
  refine ⟨List.forall_mem_cons.mpr ⟨⟨hFirst, hSpan, hLast⟩, fun s hs => ?_⟩,
    List.pairwise_cons.mpr ⟨fun s hs => Nat.lt_of_lt_of_le hNext (h.within s hs).1, h.ordered⟩⟩
  obtain ⟨hStart, hRest⟩ := h.within s hs
  exact ⟨by omega, hRest⟩

/-! ### Steps -/

theorem spans_of_le (h : b.length - 3 ≤ pos) : spans b initial pos = [] := by
  rw [spans, dif_neg (Nat.not_lt_of_le h)]

theorem spans_pad (hBound : pos < b.length - 3) (hPad : isPadByte (byteAt b pos) = true) :
    spans b initial pos = spans b initial (skipPad b pos) := by
  rw [spans, dif_pos hBound, dif_pos hPad]

theorem spans_empty (hBound : pos < b.length - 3) (hPad : ¬ isPadByte (byteAt b pos) = true)
    (hEnd : endWidth b pos ≠ 0) : spans b true pos = spans b true (pos + endWidth b pos) := by
  rw [spans, dif_pos hBound, dif_neg hPad, dif_pos ⟨rfl, hEnd⟩]

/-- What is copied of the line at `start` and of those behind it. -/
def spansOfLine (b : List UInt8) (start : Nat) : List Span :=
  if start = b.length - 2 then []
  else
    let line := scanLine b start start start
    (line.1.map fun stop => ⟨start, stop⟩).toList ++ spans b false line.2

theorem spans_line (hBound : pos < b.length - 3) (hPad : ¬ isPadByte (byteAt b pos) = true)
    (hEnd : ¬ (initial = true ∧ endWidth b pos ≠ 0)) :
    spans b initial pos = spansOfLine b (skipAsterisk b pos) := by
  rw [spans, dif_pos hBound, dif_neg hPad, dif_neg hEnd]
  rfl

/-- Whatever bytes a comment has and wherever its lines start, these are copied from bytes in front
of the last two, and in their order. -/
theorem spans_safe (b : List UInt8) (initial : Bool) (pos : Nat) :
    Safe pos (b.length - 3) (spans b initial pos) := by
  fun_induction spans b initial pos with
  | case1 initial pos _ _ ih => exact ih.mono (le_skipPad b pos)
  | case2 initial pos _ _ _ ih => exact ih.mono (Nat.le_add_right _ _)
  | case3 => exact Safe.nil _ _
  | case4 initial pos hBound _ _ start hLine line ih =>
    have hStart : pos ≤ start ∧ start ≤ pos + 2 := skipAsterisk_bounds b pos
    have hNext : start ≤ line.2 := le_scanLine b start start start
    cases hLast : line.1 with
    | none => exact ih.mono (Nat.le_trans hStart.1 hNext)
    | some stop =>
      obtain ⟨hSpan, hStop, hBehind⟩ := scanLine_safe (Nat.le_refl start) (Nat.le_refl start)
        (by omega) (Prod.ext hLast rfl : line = (some stop, line.2))
      rcases Nat.lt_or_ge stop line.2 with hOrder | hOrder
      · exact ih.cons hStart.1 hSpan hStop hOrder
      · -- only the last line may start where the bound is
        have hNone : spans b false line.2 = [] := spans_of_le (by omega)
        rw [hNone]
        exact (Safe.nil (stop + 1) _).cons hStart.1 hSpan hStop (Nat.lt_succ_self stop)
  | case5 => exact Safe.nil _ _

end IdlReader.Comment

/-! ## Bytes beside characters -/

namespace IdlReader.Comment

open Text (bytes byteSize charBytes charBytes_of_ascii le_of_mem_charBytes length_bytes toUInt8_inj
  toUInt8_toNat)

variable {c a : Char} {s u before : List Char}

/-! ## Bytes of characters -/

/-- A byte of a character stands where the bytes before the character end. -/
theorem byteAt_bytes (before : List Char) (c : Char) (s : List Char) {i : Nat} (hi : i < c.utf8Size) :
    byteAt (bytes (before ++ c :: s)) (byteSize before + i) = (charBytes c).getD i 0 := by
  have hLength : i < (charBytes c).length := by rwa [charBytes, String.length_utf8EncodeChar]
  have hSplit : bytes (before ++ c :: s) = bytes before ++ (charBytes c ++ bytes s) :=
    List.flatMap_append
  rw [byteAt, hSplit, List.getD_append_right _ _ _ _ (by rw [length_bytes]; omega), length_bytes,
    Nat.add_sub_cancel_left, List.getD_append _ _ _ _ hLength]

/-- A byte inside of a character is none of a character of ASCII. -/
theorem byteAt_inner (ha : a.toNat ≤ 127) {i : Nat} (hi : i < c.utf8Size) (hc : ¬ c.toNat ≤ 127) :
    byteAt (bytes (before ++ c :: s)) (byteSize before + i) ≠ a.toUInt8 := by
  intro h
  rw [byteAt_bytes before c s hi] at h
  have hLength : i < (charBytes c).length := by rwa [charBytes, String.length_utf8EncodeChar]
  rw [List.getD_eq_getElem _ _ hLength] at h
  have hHigh := le_of_mem_charBytes (Nat.lt_of_not_le hc) (List.getElem_mem hLength)
  rw [h, toUInt8_toNat ha] at hHigh
  omega

/-- A character of ASCII is told by the first byte of a character. -/
theorem byteAt_eq_iff (ha : a.toNat ≤ 127) :
    byteAt (bytes (before ++ c :: s)) (byteSize before) = a.toUInt8 ↔ c = a := by
  have hPos := Char.utf8Size_pos c
  by_cases hc : c.toNat ≤ 127
  · have hByte := byteAt_bytes before c s hPos
    rw [Nat.add_zero, charBytes_of_ascii hc] at hByte
    rw [hByte]
    exact ⟨toUInt8_inj hc ha, fun h => congrArg Char.toUInt8 h⟩
  · have hOther : byteAt (bytes (before ++ c :: s)) (byteSize before) ≠ a.toUInt8 :=
      byteAt_inner (i := 0) ha hPos hc
    exact ⟨fun h => absurd h hOther, fun h => absurd (h ▸ ha) hc⟩

theorem isPadByte_byteAt :
    isPadByte (byteAt (bytes (before ++ c :: s)) (byteSize before)) = isPad c := by
  rw [Bool.eq_iff_iff, isPadByte, isPad]
  simp only [Bool.or_eq_true, beq_iff_eq]
  rw [byteAt_eq_iff (by decide), byteAt_eq_iff (by decide)]

theorem isBlankByte_byteAt :
    isBlankByte (byteAt (bytes (before ++ c :: s)) (byteSize before)) = isAsciiBlank c := by
  rw [Bool.eq_iff_iff, isBlankByte, isPadByte, isAsciiBlank]
  simp only [Bool.or_eq_true, beq_iff_eq]
  rw [byteAt_eq_iff (by decide), byteAt_eq_iff (by decide), byteAt_eq_iff (by decide),
    byteAt_eq_iff (by decide), byteAt_eq_iff (by decide)]

/-! ## Steps over characters -/

/-- What stands at the end of a block comment. -/
def closing : List Char := ['*', '/']

theorem byteSize_concat (s : List Char) (c : Char) : byteSize (s ++ [c]) = byteSize s + c.utf8Size := by
  rw [Text.byteSize_append]
  rfl

theorem exists_append_closing (s : List Char) : ∃ c t, s ++ closing = c :: t ∧
    ∀ a : Char, a ≠ '*' → (c = a ↔ s.head? = some a) := by
  cases s with
  | nil => exact ⟨'*', ['/'], rfl, fun a ha => ⟨fun h => absurd h.symm ha, fun h => by cases h⟩⟩
  | cons c s => exact ⟨c, s ++ closing, rfl, fun a _ => by rw [List.head?_cons, Option.some_inj]⟩

/-- A character of ASCII behind another one, or the end of the comment. -/
theorem byteAt_next_iff (ha : a.toNat ≤ 127) (hStar : a ≠ '*') :
    byteAt (bytes (before ++ c :: (s ++ closing))) (byteSize before + c.utf8Size) = a.toUInt8 ↔
      s.head? = some a := by
  obtain ⟨d, t, hNext, hHead⟩ := exists_append_closing s
  rw [hNext, ← byteSize_concat, List.append_cons, byteAt_eq_iff ha, hHead a hStar]

/-- The number of bytes of the end of a line at a character. -/
def endSize (c : Char) (s : List Char) : Nat :=
  if c = '\n' then 1 else if c = '\r' ∧ s.head? = some '\n' then 2 else 0

theorem endWidth_bytes (before : List Char) (c : Char) (s : List Char) :
    endWidth (bytes (before ++ c :: (s ++ closing))) (byteSize before) = endSize c s := by
  have hFeed : byteAt (bytes (before ++ c :: (s ++ closing))) (byteSize before) = '\n'.toUInt8 ↔
      c = '\n' := byteAt_eq_iff (by decide)
  have hReturn : (byteAt (bytes (before ++ c :: (s ++ closing))) (byteSize before) = '\r'.toUInt8 ∧
      byteAt (bytes (before ++ c :: (s ++ closing))) (byteSize before + 1) = '\n'.toUInt8) ↔
        c = '\r' ∧ s.head? = some '\n' := by
    rw [byteAt_eq_iff (by decide)]
    refine and_congr_right fun hc => ?_
    subst hc
    exact byteAt_next_iff (by decide) (by decide)
  rw [endWidth, endSize]
  simp only [hFeed, hReturn]

theorem skipAsterisk_bytes (before : List Char) (c : Char) (s : List Char) :
    skipAsterisk (bytes (before ++ c :: (s ++ closing))) (byteSize before) +
      byteSize (dropAsterisk (c :: s)) = byteSize before + byteSize (c :: s) := by
  have hStar : byteAt (bytes (before ++ c :: (s ++ closing))) (byteSize before) = '*'.toUInt8 ↔
      c = '*' := byteAt_eq_iff (by decide)
  rw [skipAsterisk]
  simp only [hStar]
  by_cases hc : c = '*'
  · subst hc
    have hSpace : byteAt (bytes (before ++ '*' :: (s ++ closing))) (byteSize before + 1) = ' '.toUInt8 ↔
        s.head? = some ' ' := byteAt_next_iff (by decide) (by decide)
    simp only [hSpace]
    rcases s with _ | ⟨d, s⟩
    · rfl
    · by_cases hd : d = ' '
      · subst hd
        rw [if_pos trivial, if_pos List.head?_cons]
        change byteSize before + 2 + byteSize s = byteSize before + (1 + (1 + byteSize s))
        omega
      · have hHead : ¬ (d :: s).head? = some ' ' := fun h => hd (Option.some.inj h)
        rw [if_pos trivial, if_neg hHead, dropAsterisk_asterisk hd]
        exact Nat.add_assoc _ 1 _
  · rw [if_neg hc, dropAsterisk_of_ne hc]

theorem skipPad_bytes (before s : List Char) :
    skipPad (bytes (before ++ (s ++ closing))) (byteSize before) =
      byteSize (before ++ s.takeWhile isPad) := by
  induction s generalizing before with
  | nil =>
    have hPad : ¬ isPadByte (byteAt (bytes (before ++ '*' :: ['/'])) (byteSize before)) = true := by
      rw [isPadByte_byteAt]
      decide
    rw [skipPad_eq, List.takeWhile_nil, List.append_nil]
    exact if_neg hPad
  | cons c s ih =>
    have hPad : isPadByte (byteAt (bytes (before ++ c :: (s ++ closing))) (byteSize before)) = isPad c :=
      isPadByte_byteAt
    rw [List.cons_append, skipPad_eq, hPad]
    by_cases hc : isPad c = true
    · have hSize : byteSize before + 1 = byteSize (before ++ [c]) := by
        rw [byteSize_concat]
        rcases (by simpa [isPad] using hc : c = ' ' ∨ c = '\t') with rfl | rfl <;> rfl
      rw [if_pos hc, hSize, List.append_cons, ih, List.takeWhile_cons_of_pos hc,
        List.append_assoc]
      rfl
    · rw [if_neg hc, List.takeWhile_cons_of_neg hc, List.append_nil]

/-! ## One line -/

theorem utf8Size_of_isAsciiBlank (h : isAsciiBlank c = true) : c.utf8Size = 1 := by
  simp only [isAsciiBlank, Bool.or_eq_true, beq_iff_eq] at h
  rcases h with (((rfl | rfl) | rfl) | rfl) | rfl <;> rfl

theorem dropTrailing_concat (f : Char → Bool) (s : List Char) (c : Char) :
    Text.dropTrailing f (s ++ [c]) = if f c then Text.dropTrailing f s else s ++ [c] := by
  rw [Text.dropTrailing, List.reverse_append, List.reverse_singleton, List.singleton_append,
    List.dropWhile_cons]
  split
  · rfl
  · rw [List.reverse_cons, List.reverse_reverse]

/-- The last byte to copy of a line that starts at an offset. -/
def stopOf (start : Nat) (line : List Char) : Nat := start + (byteSize (trimLine line) - 1)

theorem stopOf_concat (start : Nat) (u : List Char) (c : Char) : stopOf start (u ++ [c]) =
    if isAsciiBlank c then stopOf start u else start + (byteSize u + c.utf8Size - 1) := by
  rcases u with _ | ⟨d, u⟩
  · have hSingle : stopOf start [c] = start + (c.utf8Size - 1) := rfl
    rw [List.nil_append, hSingle]
    split
    · rename_i hBlank
      rw [utf8Size_of_isAsciiBlank hBlank]
      rfl
    · rw [Text.byteSize_nil, Nat.zero_add]
  · have hTrim : trimLine (d :: u ++ [c]) =
        if isAsciiBlank c then trimLine (d :: u) else d :: u ++ [c] := by
      rw [List.cons_append, trimLine, dropTrailing_concat]
      split <;> rfl
    rw [stopOf, hTrim]
    split
    · rfl
    · rw [byteSize_concat]

/-- The bytes of one character that ends no line. -/
theorem scanLine_inner {b : List UInt8} {start stop pos k : Nat}
    (hEnd : ∀ i < k, endWidth b (pos + i) = 0) (hBound : pos + k ≤ b.length - 3)
    (hSolid : ∀ i < k, isBlankByte (byteAt b (pos + (i + 1))) = false) :
    scanLine b start stop pos = scanLine b start (if k = 0 then stop else pos + k) (pos + k) := by
  induction k with
  | zero => rfl
  | succ k ih =>
    have hFirst := ih (fun i hi => hEnd i (Nat.lt_succ_of_lt hi)) (by omega)
      (fun i hi => hSolid i (Nat.lt_succ_of_lt hi))
    rw [hFirst, scanLine, if_neg (not_not.mpr (hEnd k (Nat.lt_succ_self k))), if_neg (by omega),
      Nat.add_assoc, hSolid k (Nat.lt_succ_self k)]
    rfl

section Character

variable {b : List UInt8} {start stop : Nat}
  (hb : b = bytes (before ++ c :: (s ++ closing))) (hEnd : endSize c s = 0)

include hb hEnd

theorem endWidth_inner {i : Nat} (hi : i < c.utf8Size) : endWidth b (byteSize before + i) = 0 := by
  subst hb
  by_cases hc : c.toNat ≤ 127
  · have hSize : c.utf8Size = 1 := by
      rw [← String.length_utf8EncodeChar, ← charBytes, charBytes_of_ascii hc, List.length_singleton]
    have hFirst : i = 0 := by omega
    rw [hFirst, Nat.add_zero, endWidth_bytes, hEnd]
  · rw [endWidth, if_neg (byteAt_inner (by decide) hi hc), if_neg fun h =>
      byteAt_inner (by decide) hi hc h.1]

/-- From the first byte of a character to its last one. -/
theorem scanLine_char : scanLine b start stop (byteSize before) =
    scanLine b start (if c.utf8Size = 1 then stop else byteSize before + (c.utf8Size - 1))
      (byteSize before + (c.utf8Size - 1)) := by
  have hPos := Char.utf8Size_pos c
  have hLength : b.length = byteSize before + (c.utf8Size + (byteSize s + 2)) := by
    rw [hb, length_bytes, Text.byteSize_append, Text.byteSize_cons, Text.byteSize_append]
    rfl
  have hSolid : ∀ i < c.utf8Size - 1, isBlankByte (byteAt b (byteSize before + (i + 1))) = false := by
    intro i hi
    have hc : ¬ c.toNat ≤ 127 := by
      intro hc
      rw [← String.length_utf8EncodeChar, ← charBytes, charBytes_of_ascii hc] at hi
      exact absurd hi (Nat.not_lt_zero i)
    have hInner : i + 1 < c.utf8Size := by omega
    rw [hb, isBlankByte, isPadByte]
    simp only [Bool.or_eq_false_iff, beq_eq_false_iff_ne]
    exact ⟨⟨⟨⟨byteAt_inner (by decide) hInner hc, byteAt_inner (by decide) hInner hc⟩,
      byteAt_inner (by decide) hInner hc⟩, byteAt_inner (by decide) hInner hc⟩,
      byteAt_inner (by decide) hInner hc⟩
  have hSize : c.utf8Size - 1 = 0 ↔ c.utf8Size = 1 := by omega
  rw [scanLine_inner (k := c.utf8Size - 1) (fun i hi => endWidth_inner hb hEnd (by omega))
    (by omega) hSolid]
  simp only [hSize]

/-- Behind a character that ends no line there is nothing more on the last line, or the next
character. -/
theorem scanLine_step : scanLine b start stop (byteSize before) =
    match s with
    | [] => (if byteSize before + (c.utf8Size - 1) = start then none else
        some (if c.utf8Size = 1 then stop else byteSize before + (c.utf8Size - 1)), b.length - 3)
    | d :: _ => scanLine b start
        (if isAsciiBlank d then
          if c.utf8Size = 1 then stop else byteSize before + (c.utf8Size - 1)
        else byteSize (before ++ [c])) (byteSize (before ++ [c])) := by
  have hPos := Char.utf8Size_pos c
  have hLength : b.length = byteSize before + (c.utf8Size + (byteSize s + 2)) := by
    rw [hb, length_bytes, Text.byteSize_append, Text.byteSize_cons, Text.byteSize_append]
    rfl
  have hNext : byteSize before + (c.utf8Size - 1) + 1 = byteSize (before ++ [c]) := by
    rw [byteSize_concat]
    omega
  rw [scanLine_char hb hEnd, scanLine, if_neg (not_not.mpr (endWidth_inner hb hEnd (by omega)))]
  rcases s with _ | ⟨d, s⟩
  · have hLast : b.length - 3 = byteSize before + (c.utf8Size - 1) := by
      rw [hLength, Text.byteSize_nil]
      omega
    rw [hLast, if_pos (Nat.le_refl _)]
  · have hMore : ¬ b.length - 3 ≤ byteSize before + (c.utf8Size - 1) := by
      have hSize := Char.utf8Size_pos d
      rw [Text.byteSize_cons] at hLength
      omega
    have hBlank : isBlankByte (byteAt b (byteSize (before ++ [c]))) = isAsciiBlank d := by
      rw [hb, List.cons_append, List.append_cons, isBlankByte_byteAt]
    rw [if_neg hMore, hNext, hBlank]

end Character

theorem splitLine_of_end (h : endSize c s ≠ 0) : ∃ e rest, splitLine (c :: s) = some ([], e, rest) ∧
    isAsciiBlank c = true ∧ (e = c ∧ c.utf8Size = 1) ∧ endSize c s + byteSize rest = byteSize (c :: s) := by
  unfold endSize at h ⊢
  split at h
  · rename_i hFeed
    subst hFeed
    exact ⟨'\n', s, rfl, rfl, ⟨rfl, rfl⟩, by rw [if_pos rfl]; rfl⟩
  · split at h
    · rename_i _ hReturn
      obtain ⟨rfl, hHead⟩ := hReturn
      obtain ⟨t, rfl⟩ : ∃ t, s = '\n' :: t := List.head?_eq_some_iff.mp hHead
      refine ⟨'\r', t, rfl, rfl, ⟨rfl, rfl⟩, ?_⟩
      rw [if_neg (by decide), if_pos ⟨rfl, hHead⟩]
      change 2 + byteSize t = 1 + (1 + byteSize t)
      omega
    · exact absurd rfl h

theorem splitLine_of_not_end (h : endSize c s = 0) :
    splitLine (c :: s) = (splitLine s).map fun r => (c :: r.1, r.2) := by
  have hFeed : c ≠ '\n' := by
    rintro rfl
    exact absurd h Nat.one_ne_zero
  have hReturn : ∀ t, c = '\r' → s = '\n' :: t → False := by
    rintro t rfl rfl
    exact absurd h (Nat.succ_ne_zero 1)
  rw [splitLine]
  · exact fun hc => hFeed hc
  · exact hReturn

/-- The last byte to copy of a line of which `u` and the first byte of a character were gone over. -/
def stopAt (start : Nat) (u : List Char) (c : Char) : Nat :=
  if isAsciiBlank c then stopOf start u else start + byteSize u

/-- What scanning a line gives of which `u` was gone over, where `s` is left in front of the end of a
comment of `total` bytes. -/
def scanned (total start : Nat) (u s : List Char) : Option Nat × Nat :=
  match splitLine s with
  | some (content, _, rest) => (some (stopOf start (u ++ content)), total - 2 - byteSize rest)
  | none => (if byteSize (u ++ s) < 2 then none else some (stopOf start (u ++ s)), total - 3)

/-- Behind a character the last byte to copy is that of what was gone over. -/
theorem stopAt_char (start : Nat) (u : List Char) (c : Char) :
    (if c.utf8Size = 1 then stopAt start u c else start + byteSize u + (c.utf8Size - 1)) =
      stopOf start (u ++ [c]) := by
  have hPos := Char.utf8Size_pos c
  rw [stopOf_concat, stopAt]
  by_cases hBlank : isAsciiBlank c = true
  · rw [if_pos (utf8Size_of_isAsciiBlank hBlank), if_pos hBlank, if_pos hBlank]
  · rw [if_neg hBlank, if_neg hBlank]
    split <;> omega

section Scan

variable {b : List UInt8} (hb : b = bytes (before ++ (u ++ c :: (s ++ closing))))

include hb

theorem scanLine_of_end (hEnd : endSize c s ≠ 0) :
    scanLine b (byteSize before) (stopAt (byteSize before) u c) (byteSize (before ++ u)) =
      scanned b.length (byteSize before) u (c :: s) := by
  have hText : b = bytes (before ++ u ++ c :: (s ++ closing)) := by rw [hb, List.append_assoc]
  obtain ⟨e, rest, hSplit, hBlank, -, hSize⟩ := splitLine_of_end hEnd
  have hWidth : endWidth b (byteSize (before ++ u)) = endSize c s := by rw [hText, endWidth_bytes]
  have hLength : b.length = byteSize (before ++ u) + (byteSize (c :: s) + 2) := by
    rw [hText, length_bytes, Text.byteSize_append, ← List.cons_append, Text.byteSize_append _ closing]
    rfl
  have hNext : byteSize (before ++ u) + endSize c s = b.length - 2 - byteSize rest := by omega
  rw [scanLine, hWidth, if_pos hEnd, scanned, hSplit, stopAt, if_pos hBlank, hNext]
  dsimp only
  rw [List.append_nil]

theorem scanLine_of_not_end (hEnd : endSize c s = 0) :
    scanLine b (byteSize before) (stopAt (byteSize before) u c) (byteSize (before ++ u)) =
      match s with
      | [] => scanned b.length (byteSize before) u [c]
      | d :: _ => scanLine b (byteSize before) (stopAt (byteSize before) (u ++ [c]) d)
          (byteSize (before ++ (u ++ [c]))) := by
  have hText : b = bytes (before ++ u ++ c :: (s ++ closing)) := by rw [hb, List.append_assoc]
  have hPos := Char.utf8Size_pos c
  rw [scanLine_step hText hEnd, Text.byteSize_append, stopAt_char]
  rcases s with _ | ⟨d, s⟩
  · have hSize : byteSize before + byteSize u + (c.utf8Size - 1) = byteSize before ↔
        byteSize (u ++ [c]) < 2 := by
      rw [byteSize_concat]
      omega
    simp only [hSize, scanned, splitLine_of_not_end hEnd]
    rfl
  · dsimp only [stopAt]
    rw [List.append_assoc, Text.byteSize_append before (u ++ [c])]

end Scan

/-- What is scanned of a line behind the part `u` of it. -/
theorem scanLine_bytes {b : List UInt8} (before u : List Char) (c : Char) (s : List Char)
    (hb : b = bytes (before ++ (u ++ c :: (s ++ closing)))) :
    scanLine b (byteSize before) (stopAt (byteSize before) u c) (byteSize (before ++ u)) =
      scanned b.length (byteSize before) u (c :: s) := by
  induction s generalizing u c with
  | nil =>
    by_cases hEnd : endSize c [] = 0
    · exact scanLine_of_not_end hb hEnd
    · exact scanLine_of_end hb hEnd
  | cons d s ih =>
    by_cases hEnd : endSize c (d :: s) = 0
    · have hRest := ih (u ++ [c]) d
        (hb.trans (by rw [List.append_assoc, List.cons_append, List.singleton_append]))
      rw [scanLine_of_not_end hb hEnd]
      refine hRest.trans ?_
      rw [scanned, scanned, splitLine_of_not_end hEnd]
      cases splitLine (d :: s) with
      | none => rw [Option.map_none, List.append_assoc, List.singleton_append]
      | some r =>
        rw [Option.map_some]
        dsimp only
        rw [List.append_assoc, List.singleton_append]
    · exact scanLine_of_end hb hEnd

end IdlReader.Comment
