import IdlReader.Proofs.Token.Line

/-!
# Byte offsets

A cursor goes over the bytes of a text one by one, also over those inside of a character. The line
and the column that it knows of are those of its byte offset: as many line feeds as lie in front of
it, and as many bytes as lie behind the last of these.

* `Text.getElem_charBytes_eq_lineFeed`, `Text.eq_zero_of_drop_bytes`: what bytes tell of characters.
* `Cursor.StandsIn.bump`, `Cursor.standsIn_ofOffset`: a cursor that moves over one byte, and over many.
* `Cursor.moveOver_eq_bumpMany`: to move over characters is to move over their bytes.
* `Cursor.StandsIn.rest_of_bytesAhead`: the text that is left.
-/

/-! ## Bytes of characters -/

namespace IdlReader.Text

variable {a c : Char} {s t : List Char}

theorem charBytes_of_ascii (h : c.toNat ≤ 127) : charBytes c = [c.toUInt8] := by
  have hSize : c.utf8Size = 1 := Char.utf8Size_eq_one_iff.mpr (by simpa [UInt32.le_iff_toNat_le] using h)
  exact String.utf8EncodeChar_eq_singleton hSize

/-- No byte of a character outside of ASCII is one of a character in it. -/
theorem le_of_mem_charBytes (h : 127 < c.toNat) {x : UInt8} (hx : x ∈ charBytes c) : 128 ≤ x.toNat := by
  have hAscii : ¬ c.val.toNat ≤ 127 := Nat.not_le_of_lt h
  have hByte : ∀ n, 128 ≤ n → n < 256 → 128 ≤ (UInt8.ofNat n).toNat := by
    intro n hLow hHigh
    rwa [UInt8.toNat_ofNat', Nat.mod_eq_of_lt hHigh]
  simp only [charBytes, String.utf8EncodeChar, if_neg hAscii] at hx
  split at hx
  · simp only [List.mem_cons, List.not_mem_nil, or_false] at hx
    rcases hx with rfl | rfl <;> exact hByte _ (by omega) (by omega)
  · split at hx
    · simp only [List.mem_cons, List.not_mem_nil, or_false] at hx
      rcases hx with rfl | rfl | rfl <;> exact hByte _ (by omega) (by omega)
    · simp only [List.mem_cons, List.not_mem_nil, or_false] at hx
      rcases hx with rfl | rfl | rfl | rfl <;> exact hByte _ (by omega) (by omega)

theorem toUInt8_toNat (h : a.toNat ≤ 127) : a.toUInt8.toNat = a.toNat := by
  have hVal : a.val.toNat ≤ 127 := h
  simp only [Char.toUInt8, UInt32.toNat_toUInt8]
  exact Nat.mod_eq_of_lt (by omega)

theorem toUInt8_inj (hc : c.toNat ≤ 127) (ha : a.toNat ≤ 127) (h : c.toUInt8 = a.toUInt8) : c = a := by
  have hNat : c.toNat = a.toNat := by rw [← toUInt8_toNat hc, ← toUInt8_toNat ha, h]
  exact Char.ext (UInt32.toNat_inj.mp hNat)

theorem length_charBytes (c : Char) : (charBytes c).length = c.utf8Size := String.length_utf8EncodeChar c

/-- The byte of a line feed stands for nothing but a line feed. -/
theorem getElem_charBytes_eq_lineFeed {n : Nat} (h : n < (charBytes c).length) :
    (charBytes c)[n] = 10 ↔ c = '\n' := by
  refine ⟨fun hFeed => ?_, ?_⟩
  · have hMem : (10 : UInt8) ∈ charBytes c := hFeed ▸ List.getElem_mem h
    by_cases hAscii : c.toNat ≤ 127
    · rw [charBytes_of_ascii hAscii, List.mem_singleton] at hMem
      exact toUInt8_inj hAscii (by decide) hMem.symm
    · exact absurd (le_of_mem_charBytes (Nat.lt_of_not_le hAscii) hMem) (by decide)
  · rintro rfl
    have hBytes : charBytes '\n' = [10] := by decide
    simp only [hBytes, List.getElem_singleton]

/-- A line feed is a single byte. -/
theorem ne_lineFeed_of_inside {n : Nat} (h : n + 1 < c.utf8Size) : c ≠ '\n' := by
  rintro rfl
  exact absurd h (Nat.not_lt.mpr (Nat.succ_le_succ (Nat.zero_le _)))

/-! ## Bytes of texts -/

theorem bytes_cons (c : Char) (s : List Char) : bytes (c :: s) = charBytes c ++ bytes s := rfl

theorem bytes_append (s t : List Char) : bytes (s ++ t) = bytes s ++ bytes t := List.flatMap_append

theorem length_bytes (s : List Char) : (bytes s).length = byteSize s := by
  induction s with
  | nil => rfl
  | cons c s ih => rw [byteSize_cons, ← ih, bytes_cons, List.length_append, length_charBytes]

theorem byteSize_reverse (s : List Char) : byteSize s.reverse = byteSize s := by
  induction s with
  | nil => rfl
  | cons c s ih =>
    rw [List.reverse_cons, byteSize_append, ih, byteSize_cons, byteSize_cons, byteSize_nil,
      Nat.add_zero, Nat.add_comm]

theorem bytes_inj (h : bytes s = bytes t) : s = t := by
  refine String.ofList_inj.mp (String.toByteArray_inj.mp ?_)
  rw [String.toByteArray_ofList, String.toByteArray_ofList]
  exact congrArg List.toByteArray h

/-- No text starts with a byte from inside of a character. -/
theorem eq_zero_of_drop_bytes {n : Nat} (hInside : n < c.utf8Size)
    (h : (bytes (c :: s)).drop n = bytes t) : n = 0 := by
  have hByte : n < (charBytes c).length := by rwa [length_charBytes]
  rw [bytes_cons, List.drop_append_of_le_length (Nat.le_of_lt hByte),
    List.drop_eq_getElem_cons hByte] at h
  cases t with
  | nil => cases h
  | cons d t =>
    have hFirst : 0 < (charBytes d).length := by rw [length_charBytes]; exact d.utf8Size_pos
    rw [bytes_cons, ← List.drop_zero (l := charBytes d), List.drop_eq_getElem_cons hFirst] at h
    have hEq : (charBytes c)[n] = (charBytes d)[0] := (List.cons.inj h).1
    refine UInt8.isUTF8FirstByte_getElem_utf8EncodeChar.mp (?_ : ((charBytes c)[n]).IsUTF8FirstByte)
    rw [hEq]
    exact UInt8.isUTF8FirstByte_getElem_utf8EncodeChar.mpr rfl

end IdlReader.Text

/-! ## Places of byte offsets -/

namespace IdlReader.Position

open Text (bytes byteSize length_bytes)

variable {text : List Char} {n : Nat}

/-- The line and the column of a byte offset of a text: how many line feeds lie in front of it and
how many bytes behind the last of these, both counted from one. -/
def ofOffset (text : List Char) (n : Nat) : Position :=
  let before := (bytes text).take n
  ⟨before.count 10 + 1, (before.reverse.takeWhile (· ≠ 10)).length + 1⟩

theorem ofOffset_succ {b : UInt8} (h : (bytes text)[n]? = some b) :
    ofOffset text (n + 1) =
      if b = 10 then ⟨(ofOffset text n).line + 1, 1⟩
      else ⟨(ofOffset text n).line, (ofOffset text n).col + 1⟩ := by
  unfold ofOffset
  dsimp only
  rw [List.take_add_one, h, Option.toList_some, List.reverse_append, List.reverse_singleton,
    List.singleton_append, List.count_append]
  by_cases hFeed : b = 10
  · subst hFeed
    rfl
  · rw [if_neg hFeed, List.takeWhile_cons_of_pos (by simpa using hFeed),
      List.count_singleton, if_neg (by simpa using hFeed)]
    rfl

/-- Behind the end there are no further places. -/
theorem ofOffset_min (text : List Char) (n : Nat) :
    ofOffset text (min n (byteSize text)) = ofOffset text n := by
  unfold ofOffset
  rw [← length_bytes, ← List.take_eq_take_min]

end IdlReader.Position

/-! ## Cursors that go over bytes -/

namespace IdlReader.Cursor

open Text (bytes byteSize charBytes)

variable {c : Cursor} {text : List Char}

/-- The cursor at a byte offset of a text, or at the end of the text. -/
def ofOffset (text : List Char) (n : Nat) : Cursor := (ofText text).bumpMany n

/-- Whether a cursor stands in front of a byte of a text, at the line and the column of its
offset. -/
structure StandsIn (c : Cursor) (text : List Char) : Prop where
  text_eq : c.text = text
  within_lt : ∀ d s, c.rest = d :: s → c.within < d.utf8Size
  within_end : c.rest = [] → c.within = 0
  within_le : c.within ≤ c.position.col
  position : c.position = Position.ofOffset text c.offset

theorem standsIn_ofText (text : List Char) : (ofText text).StandsIn text :=
  ⟨rfl, fun d _ _ => d.utf8Size_pos, fun _ => rfl, Nat.zero_le _, rfl⟩

/-! ### One byte -/

theorem bump_of_end (h : c.rest = []) : c.bump.2 = c := by
  unfold Cursor.bump
  rw [h]

theorem bump_inside {d : Char} {s : List Char} (h : c.rest = d :: s)
    (hInside : c.within + 1 < d.utf8Size) :
    c.bump.2 =
      { c with within := c.within + 1, position := ⟨c.position.line, c.position.col + 1⟩ } := by
  unfold Cursor.bump
  rw [h]
  dsimp only
  rw [if_pos hInside, if_neg (Text.ne_lineFeed_of_inside hInside)]

theorem bump_last {d : Char} {s : List Char} (h : c.rest = d :: s)
    (hLast : c.within + 1 = d.utf8Size) :
    c.bump.2 = ⟨d :: c.past, 0, s,
      if d = '\n' then ⟨c.position.line + 1, 1⟩ else ⟨c.position.line, c.position.col + 1⟩⟩ := by
  unfold Cursor.bump
  rw [h]
  dsimp only
  rw [if_neg (by omega)]

/-- The byte in front of which a cursor stands. -/
theorem getElem?_offset {d : Char} {s : List Char} (h : c.rest = d :: s)
    (hWithin : c.within < d.utf8Size) : (bytes c.text)[c.offset]? = (charBytes d)[c.within]? := by
  have hBefore : (bytes c.past.reverse).length = byteSize c.past := by
    rw [Text.length_bytes, Text.byteSize_reverse]
  rw [Cursor.text, offset, h, Text.bytes_append, Text.bytes_cons,
    List.getElem?_append_right (by rw [hBefore]; exact Nat.le_add_right _ _), hBefore,
    Nat.add_sub_cancel_left, List.getElem?_append_left (by rwa [Text.length_charBytes])]

/-- The place of the next byte: behind a line feed another line starts. -/
theorem StandsIn.next (h : c.StandsIn text) {d : Char} {s : List Char} (hRest : c.rest = d :: s) :
    c.offset + 1 ≤ byteSize text ∧
      Position.ofOffset text (c.offset + 1) =
        if d = '\n' then ⟨c.position.line + 1, 1⟩ else ⟨c.position.line, c.position.col + 1⟩ := by
  have hInside := h.within_lt d s hRest
  have hByte : c.within < (charBytes d).length := by rwa [Text.length_charBytes]
  have hGet : (bytes text)[c.offset]? = some (charBytes d)[c.within] := by
    rw [← h.text_eq, getElem?_offset hRest hInside, List.getElem?_eq_getElem hByte]
  refine ⟨?_, ?_⟩
  · rw [← Text.length_bytes]
    exact (List.getElem?_eq_some_iff.mp hGet).1
  · rw [Position.ofOffset_succ hGet]
    simp only [Text.getElem_charBytes_eq_lineFeed, ← h.position]

/-- A cursor moves over one byte, unless it is at the end. -/
theorem StandsIn.bump (h : c.StandsIn text) :
    c.bump.2.StandsIn text ∧ c.bump.2.offset = min (c.offset + 1) (byteSize text) := by
  cases hRest : c.rest with
  | nil =>
    have hOffset : c.offset = byteSize text := by
      rw [← h.text_eq, Cursor.text, hRest, List.append_nil, Text.byteSize_reverse, offset,
        h.within_end hRest, Nat.add_zero]
    rw [bump_of_end hRest, hOffset, Nat.min_eq_right (Nat.le_succ _)]
    exact ⟨h, rfl⟩
  | cons d s =>
    obtain ⟨hLess, hNext⟩ := h.next hRest
    rw [Nat.min_eq_left hLess]
    have hInside := h.within_lt d s hRest
    rcases Nat.lt_or_eq_of_le (Nat.succ_le_of_lt hInside) with hMore | hLast
    · rw [bump_inside hRest hMore]
      rw [if_neg (Text.ne_lineFeed_of_inside hMore)] at hNext
      refine ⟨⟨h.text_eq, fun e t hEq => ?_, fun hEq => ?_, Nat.succ_le_succ h.within_le,
        hNext.symm⟩, rfl⟩
      · cases hRest.symm.trans hEq
        exact hMore
      · cases hRest.symm.trans hEq
    · have hOffset : byteSize (d :: c.past) + 0 = c.offset + 1 := by
        rw [Text.byteSize_cons, ← hLast, offset]
        omega
      rw [bump_last hRest hLast, ← hNext]
      refine ⟨⟨?_, fun e t _ => e.utf8Size_pos, fun _ => rfl, Nat.zero_le _, ?_⟩, hOffset⟩
      · rw [← h.text_eq, Cursor.text, Cursor.text, hRest, List.reverse_cons, List.append_assoc]
        rfl
      · exact congrArg (Position.ofOffset text) hOffset.symm

/-- The line of the byte behind which a cursor stands: a line feed stands on the line that it ends. -/
theorem StandsIn.line_before (h : c.StandsIn text) (hWithin : c.within = 0) {d : Char}
    {past : List Char} (hPast : c.past = d :: past) :
    (Position.ofOffset text (c.offset - 1)).line =
      if d = '\n' then c.position.line - 1 else c.position.line := by
  have hLast : d.utf8Size - 1 < (charBytes d).length := by
    rw [Text.length_charBytes]
    exact Nat.sub_lt d.utf8Size_pos Nat.one_pos
  have hOffset : c.offset - 1 = byteSize past + (d.utf8Size - 1) ∧ c.offset - 1 + 1 = c.offset := by
    have hPos := d.utf8Size_pos
    rw [offset, hPast, hWithin, Text.byteSize_cons]
    omega
  have hText : text = past.reverse ++ d :: c.rest := by
    rw [← h.text_eq, Cursor.text, hPast, List.reverse_cons, List.append_assoc]
    rfl
  have hGet : (bytes text)[c.offset - 1]? = some (charBytes d)[d.utf8Size - 1] := by
    have hByte := @getElem?_offset ⟨past, d.utf8Size - 1, d :: c.rest, c.position⟩ d c.rest rfl
      (by rwa [Text.length_charBytes] at hLast)
    rw [hOffset.1, hText, ← List.getElem?_eq_getElem hLast]
    exact hByte
  have hNext := Position.ofOffset_succ hGet
  rw [hOffset.2, ← h.position] at hNext
  simp only [Text.getElem_charBytes_eq_lineFeed] at hNext
  rw [hNext]
  by_cases hFeed : d = '\n'
  · rw [if_pos hFeed, if_pos hFeed]
    rfl
  · rw [if_neg hFeed, if_neg hFeed]

/-! ### Many bytes -/

theorem bumpMany_add (c : Cursor) (m n : Nat) : c.bumpMany (m + n) = (c.bumpMany m).bumpMany n := by
  induction m generalizing c with
  | zero => rw [Nat.zero_add]; rfl
  | succ m ih =>
    rw [Nat.add_right_comm]
    exact ih c.bump.2

theorem ofOffset_add (text : List Char) (m n : Nat) :
    ofOffset text (m + n) = (ofOffset text m).bumpMany n := bumpMany_add _ m n

theorem standsIn_ofOffset (text : List Char) (n : Nat) :
    (ofOffset text n).StandsIn text ∧ (ofOffset text n).offset = min n (byteSize text) := by
  induction n with
  | zero => exact ⟨standsIn_ofText text, (Nat.zero_min _).symm⟩
  | succ n ih =>
    obtain ⟨hStands, hOffset⟩ := ih
    rw [ofOffset_add]
    have hBump := hStands.bump
    refine ⟨hBump.1, hBump.2.trans ?_⟩
    rw [hOffset]
    omega

theorem position_ofOffset (text : List Char) (n : Nat) :
    (ofOffset text n).position = Position.ofOffset text n := by
  obtain ⟨hStands, hOffset⟩ := standsIn_ofOffset text n
  rw [hStands.position, hOffset, Position.ofOffset_min]

/-! ## Characters and their bytes -/

/-- Where a cursor stands that goes over bytes inside of a character. -/
theorem bumpMany_inside {d : Char} {s : List Char} (h : c.rest = d :: s) {n : Nat}
    (hInside : c.within + n < d.utf8Size) :
    c.bumpMany n =
      { c with within := c.within + n, position := ⟨c.position.line, c.position.col + n⟩ } := by
  induction n with
  | zero => rfl
  | succ n ih =>
    have hMany := ih (by omega)
    have hStep : c.bumpMany (n + 1) = (c.bumpMany n).bump.2 := bumpMany_add c n 1
    rw [hStep, hMany]
    exact bump_inside h hInside

/-- To move over a character is to move over its bytes, or over those of them that are left. -/
theorem moveOver_singleton {d : Char} {s : List Char} (h : c.rest = d :: s)
    (hInside : c.within < d.utf8Size) (hCol : c.within ≤ c.position.col) :
    c.moveOver [d] s = c.bumpMany (d.utf8Size - c.within) := by
  obtain ⟨n, hn⟩ : ∃ n, d.utf8Size - c.within = n + 1 := ⟨d.utf8Size - c.within - 1, by omega⟩
  have hStep : c.bumpMany (n + 1) = (c.bumpMany n).bump.2 := bumpMany_add c n 1
  have hMany := @bumpMany_inside c d s h n (by omega)
  have hRest : (c.bumpMany n).rest = d :: s := by rw [hMany, ← h]
  have hLast : (c.bumpMany n).within + 1 = d.utf8Size := by
    rw [hMany]
    dsimp only
    omega
  have hPlace : c.position.col - c.within + d.utf8Size = c.position.col + n + 1 := by omega
  rw [hn, hStep, bump_last hRest hLast, hMany]
  unfold moveOver characterStart
  rw [Position.advance_cons, Position.advance_nil, Position.after, hPlace]
  rfl

/-- To move over characters is to move over their bytes. -/
theorem moveOver_eq_bumpMany {read left : List Char} (hWithin : c.within = 0)
    (h : c.rest = read ++ left) : c.moveOver read left = c.bumpMany (byteSize read) := by
  induction read generalizing c with
  | nil =>
    rw [List.nil_append] at h
    rw [← h, moveOver_nil hWithin]
    rfl
  | cons d read ih =>
    have hFirst : c.moveOver [d] (read ++ left) = c.bumpMany (d.utf8Size - c.within) :=
      moveOver_singleton h (hWithin ▸ d.utf8Size_pos) (hWithin ▸ Nat.zero_le _)
    rw [hWithin, Nat.sub_zero] at hFirst
    rw [Text.byteSize_cons, bumpMany_add, ← hFirst, ← @ih (c.moveOver [d] (read ++ left)) rfl rfl,
      moveOver_moveOver]
    rfl

/-- A cursor that moves over characters comes to a byte offset, also from inside of the first one. -/
theorem exists_ofOffset_moveOver {n : Nat} {d : Char} {read left : List Char}
    (h : (ofOffset text n).rest = d :: (read ++ left)) :
    ∃ m, (ofOffset text n).moveOver (d :: read) left = ofOffset text m := by
  have hStands := (standsIn_ofOffset text n).1
  generalize hCursor : ofOffset text n = c at h hStands
  have hFirst : c.moveOver [d] (read ++ left) = c.bumpMany (d.utf8Size - c.within) :=
    moveOver_singleton h (hStands.within_lt d _ h) hStands.within_le
  have hMore := @moveOver_eq_bumpMany (c.moveOver [d] (read ++ left)) read left rfl rfl
  rw [moveOver_moveOver, hFirst, ← hCursor, ← ofOffset_add, ← ofOffset_add] at hMore
  exact ⟨_, hCursor ▸ hMore⟩

/-- Where the bytes in front of which a cursor stands are those of a text, this is the text that is
left. From inside of a character they are those of none. -/
theorem StandsIn.rest_of_bytesAhead {rest : List Char} (h : c.StandsIn text)
    (hRest : c.bytesAhead = bytes rest) : c.within = 0 ∧ c.rest = rest := by
  have hWithin : c.within = 0 := by
    cases hText : c.rest with
    | nil => exact h.within_end hText
    | cons d s =>
      rw [bytesAhead, hText] at hRest
      exact Text.eq_zero_of_drop_bytes (h.within_lt d s hText) hRest
  rw [bytesAhead, hWithin, List.drop_zero] at hRest
  exact ⟨hWithin, Text.bytes_inj hRest⟩

end IdlReader.Cursor
