/-!
# Texts as bytes

The bytes of a text in UTF-8 and the part of a text between two byte offsets.

* `byteSize_append`: sizes add up.
* `skipBytes_byteSize`: skipping the bytes of a first part leaves the second part.
-/

namespace IdlReader.Text

/-- The bytes of a character. -/
def charBytes (c : Char) : List UInt8 := String.utf8EncodeChar c

/-- The bytes of a text. -/
def bytes (s : List Char) : List UInt8 := s.flatMap charBytes

/-- The number of bytes of a text. -/
def byteSize (s : List Char) : Nat := s.foldr (fun c n => c.utf8Size + n) 0

@[simp] theorem byteSize_nil : byteSize [] = 0 := rfl

@[simp] theorem byteSize_cons (c : Char) (s : List Char) :
    byteSize (c :: s) = c.utf8Size + byteSize s := rfl

theorem byteSize_append (s t : List Char) : byteSize (s ++ t) = byteSize s + byteSize t := by
  induction s with
  | nil => simp
  | cons c s ih => simp [ih, Nat.add_assoc]

/-- What is left of a text behind its first `n` bytes; nothing unless a character starts
there or the text ends there. -/
def skipBytes : Nat → List Char → Option (List Char)
  | 0, s => some s
  | _ + 1, [] => none
  | n + 1, c :: s => if c.utf8Size ≤ n + 1 then skipBytes (n + 1 - c.utf8Size) s else none

/-- The first `n` bytes of a text; nothing unless a character or the text ends there. -/
def takeBytes : Nat → List Char → Option (List Char)
  | 0, _ => some []
  | _ + 1, [] => none
  | n + 1, c :: s =>
    if c.utf8Size ≤ n + 1 then (takeBytes (n + 1 - c.utf8Size) s).map (c :: ·) else none

/-- The part of a text between the byte offsets `first` and `last`; nothing unless both
are boundaries between characters, in this order. -/
def sliceBytes (s : List Char) (first last : Nat) : Option (List Char) :=
  if first ≤ last then skipBytes first s >>= takeBytes (last - first) else none

theorem skipBytes_byteSize (s t : List Char) : skipBytes (byteSize s) (s ++ t) = some t := by
  induction s with
  | nil => simp [skipBytes]
  | cons c s ih =>
    obtain ⟨n, hn⟩ : ∃ n, c.utf8Size = n + 1 := ⟨c.utf8Size - 1, by
      have := Char.utf8Size_pos c; omega⟩
    have h : byteSize (c :: s) = (n + byteSize s) + 1 := by simp [hn]; omega
    rw [h, List.cons_append, skipBytes, if_pos (by omega)]
    rw [show n + byteSize s + 1 - c.utf8Size = byteSize s by omega]
    exact ih

end IdlReader.Text
