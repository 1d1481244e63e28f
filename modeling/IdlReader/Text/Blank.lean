/-!
# Blank characters

The characters with the Unicode property `White_Space`, and texts without the blanks at
their ends.

* `isBlank_of_isWhitespace`: every character that core calls white space is blank.
-/

namespace IdlReader.Text

/-- The code points with the property `White_Space`, as closed ranges. -/
def blankRanges : List (Nat × Nat) :=
  [(0x09, 0x0D), (0x20, 0x20), (0x85, 0x85), (0xA0, 0xA0), (0x1680, 0x1680),
    (0x2000, 0x200A), (0x2028, 0x2029), (0x202F, 0x202F), (0x205F, 0x205F), (0x3000, 0x3000)]

/-- Whether a character is white space. -/
def isBlank (c : Char) : Bool :=
  blankRanges.any fun r => decide (r.1 ≤ c.toNat) && decide (c.toNat ≤ r.2)

/-- A text without the blanks it starts with. -/
def trimLeft (s : List Char) : List Char := s.dropWhile isBlank

/-- A text without the characters of class `p` that it ends with. -/
def dropTrailing (p : Char → Bool) (s : List Char) : List Char :=
  (s.reverse.dropWhile p).reverse

/-- A text without the blanks it ends with. -/
def trimRight (s : List Char) : List Char := dropTrailing isBlank s

/-- A text without the blanks at its ends. -/
def trim (s : List Char) : List Char := trimRight (trimLeft s)

/-- Whether a character may stand in a name: an ASCII letter, a digit or `_`. -/
def isWord (c : Char) : Bool := c.isAlphanum || c == '_'

/-- Whether a character may start a name. -/
def isWordStart (c : Char) : Bool := c.isAlpha || c == '_'

/-- Whether a text is a name: word characters of which the first is no digit. -/
def isName : List Char → Bool
  | [] => false
  | c :: cs => isWordStart c && cs.all isWord

theorem isBlank_of_isWhitespace {c : Char} (h : c.isWhitespace = true) : isBlank c = true := by
  simp only [Char.isWhitespace, Bool.or_eq_true, decide_eq_true_eq] at h
  rcases h with ((rfl | rfl) | rfl) | rfl <;> decide

end IdlReader.Text
