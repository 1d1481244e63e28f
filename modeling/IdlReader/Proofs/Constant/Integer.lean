import IdlReader.Proofs.Constant.Numeral
import IdlReader.Proofs.Constant.Quoted
import Mathlib.Data.List.Induction
import Mathlib.Data.Nat.Digits.Defs

/-!
# Integer literals

An integer is written in one of four radices: a mark that tells the radix, digits, and letters behind
them. The scanner cuts such a text in front of whatever no number goes on with, and the reader of
literals cuts it again from both ends. Both find the same digits, so the constant has their value.

* `LiteralKind.Spells`: the parts of an integer literal.
* `Token.spells_next`: the scanner finds integers only where they are spelled so.
* `Constant.outcome_of_spells`: the constant of such a text.
* `Constant.integer_literals`: the constant of a token.
-/

namespace IdlReader

/-! ## Spelling -/

/-- The number that a character stands for as a digit, by its place among the digits up to radix
sixteen. A character that is no digit stands for sixteen. -/
def digitOf (c : Char) : Nat :=
  min ("0123456789abcdef".toList.idxOf c) ("0123456789ABCDEF".toList.idxOf c)

/-- The value of digits by their positions, with the last one at position zero. -/
def positionalValue (radix : Nat) (digits : List Char) : Nat :=
  Nat.ofDigits radix (digits.reverse.map digitOf)

namespace LiteralKind

/-- Whether integer literals of a kind have a radix and start with a mark. -/
inductive Marks : LiteralKind → (radix : Nat) → (mark : List Char) → Prop where
  | decimal : Marks .decInteger 10 []
  | octal : Marks .octInteger 8 ['0']
  | hex {x : Char} (hx : x = 'x' ∨ x = 'X') : Marks .hexInteger 16 ['0', x]
  | binary {x : Char} (hx : x = 'b' ∨ x = 'B') : Marks .binInteger 2 ['0', x]

/-- The kinds of integer literals. -/
def integers : List LiteralKind := [.decInteger, .hexInteger, .octInteger, .binInteger]

/-- Whether a text is an integer literal: a mark, digits and suffix letters. -/
structure Spells (kind : LiteralKind) (radix : Nat) (digits suffix text : List Char) : Prop where
  parts : ∃ mark, kind.Marks radix mark ∧ text = mark ++ digits ++ suffix
  ne_nil : digits ≠ []
  digit : ∀ c ∈ digits, digitOf c < radix
  letter : ∀ c ∈ suffix, c ∈ ['u', 'U', 'l', 'L']

/-- A literal without suffix letters. -/
theorem Spells.bare {kind : LiteralKind} {radix : Nat} {mark digits : List Char}
    (hMark : kind.Marks radix mark) (hSome : digits ≠ []) (h : ∀ c ∈ digits, digitOf c < radix) :
    kind.Spells radix digits [] (mark ++ digits) :=
  ⟨⟨mark, hMark, (List.append_nil _).symm⟩, hSome, h, List.forall_mem_nil _⟩

theorem Spells.radix {kind : LiteralKind} {radix : Nat} {digits suffix text : List Char}
    (h : kind.Spells radix digits suffix text) :
    radix ∈ [2, 8, 10, 16] ∧ (radix = 10 ↔ kind = .decInteger) := by
  obtain ⟨mark, hMarks, -⟩ := h.parts
  cases hMarks <;> decide

end LiteralKind

/-! ## Digits -/

/-- What holds of the first characters holds of all digits. -/
theorem forall_of_isHexDigit {P : Char → Prop} (h : ∀ m < 128, P (Char.ofNat m)) {c : Char}
    (hc : Lexeme.isHexDigit c = true) : P c := by
  have hSmall : c.toNat < 128 := by
    have hBound : ∀ {v : UInt32}, v ≤ 102 → v.toNat < 128 := fun {v} hv =>
      Nat.lt_of_le_of_lt (UInt32.le_iff_toNat_le.mp hv) (by decide)
    simp only [Lexeme.isHexDigit, Char.isDigit, Bool.or_eq_true, Bool.and_eq_true,
      decide_eq_true_eq] at hc
    refine hBound ?_
    rcases hc with (⟨-, hLast⟩ | ⟨-, hLast⟩) | ⟨-, hLast⟩
    · exact UInt32.le_trans hLast (by decide)
    · exact hLast
    · exact UInt32.le_trans hLast (by decide)
  have hChar := h c.toNat hSmall
  rwa [Char.ofNat_toNat] at hChar

theorem digitOf_of_isHexDigit {c : Char} (h : Lexeme.isHexDigit c = true) : digitOf c < 16 :=
  forall_of_isHexDigit (P := fun c => Lexeme.isHexDigit c = true → digitOf c < 16) (by decide) h h

theorem isHexDigit_of_isDigit {c : Char} (h : c.isDigit = true) : Lexeme.isHexDigit c = true := by
  rw [Lexeme.isHexDigit, h]
  rfl

theorem digitOf_of_isDigit {c : Char} (h : c.isDigit = true) : digitOf c < 10 :=
  forall_of_isHexDigit (P := fun c => c.isDigit = true → digitOf c < 10) (by decide)
    (isHexDigit_of_isDigit h) h

theorem digitOf_of_octal {c : Char} (h : c.isDigit = true) (hOctal : ¬ c > '7') : digitOf c < 8 :=
  forall_of_isHexDigit (P := fun c => c.isDigit = true → ¬ c > '7' → digitOf c < 8) (by decide)
    (isHexDigit_of_isDigit h) h hOctal

theorem digitOf_of_isBinDigit {c : Char} (h : Lexeme.isBinDigit c = true) : digitOf c < 2 := by
  simp only [Lexeme.isBinDigit, Bool.or_eq_true, beq_iff_eq] at h
  rcases h with rfl | rfl <;> decide

theorem mem_of_digitOf {c : Char} (h : digitOf c < 16) : c ∈ "0123456789abcdefABCDEF".toList := by
  have hLists : ∀ d ∈ "0123456789abcdef".toList ++ "0123456789ABCDEF".toList,
      d ∈ "0123456789abcdefABCDEF".toList := List.all_iff_forall_prop.mp (by decide)
  refine hLists c (List.mem_append.mpr ?_)
  rw [digitOf, min_lt_iff] at h
  exact h.imp List.idxOf_lt_length_iff.mp List.idxOf_lt_length_iff.mp

theorem radix_le {radix : Nat} (h : radix ∈ [2, 8, 10, 16]) : radix ≤ 16 := by
  have hLe : ∀ radix ∈ [2, 8, 10, 16], radix ≤ 16 := by decide
  exact hLe radix h

theorem digitValue?_eq {radix : Nat} (hRadix : radix ∈ [2, 8, 10, 16]) {c : Char}
    (h : digitOf c < radix) : Text.digitValue? radix c = some (digitOf c) := by
  have hAll : ∀ radix ∈ [2, 8, 10, 16], "0123456789abcdefABCDEF".toList.all (fun c =>
      digitOf c < radix → Text.digitValue? radix c = some (digitOf c)) = true := by decide
  have hMem := mem_of_digitOf (Nat.lt_of_lt_of_le h (radix_le hRadix))
  exact List.all_iff_forall_prop.mp (hAll radix hRadix) c hMem h

namespace Constant

theorem digitsValue?_eq {radix : Nat} (hRadix : radix ∈ [2, 8, 10, 16]) {digits : List Char}
    (h : ∀ c ∈ digits, digitOf c < radix) :
    digitsValue? radix digits = some (positionalValue radix digits) := by
  induction digits using List.reverseRecOn with
  | nil => rfl
  | append_singleton digits c ih =>
    obtain ⟨hInit, hLast⟩ := List.forall_mem_append.mp h
    rw [digitsValue?_append, ih hInit]
    rw [Option.bind_some, List.foldlM_cons, digitValue?_eq hRadix (hLast c List.mem_cons_self)]
    unfold positionalValue
    rw [List.reverse_append, List.reverse_singleton, List.singleton_append, List.map_cons,
      Nat.ofDigits_cons]
    simp [Nat.mul_comm, Nat.add_comm]

end Constant

namespace Lexeme

open LiteralKind (integers)

variable {p : Position} {s : List Char} {c : Char} {kind : LiteralKind}

/-! ## Scanning -/

/-- A decimal number without a point and an exponent consists of digits. -/
theorem isDigit_of_decimalRun {floating : Bool} (h : (decimalRun floating s).2.1 = false) :
    floating = false ∧ ∀ c ∈ (decimalRun floating s).1, c.isDigit = true := by
  fun_induction decimalRun floating s with
  | case1 => exact ⟨h, List.forall_mem_nil _⟩
  | case2 floating c hDigit => exact ⟨h, List.forall_mem_singleton.mpr hDigit⟩
  | case3 => cases h
  | case4 => exact ⟨h, List.forall_mem_nil _⟩
  | case5 floating c d s hDigit r ih =>
    exact ⟨(ih h).1, List.forall_mem_cons.mpr ⟨hDigit, (ih h).2⟩⟩
  | case6 floating c d s hDigit hPoint r ih => cases (ih h).1
  | case7 floating c d s hDigit hPoint hExponent hSign r ih => cases (ih h).1
  | case8 floating c d s hDigit hPoint hExponent hSign r ih => cases (ih h).1
  | case9 => exact ⟨h, List.forall_mem_nil _⟩

theorem spells_decimal (hStart : c.isDigit = true ∨ c = '.')
    (h : (decimalRun false (c :: s)).2.1 = false) :
    LiteralKind.Spells .decInteger 10 (decimalRun false (c :: s)).1 [] (decimalRun false (c :: s)).1 :=
  .bare .decimal (decimalRun_ne_nil hStart s) fun d hd =>
    digitOf_of_isDigit ((isDigit_of_decimalRun h).2 d hd)

/-- A zero in front of further digits tells the radix. -/
theorem spells_octal (h : (decimalRun false ('0' :: s)).2.1 = false)
    (hLength : (decimalRun false ('0' :: s)).1.length ≠ 1)
    (hOctal : ¬ (decimalRun false ('0' :: s)).1.any (· > '7') = true) :
    LiteralKind.Spells .octInteger 8 (decimalRun false s).1 [] (decimalRun false ('0' :: s)).1 := by
  obtain ⟨-, hDigits⟩ := isDigit_of_decimalRun h
  rw [decimalRun_digit (by decide)] at hDigits hLength hOctal ⊢
  refine .bare .octal (fun hNil => hLength ?_) fun d hd => ?_
  · rw [List.length_cons, hNil]
    rfl
  · refine digitOf_of_octal (hDigits d (List.mem_cons_of_mem _ hd)) fun hGreater => hOctal ?_
    exact List.any_eq_true.mpr ⟨d, List.mem_cons_of_mem _ hd, decide_eq_true hGreater⟩

theorem floating_notMem_integers : LiteralKind.floating ∉ integers := by decide

/-- What was scanned of an integer in front of its suffix. -/
theorem spells_unsuffixed (hStart : c.isDigit = true ∨ c = '.') :
    Ok (unsuffixed p (c :: s)) fun r => r.2.1 ∈ integers →
      ∃ radix digits, r.2.1.Spells radix digits [] r.1 := by
  unfold unsuffixed
  split
  · rename_i x s' hText
    cases hText
    dsimp only
    split
    · rename_i hHex
      split
      · exact ok_error _ _
      · rename_i hDigits
        refine ok_ok fun _ => ⟨16, _, .bare (.hex (by simpa using hHex)) (by simpa using hDigits) ?_⟩
        exact fun d hd => digitOf_of_isHexDigit (List.all_eq_true.mp List.all_takeWhile d hd)
    · split
      · rename_i hBinary
        split
        · exact ok_error _ _
        · rename_i hDigits
          refine ok_ok fun _ =>
            ⟨2, _, .bare (.binary (by simpa using hBinary)) (by simpa using hDigits) ?_⟩
          exact fun d hd => digitOf_of_isBinDigit (List.all_eq_true.mp List.all_takeWhile d hd)
      · split
        · exact ok_ok fun hInteger => absurd hInteger floating_notMem_integers
        · rename_i hFloating
          rw [Bool.not_eq_true] at hFloating
          split
          · exact ok_ok fun _ => ⟨10, _, spells_decimal hStart hFloating⟩
          · rename_i hLength
            split
            · exact ok_error _ _
            · rename_i hOctal
              exact ok_ok fun _ => ⟨8, _, spells_octal hFloating hLength hOctal⟩
  · refine ok_ok fun hInteger => ?_
    cases hFloating : (decimalRun false (c :: s)).2.1 with
    | true =>
      rw [hFloating] at hInteger
      exact absurd hInteger floating_notMem_integers
    | false => exact ⟨10, _, spells_decimal hStart hFloating⟩

/-- A letter that keeps a number an integer. -/
theorem suffixKind?_integer {kind' : LiteralKind} (h : suffixKind? kind c = some kind')
    (hInteger : kind' ∈ integers) : kind = kind' ∧ c ∈ ['u', 'U', 'l', 'L'] := by
  unfold suffixKind? at h
  split at h
  · rename_i hLetter
    cases h
    refine ⟨rfl, ?_⟩
    simpa [or_assoc] using hLetter
  · repeat' split at h
    all_goals
      cases h
      try exact absurd hInteger (by decide)

theorem suffixRun_integer (h : (suffixRun kind s).2.1 ∈ integers) :
    kind = (suffixRun kind s).2.1 ∧ ∀ c ∈ (suffixRun kind s).1, c ∈ ['u', 'U', 'l', 'L'] := by
  fun_induction suffixRun kind s with
  | case1 => exact ⟨rfl, List.forall_mem_nil _⟩
  | case2 kind c s kind' hKind r ih =>
    obtain ⟨hSame, hLetters⟩ := ih h
    obtain ⟨hKept, hLetter⟩ := suffixKind?_integer hKind (hSame ▸ h)
    exact ⟨hKept.trans hSame, List.forall_mem_cons.mpr ⟨hLetter, hLetters⟩⟩
  | case3 => exact ⟨rfl, List.forall_mem_nil _⟩

/-- Whether the text of an integer is one that is spelled so. -/
def SpellsInteger (x : Lexeme) : Prop :=
  ∀ kind, x.kind = .literal kind → kind ∈ integers →
    ∃ radix digits suffix, kind.Spells radix digits suffix x.text

theorem spellsInteger_of_notMem {x : Lexeme}
    (h : ∀ kind, x.kind = .literal kind → kind ∉ integers) : x.SpellsInteger :=
  fun kind hKind hInteger => absurd hInteger (h kind hKind)

theorem spellsInteger_number (hStart : c.isDigit = true ∨ c = '.') :
    Ok (number p (c :: s)) SpellsInteger := by
  unfold number
  refine ok_bind (spells_unsuffixed hStart) ?_
  rintro ⟨text, kind', rest⟩ hSpells
  dsimp only at hSpells ⊢
  split
  · exact ok_error _ _
  · refine ok_ok fun kind hKind hInteger => ?_
    cases hKind
    obtain ⟨hSame, hLetters⟩ := suffixRun_integer hInteger
    rw [← hSame] at hInteger ⊢
    obtain ⟨radix, digits, ⟨mark, hMarks, rfl⟩, hSome, hDigits, -⟩ := hSpells hInteger
    refine ⟨radix, digits, _, ⟨mark, hMarks, ?_⟩, hSome, hDigits, hLetters⟩
    rw [List.append_nil]

theorem spellsInteger_quoted {encoding : List Char} : Ok (quoted p encoding s) SpellsInteger := by
  have hQuoted : LiteralKind.string ∉ integers ∧ LiteralKind.character ∉ integers := by decide
  unfold quoted
  split
  · exact ok_error _ _
  · split
    · refine ok_ok (spellsInteger_of_notMem fun kind hKind => ?_)
      dsimp only at hKind
      split at hKind
      · cases hKind
        exact hQuoted.1
      · cases hKind
        exact hQuoted.2
    · exact ok_error _ _

theorem spellsInteger_word {l : Lexicon} : Ok (word l p s) SpellsInteger := by
  have hWords : LiteralKind.boolean ∉ integers ∧ LiteralKind.null ∉ integers := by decide
  unfold word
  dsimp only
  split
  · exact spellsInteger_quoted
  · refine ok_ok (spellsInteger_of_notMem fun kind hKind => ?_)
    unfold wordKind at hKind
    repeat' split at hKind
    all_goals cases hKind
    · exact hWords.1
    · exact hWords.2

/-- The scanner finds an integer only where one is spelled. -/
theorem spellsInteger_read {l : Lexicon} : Ok (read l p c s) SpellsInteger := by
  unfold read
  dsimp only
  split
  · exact ok_ok fun kind hKind => by cases hKind
  · split
    · refine kind_blockComment.mono fun x hComment kind hKind => ?_
      rw [hComment] at hKind
      cases hKind
    · split
      · exact spellsInteger_quoted
      · split
        · rename_i hNumber
          simp only [Bool.or_eq_true, Bool.and_eq_true, beq_iff_eq] at hNumber
          exact spellsInteger_number (hNumber.imp id And.left)
        · split
          · exact spellsInteger_word
          · refine kind_mark.mono fun x hMark kind hKind => ?_
            rcases hMark with hMark | hMark <;>
            · rw [hMark] at hKind
              cases hKind

end Lexeme

theorem Token.spells_next {l : Lexicon} {directives : Bool} {source : SourceId} {c : Cursor} :
    Ok (next l directives source c) fun r => ∀ kind, r.1.kind = .literal kind →
      kind ∈ LiteralKind.integers →
      ∃ radix digits suffix, kind.Spells radix digits suffix r.1.text.toList := by
  unfold next
  dsimp only
  split
  · exact ok_ok fun kind hKind => by cases hKind
  · split
    · exact ok_ok fun kind hKind => by cases hKind
    · refine ok_bind Lexeme.spellsInteger_read fun x hx => ok_ok fun kind hKind hInteger => ?_
      rw [String.toList_ofList]
      exact hx kind hKind hInteger

/-! ## Constants -/

namespace Constant

variable {kind : LiteralKind} {radix : Nat} {digits suffix text : List Char} {k : IntegerKind}
  {ladder : List IntegerKind}

/-- Whether suffix letters ask for an unsigned kind. -/
def IsUnsigned (suffix : List Char) : Prop := 'u' ∈ suffix ∨ 'U' ∈ suffix

/-- Whether no kind that a literal may have holds its value. -/
def Exceeds (kind : LiteralKind) (suffix : List Char) (v : Nat) : Prop :=
  2 ^ 64 - 1 < v ∨ kind = .decInteger ∧ ¬ IsUnsigned suffix ∧ 2 ^ 63 - 1 < v

/-- Whether a kind is the first one of several that holds an integer. -/
def IsFirst (kinds : List IntegerKind) (v : Int) (k : IntegerKind) : Prop :=
  ∃ before after, kinds = before ++ k :: after ∧ k.Holds v ∧ ∀ k' ∈ before, ¬ k'.Holds v

theorem IsFirst.holds {kinds : List IntegerKind} {v : Int} (h : IsFirst kinds v k) : k.Holds v := by
  obtain ⟨-, -, -, hHolds, -⟩ := h
  exact hHolds

/-- The kind of the constant that a literal writes: the first one of its sign that holds the value,
or the widest one for a literal that is not decimal if all signed kinds are too narrow. -/
inductive Suits (kind : LiteralKind) (suffix : List Char) (v : Int) : IntegerKind → Prop where
  | unsigned {k : IntegerKind} (hSign : IsUnsigned suffix)
      (hFirst : IsFirst [.uint8, .uint16, .uint32, .uint64] v k) : Suits kind suffix v k
  | signed {k : IntegerKind} (hSign : ¬ IsUnsigned suffix)
      (hFirst : IsFirst [.int8, .int16, .int32, .int64] v k) : Suits kind suffix v k
  | widest (hSign : ¬ IsUnsigned suffix) (hKind : kind ≠ .decInteger)
      (hNone : ∀ k ∈ [.int8, .int16, .int32, .int64], ¬ IntegerKind.Holds k v) :
      Suits kind suffix v .uint64

/-- No number is below all integers of a kind. -/
theorem holds_natCast_iff {v : Nat} : k.Holds v ↔ (v : Int) ≤ k.greatest := by
  have hLeast : k.least ≤ 0 := by cases k <;> decide
  exact ⟨And.right, fun h => ⟨Int.le_trans hLeast (Int.natCast_nonneg v), h⟩⟩

theorem isFirst_of_firstKind? {v : Nat} (h : firstKind? ladder v = some k) : IsFirst ladder v k := by
  obtain ⟨hHolds, before, after, hLadder, hBefore⟩ := List.find?_eq_some_iff_append.mp h
  refine ⟨before, after, hLadder, holds_natCast_iff.mpr (of_decide_eq_true hHolds), ?_⟩
  intro k' hk' hHolds'
  have hNot := hBefore k' hk'
  rw [decide_eq_true (holds_natCast_iff.mp hHolds')] at hNot
  cases hNot

theorem not_holds_of_firstKind? {v : Nat} (h : firstKind? ladder v = none) :
    ∀ k ∈ ladder, ¬ k.Holds v := fun k hk hHolds =>
  List.find?_eq_none.mp h k hk (decide_eq_true (holds_natCast_iff.mp hHolds))

/-- Suffix letters are no digits, whatever the radix is. -/
theorem dropTrailing_suffix (hDigits : ∀ c ∈ digits, digitOf c < 16)
    (hLetters : ∀ c ∈ suffix, c ∈ ['u', 'U', 'l', 'L']) :
    Text.dropTrailing isIntegerSuffix (digits ++ suffix) = digits := by
  have hDigit : ∀ c ∈ "0123456789abcdefABCDEF".toList, isIntegerSuffix c = false :=
    List.all_iff_forall_prop.mp (by decide)
  have hLetter : ∀ c ∈ ['u', 'U', 'l', 'L'], isIntegerSuffix c = true :=
    List.all_eq_true.mp (by decide)
  exact dropTrailing_digits (fun c hc => hDigit c (mem_of_digitOf (hDigits c hc)))
    fun c hc => hLetter c (hLetters c hc)

/-- What a literal writes is left of its text without the mark in front. -/
theorem ofLiteralText_of_spells (h : kind.Spells radix digits suffix text) :
    ofLiteralText kind text = integerOf radix (digits ++ suffix) := by
  obtain ⟨mark, hMarks, rfl⟩ := h.parts
  cases hMarks <;> rfl

theorem any_unsigned_iff :
    suffix.any (fun c => c == 'u' || c == 'U') = true ↔ IsUnsigned suffix := by
  simp only [List.any_eq_true, Bool.or_eq_true, beq_iff_eq, IsUnsigned]
  constructor
  · rintro ⟨c, hc, rfl | rfl⟩
    · exact Or.inl hc
    · exact Or.inr hc
  · rintro (hc | hc)
    · exact ⟨_, hc, Or.inl rfl⟩
    · exact ⟨_, hc, Or.inr rfl⟩

theorem greatest_uint64_lt {v : Nat} : IntegerKind.uint64.greatest < (v : Int) ↔ 2 ^ 64 - 1 < v := by
  change (2 : Int) ^ 64 - 1 < v ↔ _
  omega

/-- The kinds behind a suffix `u` hold all that fits into 64 bits. -/
theorem exists_unsigned {v : Nat} (h : ¬ 2 ^ 64 - 1 < v) :
    ∃ k, firstKind? unsignedLadder v = some k := by
  cases hFirst : firstKind? unsignedLadder v with
  | some k => exact ⟨k, rfl⟩
  | none =>
    refine absurd (holds_natCast_iff.mpr ?_) (not_holds_of_firstKind? hFirst .uint64 (by decide))
    change (v : Int) ≤ 2 ^ 64 - 1
    omega

theorem not_exceeds_of_isUnsigned {v : Nat} (hLarge : ¬ 2 ^ 64 - 1 < v) (h : IsUnsigned suffix) :
    ¬ Exceeds kind suffix v := by
  rintro (hGreater | ⟨-, hNot, -⟩)
  · exact hLarge hGreater
  · exact hNot h

theorem exceeds_iff_of_not_isUnsigned {v : Nat} (hLarge : ¬ 2 ^ 64 - 1 < v)
    (h : ¬ IsUnsigned suffix) : Exceeds kind suffix v ↔ kind = .decInteger ∧ 2 ^ 63 - 1 < v := by
  constructor
  · rintro (hGreater | ⟨hKind, -, hGreater⟩)
    · exact absurd hGreater hLarge
    · exact ⟨hKind, hGreater⟩
  · rintro ⟨hKind, hGreater⟩
    exact Or.inr ⟨hKind, h, hGreater⟩

/-- The kinds without one hold all that fits into 63 bits, and no more. -/
theorem firstKind?_signed_eq_none_iff {v : Nat} :
    firstKind? signedLadder v = none ↔ 2 ^ 63 - 1 < v := by
  have hGreatest : ∀ k ∈ signedLadder, k.greatest ≤ 2 ^ 63 - 1 := by decide
  constructor
  · intro hNone
    refine Nat.lt_of_not_le fun hLe => ?_
    refine not_holds_of_firstKind? hNone .int64 (by decide) (holds_natCast_iff.mpr ?_)
    change (v : Int) ≤ 2 ^ 63 - 1
    omega
  · intro hLarge
    refine List.find?_eq_none.mpr fun k hk hLe => ?_
    have hHolds := of_decide_eq_true hLe
    have hBound := hGreatest k hk
    omega

/-- The constant of an integer literal, or why there is none. -/
theorem outcome_of_spells (h : kind.Spells radix digits suffix text) :
    (Exceeds kind suffix (positionalValue radix digits) → ofLiteralText kind text =
      .error (if 2 ^ 64 - 1 < positionalValue radix digits then .integerTooLarge
        else .signedIntegerTooLarge)) ∧
    (¬ Exceeds kind suffix (positionalValue radix digits) →
      ∃ k hk, ofLiteralText kind text = .ok (.integer k (positionalValue radix digits) hk) ∧
        Suits kind suffix (positionalValue radix digits) k) := by
  obtain ⟨hRadix, hDecimal⟩ := h.radix
  have hDigit : ∀ c ∈ digits, digitOf c < 16 := fun c hc =>
    Nat.lt_of_lt_of_le (h.digit c hc) (radix_le hRadix)
  rw [ofLiteralText_of_spells h]
  unfold integerOf
  dsimp only
  rw [dropTrailing_suffix hDigit h.letter, List.drop_left, digitsValue?_eq hRadix h.digit]
  dsimp only
  generalize positionalValue radix digits = v
  by_cases hLarge : 2 ^ 64 - 1 < v
  · rw [if_pos (greatest_uint64_lt.mpr hLarge), if_pos hLarge]
    exact ⟨fun _ => rfl, fun hFits => absurd (Or.inl hLarge) hFits⟩
  · rw [if_neg fun hGreater => hLarge (greatest_uint64_lt.mp hGreater), if_neg hLarge]
    by_cases hUnsigned : IsUnsigned suffix
    · rw [if_pos (any_unsigned_iff.mpr hUnsigned)]
      obtain ⟨k, hFirst⟩ := exists_unsigned hLarge
      have hIsFirst := isFirst_of_firstKind? hFirst
      rw [hFirst]
      refine ⟨fun hExceeds => absurd hExceeds (not_exceeds_of_isUnsigned hLarge hUnsigned), fun _ => ?_⟩
      exact ⟨k, hIsFirst.holds, by rw [integer_eq_ofInt], .unsigned hUnsigned hIsFirst⟩
    · rw [if_neg fun hAny => hUnsigned (any_unsigned_iff.mp hAny),
        exceeds_iff_of_not_isUnsigned hLarge hUnsigned]
      cases hFirst : firstKind? signedLadder v with
      | some k =>
        have hIsFirst := isFirst_of_firstKind? hFirst
        refine ⟨fun hExceeds => ?_, fun _ => ?_⟩
        · rw [firstKind?_signed_eq_none_iff.mpr hExceeds.2] at hFirst
          cases hFirst
        · exact ⟨k, hIsFirst.holds, by rw [integer_eq_ofInt], .signed hUnsigned hIsFirst⟩
      | none =>
        have hGreater := firstKind?_signed_eq_none_iff.mp hFirst
        dsimp only
        by_cases hKind : kind = .decInteger
        · rw [if_pos (hDecimal.mpr hKind)]
          exact ⟨fun _ => rfl, fun hFits => absurd ⟨hKind, hGreater⟩ hFits⟩
        · rw [if_neg fun hTen => hKind (hDecimal.mp hTen)]
          refine ⟨fun hExceeds => absurd hExceeds.1 hKind, fun _ => ?_⟩
          have hHolds : IntegerKind.uint64.Holds v :=
            holds_natCast_iff.mpr (Int.not_lt.mp fun hBeyond => hLarge (greatest_uint64_lt.mp hBeyond))
          exact ⟨.uint64, hHolds, by rw [integer_eq_ofInt],
            .widest hUnsigned hKind (not_holds_of_firstKind? hFirst)⟩

/-- A token that is an integer literal. Its text consists of a mark that tells the radix, digits and
suffix letters, so there is a mark to cut off and no digit is malformed. Its constant has the value of
the digits and the first kind that holds it; it has none just if the value does not fit into 64 bits, or
if the literal is decimal without a suffix `u` and the value does not fit into 63 bits. -/
theorem integer_literals {l : Lexicon} {directives : Bool} {source : SourceId} {c c' : Cursor}
    {t : Token} {kind : LiteralKind} (h : Token.next l directives source c = .ok (t, c'))
    (hKind : t.kind = .literal kind) (hInteger : kind ∈ LiteralKind.integers) :
    (∃ radix digits suffix, kind.Spells radix digits suffix t.text.toList) ∧
    ∀ radix digits suffix, kind.Spells radix digits suffix t.text.toList →
      let v := positionalValue radix digits
      (Exceeds kind suffix v → ofLiteral t = .error ((Fault.of (if 2 ^ 64 - 1 < v then
        .integerTooLarge else .signedIntegerTooLarge)).placed t.position)) ∧
      (¬ Exceeds kind suffix v → ∃ k hk, ofLiteral t = .ok (.integer k v hk) ∧
        Suits kind suffix v k) := by
  refine ⟨Token.spells_next _ h kind hKind hInteger, fun radix digits suffix hSpells => ?_⟩
  obtain ⟨hFault, hConstant⟩ := outcome_of_spells hSpells
  rw [ofLiteral_of_kind hKind]
  refine ⟨fun hExceeds => ?_, fun hFits => ?_⟩
  · rw [hFault hExceeds]
    rfl
  · obtain ⟨k, hk, hText, hSuits⟩ := hConstant hFits
    rw [hText]
    exact ⟨k, hk, rfl, hSuits⟩

/-- An integer of 64 bits has a constant if it is written in hexadecimals, and none in decimals. -/
theorem integer_literals_widest :
    (∃ t c' k hk, Token.next ({} : Environment).lexicon true 0
        (Cursor.ofText "0X8000000000000000l;".toList) = .ok (t, c') ∧
      ofLiteral t = .ok (.integer k (2 ^ 63) hk) ∧ Suits .hexInteger ['l'] (2 ^ 63) k) ∧
    ∃ t c', Token.next ({} : Environment).lexicon true 0
        (Cursor.ofText "9223372036854775808;".toList) = .ok (t, c') ∧
      ofLiteral t = .error ((Fault.of .signedIntegerTooLarge).placed t.position) := by
  constructor
  · have hRead : (Token.next ({} : Environment).lexicon true 0
        (Cursor.ofText "0X8000000000000000l;".toList)).toOption.any (fun r =>
          r.1.kind == .literal .hexInteger && r.1.text == "0X8000000000000000l") = true := by
      decide +kernel
    obtain ⟨⟨t, c'⟩, hNext, hToken⟩ := any_toOption hRead
    rw [Bool.and_eq_true, beq_iff_eq, beq_iff_eq] at hToken
    obtain ⟨hKind, hText⟩ := hToken
    have hSpells : LiteralKind.Spells .hexInteger 16 "8000000000000000".toList ['l'] t.text.toList :=
      ⟨⟨['0', 'X'], .hex (Or.inr rfl), by rw [hText]; rfl⟩, by decide,
        List.all_iff_forall_prop.mp (by decide), List.all_iff_forall_prop.mp (by decide)⟩
    have hValue : positionalValue 16 "8000000000000000".toList = 2 ^ 63 := by decide +kernel
    have hFits : ¬ Exceeds .hexInteger ['l'] (2 ^ 63) := by
      rintro (hLarge | ⟨hDecimal, -⟩)
      · exact absurd hLarge (by decide)
      · cases hDecimal
    have hConstant := ((integer_literals hNext hKind (by decide)).2 _ _ _ hSpells).2
    rw [hValue] at hConstant
    obtain ⟨k, hk, hConstant, hSuits⟩ := hConstant hFits
    exact ⟨t, c', k, hk, hNext, hConstant, hSuits⟩
  · have hRead : (Token.next ({} : Environment).lexicon true 0
        (Cursor.ofText "9223372036854775808;".toList)).toOption.any (fun r =>
          r.1.kind == .literal .decInteger && r.1.text == "9223372036854775808") = true := by
      decide +kernel
    obtain ⟨⟨t, c'⟩, hNext, hToken⟩ := any_toOption hRead
    rw [Bool.and_eq_true, beq_iff_eq, beq_iff_eq] at hToken
    obtain ⟨hKind, hText⟩ := hToken
    have hSpells : LiteralKind.Spells .decInteger 10 "9223372036854775808".toList [] t.text.toList :=
      ⟨⟨[], .decimal, by rw [hText]; rfl⟩, by decide,
        List.all_iff_forall_prop.mp (by decide), List.forall_mem_nil _⟩
    have hValue : positionalValue 10 "9223372036854775808".toList = 2 ^ 63 := by decide +kernel
    have hExceeds : Exceeds .decInteger [] (2 ^ 63) := Or.inr ⟨rfl, by simp [IsUnsigned], by decide⟩
    have hFault := ((integer_literals hNext hKind (by decide)).2 _ _ _ hSpells).1
    rw [hValue] at hFault
    exact ⟨t, c', hNext, hFault hExceeds⟩

end Constant

end IdlReader
