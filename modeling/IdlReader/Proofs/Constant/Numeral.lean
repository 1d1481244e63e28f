import IdlReader.Constant.Literal
import IdlReader.Proofs.Constant.Cast
import IdlReader.Proofs.Token.Tiling
import Mathlib.Data.List.TakeWhile

/-!
# Decimal numerals

Numbers are read from their decimal digits and displayed by them. The text of a constant tells its
integer or its content, whatever its kind is: numbers are written with digits and a sign, truth
values with letters, and texts between quotes.

* `ofLiteralText_decimal`: the integer that decimal digits write.
* `castInt_uint32`, `castInt_uint64_of_lt`: the same integer as an unsigned one of 32 or 64 bits.
* `alike_of_display`: constants that are displayed the same.
-/

namespace IdlReader.Constant

open IntegerKind

theorem digitsValue?_append (radix : Nat) (s t : List Char) :
    digitsValue? radix (s ++ t) = (digitsValue? radix s).bind fun v =>
      t.foldlM (fun v c => (Text.digitValue? radix c).map (v * radix + ·)) v := by
  unfold digitsValue?
  rw [List.foldlM_append]
  rfl

theorem digitValue?_digitChar : ∀ d < 10, Text.digitValue? 10 d.digitChar = some d := by decide

/-- Decimal digits write the number that they are of. -/
theorem digitsValue?_toDigits (n : Nat) : digitsValue? 10 (Nat.toDigits 10 n) = some n := by
  induction n using Nat.strongRecOn with
  | ind n ih =>
    by_cases hSmall : n < 10
    · rw [Nat.toDigits_of_lt_base hSmall]
      unfold digitsValue?
      rw [List.foldlM_cons, digitValue?_digitChar n hSmall]
      simp
    · rw [Nat.toDigits_of_base_le (by decide) (Nat.le_of_not_lt hSmall), digitsValue?_append,
        ih (n / 10) (by omega), Option.bind_some, List.foldlM_cons,
        digitValue?_digitChar (n % 10) (Nat.mod_lt n (by decide))]
      have hSum : n / 10 * 10 + n % 10 = n := by omega
      simp [hSum]

/-- What stands behind digits is dropped, and no digit is. -/
theorem dropTrailing_digits {p : Char → Bool} {s t : List Char} (hs : ∀ c ∈ s, p c = false)
    (ht : ∀ c ∈ t, p c = true) : Text.dropTrailing p (s ++ t) = s := by
  induction s with
  | nil =>
    rw [List.nil_append, Text.dropTrailing, List.reverse_eq_nil_iff, List.dropWhile_eq_nil_iff]
    exact fun c hc => ht c (List.mem_reverse.mp hc)
  | cons c s ih =>
    rw [List.cons_append, Text.dropTrailing_cons (hs c List.mem_cons_self),
      ih fun d hd => hs d (List.mem_cons_of_mem c hd)]

theorem dropTrailing_toDigits (n : Nat) :
    Text.dropTrailing isIntegerSuffix (Nat.toDigits 10 n) = Nat.toDigits 10 n := by
  have hDigits : ∀ c ∈ Nat.toDigits 10 n, isIntegerSuffix c = false := by
    intro c hc
    have hDigit := Nat.isDigit_of_mem_toDigits (by decide) (by decide) hc
    refine Bool.eq_false_iff.mpr fun hSuffix => ?_
    simp only [isIntegerSuffix, Bool.or_eq_true, beq_iff_eq] at hSuffix
    rcases hSuffix with ((rfl | rfl) | rfl) | rfl <;> cases hDigit
  have hDropped := dropTrailing_digits hDigits (List.forall_mem_nil _)
  rwa [List.append_nil] at hDropped

/-- The integer that decimal digits write, in the first signed kind that holds it. -/
theorem ofLiteralText_decimal {n : Nat} (hn : n < 2 ^ 63) :
    ∃ k : IntegerKind, ∃ hk : k.Holds n,
      ofLiteralText .decInteger (toString n).toList = .ok (.integer k n hk) := by
  have hKind : ∃ k, firstKind? signedLadder n = some k := by
    cases hFirst : firstKind? signedLadder n with
    | some k => exact ⟨k, rfl⟩
    | none =>
      have hNone := List.find?_eq_none.mp hFirst .int64 (by decide)
      have hLe : (n : Int) ≤ IntegerKind.int64.greatest := by
        change (n : Int) ≤ 2 ^ 63 - 1
        omega
      exact absurd (decide_eq_true hLe) hNone
  obtain ⟨k, hFirst⟩ := hKind
  have hGreatest : (n : Int) ≤ k.greatest := by simpa using List.find?_some hFirst
  have hLeast : k.least ≤ 0 := by cases k <;> decide
  have hHolds : k.Holds n := ⟨by omega, hGreatest⟩
  refine ⟨k, hHolds, ?_⟩
  change integerOf 10 (toString n).toList = _
  rw [Nat.toString_eq_ofList_toDigits, String.toList_ofList]
  unfold integerOf
  dsimp only
  rw [dropTrailing_toDigits, digitsValue?_toDigits, List.drop_length]
  dsimp only
  have hSmall : ¬ IntegerKind.uint64.greatest < (n : Int) := by
    change ¬ (2 : Int) ^ 64 - 1 < n
    omega
  rw [if_neg hSmall, List.any_nil, if_neg (by decide), hFirst, integer_eq_ofInt]

/-- An integer that a kind holds is cast to this kind without a change. -/
theorem castInt_of_holds {k k' : IntegerKind} {v : Int} (hk : k.Holds v) (hk' : k'.Holds v)
    (hBool : k' ≠ .bool) : (Constant.integer k v hk).castInt k' = .ok v := by
  unfold castInt
  rw [(cast_integer hk hBool).1 (.inl hk'), ← integer_eq_ofInt hk']
  rfl

theorem castInt_uint32 {k : IntegerKind} {n : Nat} (hk : k.Holds n) (hn : n < 2 ^ 32) :
    (Constant.integer k n hk).castInt .uint32 = .ok n := by
  refine castInt_of_holds hk ⟨?_, ?_⟩ (by decide)
  · change (0 : Int) ≤ n
    omega
  · change (n : Int) ≤ 2 ^ 32 - 1
    omega

theorem castInt_uint64_of_lt {k : IntegerKind} {n : Nat} (hk : k.Holds n) (hn : n < 2 ^ 63) :
    (Constant.integer k n hk).castInt .uint64 = .ok n := by
  refine castInt_of_holds hk ⟨?_, ?_⟩ (by decide)
  · change (0 : Int) ≤ n
    omega
  · change (n : Int) ≤ 2 ^ 64 - 1
    omega

/-! ## Numbers as texts -/

theorem isDigit_of_mem_repr {n : Nat} {c : Char} (h : c ∈ (Nat.repr n).toList) :
    c.isDigit = true := by
  rw [Nat.repr_eq_ofList_toDigits, String.toList_ofList] at h
  exact Nat.isDigit_of_mem_toDigits (by decide) (by decide) h

theorem toString_negSucc (n : Nat) : toString (Int.negSucc n) = "-" ++ Nat.repr (n + 1) := rfl

/-- A number is written with digits and a sign. -/
theorem isDigit_of_mem_toString {v : Int} {c : Char} (h : c ∈ (toString v).toList) :
    c = '-' ∨ c.isDigit = true := by
  cases v with
  | ofNat n => exact Or.inr (isDigit_of_mem_repr h)
  | negSucc n =>
    rw [toString_negSucc, String.toList_append] at h
    rcases List.mem_append.mp h with hSign | hDigit
    · exact Or.inl (by simpa using hSign)
    · exact Or.inr (isDigit_of_mem_repr hDigit)

theorem repr_inj {m n : Nat} (h : Nat.repr m = Nat.repr n) : m = n := by
  rw [Nat.repr_eq_ofList_toDigits, Nat.repr_eq_ofList_toDigits, String.ofList_inj] at h
  have hValue := digitsValue?_toDigits m
  rw [h, digitsValue?_toDigits n] at hValue
  exact (Option.some.inj hValue).symm

theorem repr_ne_minus (m n : Nat) : Nat.repr m ≠ "-" ++ Nat.repr n := by
  intro h
  have hDigit : '-'.isDigit = true := isDigit_of_mem_repr (n := m) (by simp [h])
  cases hDigit

theorem toString_inj {v w : Int} (h : toString v = toString w) : v = w := by
  cases v with
  | ofNat m =>
    cases w with
    | ofNat n => exact congrArg Int.ofNat (repr_inj h)
    | negSucc n => exact absurd h (repr_ne_minus m (n + 1))
  | negSucc m =>
    cases w with
    | ofNat n => exact absurd h.symm (repr_ne_minus n (m + 1))
    | negSucc n =>
      rw [toString_negSucc, toString_negSucc, ← String.toList_inj, String.toList_append,
        String.toList_append] at h
      have hTail := String.toList_inj.mp (List.append_cancel_left h)
      exact congrArg Int.negSucc (Nat.succ.inj (repr_inj hTail))

/-! ## Constants as texts -/

theorem display_integer {k : IntegerKind} {v : Int} (h : k.Holds v) :
    (integer k v h).display =
      if k = .bool then if v = 0 then "false" else "true" else toString v := by
  cases k <;> rfl

/-- Integers of any kinds that are displayed the same are equal. -/
theorem integer_eq_of_display {c c' : Constant} {v w : Int} (hv : c.integer? = some v)
    (hw : c'.integer? = some w) (h : c.display = c'.display) : v = w := by
  have hWord : ∀ n w : Int, (if n = 0 then "false" else "true") ≠ toString w := by
    intro n w hEq
    have hMem : 'e' ∈ (toString w).toList := by
      rw [← hEq]
      split <;> decide
    rcases isDigit_of_mem_toString hMem with hFalse | hFalse <;> revert hFalse <;> decide
  have hTruth : ∀ {n : Int}, IntegerKind.bool.Holds n → n = 0 ∨ n = 1 := by
    intro n ⟨hLeast, hGreatest⟩
    simp [IntegerKind.least, IntegerKind.greatest, IntegerKind.bits, IntegerKind.isSigned]
      at hLeast hGreatest
    omega
  cases c with
  | real | text => cases hv
  | integer k v hk =>
    cases c' with
    | real | text => cases hw
    | integer k' w hk' =>
      cases hv
      cases hw
      rw [display_integer, display_integer] at h
      by_cases hBool : k = .bool
      · by_cases hBool' : k' = .bool
        · subst hBool hBool'
          rcases hTruth hk with rfl | rfl <;> rcases hTruth hk' with rfl | rfl <;> simp at h ⊢
        · rw [if_pos hBool, if_neg hBool'] at h
          exact absurd h (hWord _ _)
      · by_cases hBool' : k' = .bool
        · rw [if_neg hBool, if_pos hBool'] at h
          exact absurd h.symm (hWord _ _)
        · rw [if_neg hBool, if_neg hBool'] at h
          exact toString_inj h

/-- Texts of any kinds that are displayed the same are equal. -/
theorem text_eq_of_display {c c' : Constant} {s s' : String} (hs : c.text? = some s)
    (hs' : c'.text? = some s') (h : c.display = c'.display) : s = s' := by
  cases c with
  | integer | real => cases hs
  | text k =>
    cases c' with
    | integer | real => cases hs'
    | text k' =>
      cases hs
      cases hs'
      have hList := congrArg String.toList h
      refine String.toList_inj.mp ?_
      unfold display at hList
      revert hList
      cases k <;> cases k' <;> simp [encodingMark]

/-- Whether constants have the same integer or the same text, if they have any. -/
structure Alike (c c' : Constant) : Prop where
  integer : ∀ v w, c.integer? = some v → c'.integer? = some w → v = w
  text : ∀ s s', c.text? = some s → c'.text? = some s' → s = s'

theorem alike_of_display {c c' : Constant} (h : c.display = c'.display) : c.Alike c' :=
  ⟨fun _ _ hv hw => integer_eq_of_display hv hw h, fun _ _ hs hs' => text_eq_of_display hs hs' h⟩

end IdlReader.Constant
