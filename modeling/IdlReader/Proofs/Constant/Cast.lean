import IdlReader.Proofs.Constant.Arithmetic

/-!
# Casts of integer constants

An integer is cast to another kind if it lies in its range, or if it is negative and the signed kind
of the same width has it. What a cast changes is a multiple of two to the width. Two integers are
brought to the kind of the higher rank, which has room for both.

* `castInteger_of_fitsCast`, `castInteger_of_not_fitsCast`: when a cast succeeds, and what it gives.
* `widens_commonKind`: the common kind has room for the integers of both kinds.
* `equalize_integers`: equalization does not fail.
* `integer_casts`: casts and equalization lose nothing silently.
-/

namespace IdlReader

namespace IntegerKind

/-- Whether an integer of the kind `k` may be cast to the kind `t`: it lies in the range of `t`, or
it is negative, `t` is unsigned and the signed kind of its width has the integer. -/
def FitsCast (k t : IntegerKind) (v : Int) : Prop :=
  t.Holds v ∨ (k.isSigned = true ∧ t.isSigned = false ∧ v < 0 ∧
    ∃ s : IntegerKind, s.isSigned = true ∧ s.bits = t.bits ∧ s.least ≤ v)

theorem least_of_isSigned {s t : IntegerKind} (hSigned : s.isSigned = true)
    (hBits : s.bits = t.bits) : s.least = t.signedLeast := by
  unfold least signedLeast
  rw [if_pos hSigned, hBits]

theorem least_of_not_isSigned {t : IntegerKind} (h : t.isSigned = false) : t.least = 0 := by
  unfold least
  rw [h, if_neg Bool.false_ne_true]

/-- Every unsigned kind but that of truth values has a signed kind of its width. -/
theorem exists_signed {t : IntegerKind} (hBool : t ≠ .bool) :
    ∃ s : IntegerKind, s.isSigned = true ∧ s.bits = t.bits := by
  cases t
  case bool => exact absurd rfl hBool
  case int8 | uint8 => exact ⟨.int8, rfl, rfl⟩
  case int16 | uint16 => exact ⟨.int16, rfl, rfl⟩
  case int32 | uint32 => exact ⟨.int32, rfl, rfl⟩
  case int64 | uint64 => exact ⟨.int64, rfl, rfl⟩

theorem nonneg_of_holds {t : IntegerKind} {v : Int} (h : t.Holds v) (hSign : t.isSigned = false) :
    0 ≤ v := least_of_not_isSigned hSign ▸ h.1

theorem zero_le_greatest (t : IntegerKind) : 0 ≤ t.greatest := by
  cases t <;> decide

end IntegerKind

namespace Constant

open IntegerKind

variable {k l t : IntegerKind} {v w : Int}

/-! ## Casts -/

theorem castInteger_of_fitsCast (hBool : t ≠ .bool) (h : FitsCast k t v) :
    castInteger k v t = .ok (ofInt t v) := by
  unfold castInteger
  rw [if_neg hBool]
  rcases h with hHolds | ⟨hSigned, hUnsigned, hNegative, s, hSign, hBits, hLeast⟩
  · rw [if_neg (Int.not_lt.mpr hHolds.2), if_neg (Int.not_lt.mpr hHolds.1)]
    split
    · rename_i hSigns
      obtain ⟨-, hUnsigned⟩ : k.isSigned = true ∧ t.isSigned = false := by simpa using hSigns
      obtain ⟨s, hSign, hBits⟩ := exists_signed hBool
      have hNonneg := nonneg_of_holds hHolds hUnsigned
      have hBelow : t.signedLeast ≤ 0 := by
        have hPow : (0 : Int) ≤ Int.pow 2 (t.bits - 1) := Int.pow_nonneg (by decide)
        exact Int.neg_nonpos_of_nonneg hPow
      exact if_neg (by omega)
    · rfl
  · have hAbove := zero_le_greatest t
    rw [if_neg (by omega), hSigned, hUnsigned, if_pos (by decide), if_neg]
    rw [← least_of_isSigned hSign hBits]
    omega

theorem castInteger_of_not_fitsCast (hBool : t ≠ .bool) (h : ¬ FitsCast k t v) :
    ∃ cause, castInteger k v t = .error cause := by
  unfold castInteger
  rw [if_neg hBool]
  split
  · exact ⟨_, rfl⟩
  · rename_i hAbove
    split
    · rename_i hSigns
      obtain ⟨hSigned, hUnsigned⟩ : k.isSigned = true ∧ t.isSigned = false := by simpa using hSigns
      split
      · exact ⟨_, rfl⟩
      · rename_i hBelow
        obtain ⟨s, hSign, hBits⟩ := exists_signed hBool
        refine absurd ?_ h
        by_cases hNegative : v < 0
        · refine Or.inr ⟨hSigned, hUnsigned, hNegative, s, hSign, hBits, ?_⟩
          rw [least_of_isSigned hSign hBits]
          omega
        · refine Or.inl ⟨?_, by omega⟩
          rw [least_of_not_isSigned hUnsigned]
          omega
    · split
      · exact ⟨_, rfl⟩
      · exact absurd (Or.inl ⟨by omega, by omega⟩) h

theorem cast_integer (hv : k.Holds v) (hBool : t ≠ .bool) :
    (FitsCast k t v → (Constant.integer k v hv).cast (.integer t) = .ok (ofInt t v)) ∧
    (¬ FitsCast k t v → ∃ cause, (Constant.integer k v hv).cast (.integer t) = .error cause) := by
  unfold cast
  split
  · rename_i hKind
    cases hKind
    exact ⟨fun _ => congrArg Except.ok (integer_eq_ofInt hv), fun h => absurd (Or.inl hv) h⟩
  · exact ⟨castInteger_of_fitsCast hBool, castInteger_of_not_fitsCast hBool⟩

/-! ## The common kind -/

/-- Whatever their signs and widths are, two kinds are brought to the higher one. -/
theorem commonKind?_eq (a b : Kind) :
    commonKind? a b = if a = b then some a else if a.isText || b.isText then none
      else some (if a.rank < b.rank then b else a) := by
  rcases a with k | k | k <;> rcases b with l | l | l <;> cases k <;> cases l <;> rfl

/-- The kind of the higher rank. -/
def commonKind (k l : IntegerKind) : IntegerKind := if k.rank < l.rank then l else k

theorem commonKind?_integer (k l : IntegerKind) :
    commonKind? (.integer k) (.integer l) = some (.integer (commonKind k l)) := by
  rw [commonKind?_eq]
  cases k <;> cases l <;> rfl

theorem commonKind_comm (k l : IntegerKind) : commonKind k l = commonKind l k := by
  cases k <;> cases l <;> rfl

theorem rank_commonKind (k l : IntegerKind) : (commonKind k l).rank = max k.rank l.rank := by
  cases k <;> cases l <;> rfl

theorem commonKind_mem (k l : IntegerKind) : commonKind k l ∈ [k, l] := by
  unfold commonKind
  split
  · exact List.mem_cons_of_mem _ List.mem_cons_self
  · exact List.mem_cons_self

/-- The common kind of an integer's kind and another one is its own or has room for it. -/
theorem widens_commonKind (k l : IntegerKind) :
    commonKind k l = k ∨ Widens k (commonKind k l) := by
  cases k <;> cases l <;> decide

theorem cast_commonKind (hv : k.Holds v) (l : IntegerKind) :
    (Constant.integer k v hv).cast (.integer (commonKind k l)) = .ok (ofInt (commonKind k l) v) := by
  rcases widens_commonKind k l with hSame | hWidens
  · rw [hSame]
    exact (if_pos rfl).trans (congrArg Except.ok (integer_eq_ofInt hv))
  · rw [integer_eq_ofInt hv]
    exact cast_of_widens hWidens hv

/-- Only a negative integer that becomes unsigned does not stay what it is. -/
theorem holds_commonKind (hv : k.Holds v) (l : IntegerKind)
    (h : (commonKind k l).isSigned = true ∨ 0 ≤ v) : (commonKind k l).Holds v := by
  rcases widens_commonKind k l with hSame | ⟨-, hGreatest, hLeast⟩
  · rwa [hSame]
  · refine ⟨?_, hv.2.trans hGreatest⟩
    by_cases hSigned : (commonKind k l).isSigned = true
    · rw [hSigned, Bool.not_true, Bool.and_false, if_neg Bool.false_ne_true] at hLeast
      exact hLeast.trans hv.1
    · rw [least_of_not_isSigned (Bool.eq_false_iff.mpr hSigned)]
      exact h.resolve_left hSigned

theorem equalize_integers (hv : k.Holds v) (hw : l.Holds w) :
    equalize (.integer k v hv) (.integer l w hw) =
      .ok (ofInt (commonKind k l) v, ofInt (commonKind k l) w) := by
  have hLeft := cast_commonKind hv l
  have hRight := cast_commonKind hw k
  rw [commonKind_comm] at hRight
  unfold equalize
  simp only [Constant.kind, commonKind?_integer, hLeft, hRight]
  rfl

/-! ## Nothing is lost silently -/

/-- A cast of an integer succeeds exactly if the integer lies in the range of the new kind, or if
it is negative, becomes unsigned and lies in the range of the signed kind of the same width. It gives
the integer of the new kind that is congruent modulo two to the width, and the same integer if this
is in range. Two integers are always equalized, in whatever order they come: they get the kind of
the higher rank, stay congruent, and stay the same unless a negative one becomes unsigned. -/
theorem integer_casts (hv : k.Holds v) :
    (∀ t : IntegerKind, t ≠ .bool →
      let result := (Constant.integer k v hv).cast (.integer t)
      ((∃ d, result = .ok d) ↔ FitsCast k t v) ∧
      ∀ d, result = .ok d → Represents d t v ∧ (t.Holds v → d.integer? = some v)) ∧
    ∀ (l : IntegerKind) (w : Int) (hw : l.Holds w),
      ∃ kind ∈ [k, l], kind.rank = max k.rank l.rank ∧ ∃ x y,
        equalize (.integer k v hv) (.integer l w hw) = .ok (x, y) ∧
        equalize (.integer l w hw) (.integer k v hv) = .ok (y, x) ∧
        Represents x kind v ∧ Represents y kind w ∧
        (kind.isSigned = true ∨ 0 ≤ v → x.integer? = some v) ∧
        (kind.isSigned = true ∨ 0 ≤ w → y.integer? = some w) := by
  constructor
  · intro t hBool
    obtain ⟨hFits, hRefused⟩ := cast_integer hv hBool
    by_cases hCast : FitsCast k t v
    · refine ⟨⟨fun _ => hCast, fun _ => ⟨_, hFits hCast⟩⟩, fun d hd => ?_⟩
      cases (hFits hCast).symm.trans hd
      exact ⟨represents_ofInt t v, fun hHolds => congrArg some (wrap_of_holds hHolds)⟩
    · obtain ⟨cause, hCause⟩ := hRefused hCast
      have hNone : ∀ d, (Constant.integer k v hv).cast (.integer t) ≠ .ok d := by
        intro d hd
        cases hCause.symm.trans hd
      exact ⟨⟨fun ⟨d, hd⟩ => absurd hd (hNone d), fun h => absurd h hCast⟩,
        fun d hd => absurd hd (hNone d)⟩
  · intro l w hw
    have hSwapped := equalize_integers hw hv
    rw [commonKind_comm] at hSwapped
    refine ⟨commonKind k l, commonKind_mem k l, rank_commonKind k l, _, _, equalize_integers hv hw,
      hSwapped, represents_ofInt _ v, represents_ofInt _ w, fun h => ?_, fun h => ?_⟩
    · exact congrArg some (wrap_of_holds (holds_commonKind hv l h))
    · rw [commonKind_comm] at h ⊢
      exact congrArg some (wrap_of_holds (holds_commonKind hw k h))

/-- The `int16` of value minus 200 does not become an `uint8`, as no signed integer of 8 bits has
this value; minus 100 does, with the value 156. With an `uint32` it is brought to `uint32`. -/
theorem integer_casts_negative :
    (¬ ∃ d, (Constant.integer .int16 (-200) (by decide)).cast (.integer .uint8) = .ok d) ∧
    (∃ d, (Constant.integer .int16 (-100) (by decide)).cast (.integer .uint8) = .ok d ∧
      Represents d .uint8 (-100)) ∧
    ∃ x y, equalize (.integer .int16 (-100) (by decide)) (.integer .uint32 7 (by decide)) =
      .ok (x, y) ∧ Represents x .uint32 (-100) ∧ y.integer? = some 7 := by
  have hLow : IntegerKind.int16.Holds (-200) := by decide
  have hv : IntegerKind.int16.Holds (-100) := by decide
  have hw : IntegerKind.uint32.Holds 7 := by decide
  refine ⟨fun hCast => ?_, ?_, ?_⟩
  · obtain ⟨hHolds, -⟩ | ⟨-, -, -, s, hSigned, hBits, hLeast⟩ :=
      ((integer_casts hLow).1 .uint8 (by decide)).1.mp hCast
    · exact absurd hHolds (by decide)
    · cases s <;> revert hSigned hBits hLeast <;> decide
  · obtain ⟨hIff, hResult⟩ := (integer_casts hv).1 .uint8 (by decide)
    obtain ⟨d, hd⟩ := hIff.mpr (Or.inr ⟨rfl, rfl, by decide, .int8, rfl, rfl, by decide⟩)
    exact ⟨d, hd, (hResult d hd).1⟩
  · obtain ⟨kind, hKind, hRank, x, y, hEqualize, -, hx, -, -, hy⟩ :=
      (integer_casts hv).2 .uint32 7 hw
    obtain rfl : kind = .uint32 := by
      cases kind <;> revert hRank <;> decide
    exact ⟨x, y, hEqualize, hx, hy (Or.inr (by decide))⟩

end Constant

end IdlReader
