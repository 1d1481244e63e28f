import IdlReader.Constant.Operator
import Mathlib.Data.Int.Bitwise
import Mathlib.Data.Int.ModEq
import Mathlib.Tactic.Linarith
import Mathlib.Tactic.Ring

/-!
# Arithmetic of integer constants

Two integers are combined in the kind `arithmeticKind`, into which both are reduced. What an
operator means on the reduced integers is an exact integer (`exact?`) or a truth value
(`comparison?`), neither of which knows about widths.

* `binary_integer`: an operator that is not logical is refused, or computes on the reduced
  integers; the casts on the way do not fail.
* `wide_exact`: except for products, 128 bits hold the exact results.
* `integer_arithmetic`: the result is the constant of the common kind that is congruent to the
  exact result, and an operator is refused in the listed cases only.
-/

namespace IdlReader

/-! ## Bits of integers -/

theorem getElem_ofInt {n : Nat} (x : Int) {i : Nat} (hi : i < n) :
    (BitVec.ofInt n x)[i] = x.testBit i := by
  have hNat : ∀ m : Nat, (BitVec.ofNat n m)[i] = m.testBit i := by
    intro m
    rw [BitVec.getElem_eq_testBit_toNat, BitVec.toNat_ofNat, Nat.testBit_mod_two_pow]
    simp [hi]
  cases x with
  | ofNat m => simpa [Int.testBit] using hNat m
  | negSucc m => simpa [Int.testBit] using hNat m

theorem ofInt_land (n : Nat) (x y : Int) :
    BitVec.ofInt n (Int.land x y) = BitVec.ofInt n x &&& BitVec.ofInt n y := by
  ext i hi
  simp [getElem_ofInt, Int.testBit_land]

theorem ofInt_lor (n : Nat) (x y : Int) :
    BitVec.ofInt n (Int.lor x y) = BitVec.ofInt n x ||| BitVec.ofInt n y := by
  ext i hi
  simp [getElem_ofInt, Int.testBit_lor]

theorem ofInt_xor (n : Nat) (x y : Int) :
    BitVec.ofInt n (Int.xor x y) = BitVec.ofInt n x ^^^ BitVec.ofInt n y := by
  ext i hi
  simp [getElem_ofInt, Int.testBit_lxor]

/-- Whether an integer has no more than `n` bits besides its sign. -/
def Fits (n : Nat) (x : Int) : Prop := -2 ^ n ≤ x ∧ x < 2 ^ n

theorem Fits.mono {m n : Nat} (hmn : m ≤ n) {x : Int} (h : Fits m x) : Fits n x := by
  have hPow : (2 : Int) ^ m ≤ 2 ^ n := by exact_mod_cast Nat.pow_le_pow_right (by decide) hmn
  obtain ⟨hLeast, hGreatest⟩ := h
  exact ⟨by omega, by omega⟩

theorem fits_of_natAbs_le {n : Nat} {x y : Int} (hx : Fits n x) (h : y.natAbs ≤ x.natAbs) :
    Fits (n + 1) y := by
  have hPow : (2 : Int) ^ (n + 1) = 2 ^ n + 2 ^ n := by ring
  obtain ⟨hLeast, hGreatest⟩ := hx
  unfold Fits
  omega

theorem fits_mul_pow {m n : Nat} {x : Int} (h : Fits m x) : Fits (m + n) (x * 2 ^ n) := by
  have hPos : (0 : Int) < 2 ^ n := Int.pow_pos (by decide)
  unfold Fits
  rw [pow_add]
  constructor
  · have := mul_le_mul_of_nonneg_right h.1 hPos.le
    linarith
  · exact mul_lt_mul_of_pos_right h.2 hPos

theorem fits_fdiv_pow {m n : Nat} {x : Int} (h : Fits m x) : Fits m (x.fdiv (2 ^ n)) := by
  have hPos : (0 : Int) < 2 ^ n := Int.pow_pos (by decide)
  have hGrow : (2 : Int) ^ m ≤ 2 ^ m * 2 ^ n :=
    le_mul_of_one_le_right (Int.pow_nonneg (by decide)) hPos
  obtain ⟨hLeast, hGreatest⟩ := h
  rw [Int.fdiv_eq_ediv_of_nonneg _ hPos.le]
  constructor
  · rw [Int.le_ediv_iff_mul_le hPos]
    linarith
  · rw [Int.ediv_lt_iff_lt_mul hPos]
    linarith

theorem natBitwise_fits (f : Bool → Bool → Bool) {n a b : Nat} (ha : a < 2 ^ n)
    (hb : b < 2 ^ n) : Fits n (Int.natBitwise f a b) := by
  unfold Fits Int.natBitwise
  cases f false false with
  | false =>
    have hLt : ((Nat.bitwise f a b : Nat) : Int) < 2 ^ n := by
      exact_mod_cast Nat.bitwise_lt_two_pow ha hb
    simp only [cond_false]
    omega
  | true =>
    have hLt : ((Nat.bitwise (fun x y => !f x y) a b : Nat) : Int) < 2 ^ n := by
      exact_mod_cast Nat.bitwise_lt_two_pow ha hb
    simp only [cond_true]
    omega

theorem bitwise_fits (f : Bool → Bool → Bool) {n : Nat} {x y : Int} (hx : Fits n x)
    (hy : Fits n y) : Fits n (Int.bitwise f x y) := by
  have hNat : ∀ {m : Nat}, Fits n m → m < 2 ^ n := by
    intro m hm
    exact_mod_cast hm.2
  have hNeg : ∀ {m : Nat}, Fits n (Int.negSucc m) → m < 2 ^ n := by
    intro m hm
    have hLe := hm.1
    rw [Int.negSucc_eq] at hLe
    have hLt : (m : Int) < 2 ^ n := by omega
    exact_mod_cast hLt
  cases x with
  | ofNat a =>
    cases y with
    | ofNat b => exact natBitwise_fits f (hNat hx) (hNat hy)
    | negSucc b => exact natBitwise_fits (fun p q => f p (!q)) (hNat hx) (hNeg hy)
  | negSucc a =>
    cases y with
    | ofNat b => exact natBitwise_fits (fun p q => f (!p) q) (hNeg hx) (hNat hy)
    | negSucc b => exact natBitwise_fits (fun p q => f (!p) (!q)) (hNeg hx) (hNeg hy)

namespace IntegerKind

theorem wrap_modEq (k : IntegerKind) (r : Int) : k.wrap r ≡ r [ZMOD 2 ^ k.bits] := by
  unfold wrap Int.ModEq
  split
  · exact_mod_cast Int.bmod_emod (x := r) (m := 2 ^ k.bits)
  · exact Int.emod_emod_of_dvd r dvd_rfl

theorem Holds.fits {k : IntegerKind} {v : Int} (h : k.Holds v) : Fits 64 v := by
  revert h
  cases k <;> simp [Holds, Fits, least, greatest, isSigned, signedLeast, bits] <;> omega

end IntegerKind

/-! ## What the operators mean -/

/-- The kind in which integers of two kinds are combined. -/
def arithmeticKind (k l : IntegerKind) : IntegerKind :=
  if k = .uint64 ∨ l = .uint64 then .uint64
  else if k = .int64 ∨ l = .int64 then .int64
  else if k = .uint32 ∨ l = .uint32 then .uint32
  else .int32

/-- What a comparison says about two integers. -/
def BinaryOperator.comparison? (op : BinaryOperator) (x y : Int) : Option Bool :=
  match op with
  | .lt => some (x < y)
  | .le => some (x ≤ y)
  | .gt => some (x > y)
  | .ge => some (x ≥ y)
  | .eq => some (x = y)
  | .ne => some (x ≠ y)
  | _ => none

/-- The integer that an operator makes of two integers. Division goes toward zero, a shift
to the right toward the lower integer, and the operators on bits see both integers in two's
complement without an end. -/
def BinaryOperator.exact? (op : BinaryOperator) (x y : Int) : Option Int :=
  match op with
  | .mul => some (x * y)
  | .div => some (x.tdiv y)
  | .rem => some (x.tmod y)
  | .add => some (x + y)
  | .sub => some (x - y)
  | .shl => some (x * 2 ^ y.toNat)
  | .shr => some (x.fdiv (2 ^ y.toNat))
  | .bitAnd => some (Int.land x y)
  | .bitXor => some (Int.xor x y)
  | .bitOr => some (Int.lor x y)
  | _ => none

/-- The integer that a unary operator makes of an integer. -/
def UnaryOperator.exact? (op : UnaryOperator) (x : Int) : Option Int :=
  match op with
  | .plus => some x
  | .minus => some (-x)
  | .bitNot => some (Int.lnot x)
  | .not => none

/-- What 128 bits keep of an integer. -/
def wide (r : Int) : Int := Int.bmod r (2 ^ 128)

/-- The operators that work on bits. -/
def bitOperators : List BinaryOperator := [.shl, .shr, .bitAnd, .bitXor, .bitOr]

/-- When an operator is refused for integers of the kinds `k` and `l`, of which `y` is the
second one in their common kind. -/
def Refused (op : BinaryOperator) (k l : IntegerKind) (y : Int) : Prop :=
  (op ∈ bitOperators ∧ (k = .bool ∨ l = .bool)) ∨
    (op ∈ [.div, .rem] ∧ ((k = .bool ∧ l = .bool) ∨ y = 0)) ∨
    (op ∈ [.shl, .shr] ∧ (y < 0 ∨ (arithmeticKind k l).bits ≤ y))

/-- Whether a constant is the integer of a kind that is congruent to `r` modulo two to the
width. -/
def Represents (c : Constant) (k : IntegerKind) (r : Int) : Prop :=
  ∃ (z : Int) (hz : k.Holds z), c = .integer k z hz ∧ z ≡ r [ZMOD 2 ^ k.bits]

/-! ## Room for the results -/

theorem wide_of_fits {r : Int} (h : Fits 127 r) : wide r = r := by
  unfold Fits at h
  exact Int.bmod_eq_of_le_mul_two (by push_cast; omega) (by push_cast; omega)

/-- Except for products, 128 bits hold the exact results. -/
theorem wide_exact {op : BinaryOperator} {x y r : Int} (hx : Fits 64 x) (hy : Fits 64 y)
    (h : op.exact? x y = some r) (hMul : op ≠ .mul)
    (hShift : op ∈ [.shl, .shr] → y < 64) : wide r = r := by
  apply wide_of_fits
  cases op <;> cases h
  case mul => exact absurd rfl hMul
  case div =>
    exact (fits_of_natAbs_le hx (Int.natAbs_tdiv_le_natAbs x y)).mono (by decide)
  case rem =>
    have hLe : (x.tmod y).natAbs ≤ x.natAbs := by
      rw [Int.natAbs_tmod]
      exact Nat.mod_le _ _
    exact (fits_of_natAbs_le hx hLe).mono (by decide)
  case add => unfold Fits at *; omega
  case sub => unfold Fits at *; omega
  case shl =>
    have := hShift (by decide)
    exact (fits_mul_pow (n := y.toNat) hx).mono (by omega)
  case shr => exact (fits_fdiv_pow hx).mono (by decide)
  case bitAnd => exact (Int.bitwise_and ▸ bitwise_fits and hx hy).mono (by decide)
  case bitXor => exact (Int.bitwise_xor ▸ bitwise_fits xor hx hy).mono (by decide)
  case bitOr => exact (Int.bitwise_or ▸ bitwise_fits or hx hy).mono (by decide)

/-! ## The common kind -/

namespace Constant

/-- The kind that promotion gives to integers of a kind. -/
def promotedKind (k : IntegerKind) : IntegerKind :=
  if k.rank < IntegerKind.int32.rank then .int32 else k

theorem integer_eq_ofInt {k : IntegerKind} {v : Int} (h : k.Holds v) :
    Constant.integer k v h = ofInt k v := by
  simp only [ofInt, IntegerKind.wrap_of_holds h]

theorem promote_integer {k : IntegerKind} {v : Int} (h : k.Holds v) :
    (Constant.integer k v h).promote = ofInt (promotedKind k) v := by
  unfold promote promotedKind
  dsimp only
  split
  · rfl
  · exact integer_eq_ofInt h

theorem holds_promotedKind {k : IntegerKind} {v : Int} (h : k.Holds v) :
    (promotedKind k).Holds v := by
  revert h
  cases k <;>
    simp [promotedKind, IntegerKind.Holds, IntegerKind.least, IntegerKind.greatest,
      IntegerKind.isSigned, IntegerKind.signedLeast, IntegerKind.bits, IntegerKind.rank] <;>
    omega

/-- The kinds that promotion leaves as they are. -/
def promotedKinds : List IntegerKind := [.int32, .uint32, .int64, .uint64]

theorem promotedKind_mem (k : IntegerKind) : promotedKind k ∈ promotedKinds := by
  cases k <;> decide

theorem arithmeticKind_promotedKind (k l : IntegerKind) :
    arithmeticKind (promotedKind k) (promotedKind l) = arithmeticKind k l := by
  cases k <;> cases l <;> rfl

theorem commonKind?_promoted {k l : IntegerKind} (hk : k ∈ promotedKinds)
    (hl : l ∈ promotedKinds) :
    commonKind? (.integer k) (.integer l) = some (.integer (arithmeticKind k l)) := by
  have hAll : ∀ k ∈ promotedKinds, ∀ l ∈ promotedKinds,
      commonKind? (.integer k) (.integer l) = some (.integer (arithmeticKind k l)) := by
    decide
  exact hAll k hk l hl

/-- Whether the kind `t` has room for the integers of the kind `k`, negative ones of which
may become unsigned. -/
def Widens (k t : IntegerKind) : Prop :=
  t ≠ .bool ∧ k.greatest ≤ t.greatest ∧
    (if k.isSigned && !t.isSigned then t.signedLeast else t.least) ≤ k.least

instance (k t : IntegerKind) : Decidable (Widens k t) := inferInstanceAs (Decidable (_ ∧ _))

theorem widens_arithmeticKind {k l : IntegerKind} (hk : k ∈ promotedKinds)
    (hl : l ∈ promotedKinds) :
    Widens k (arithmeticKind k l) ∧ Widens l (arithmeticKind k l) := by
  have hAll : ∀ k ∈ promotedKinds, ∀ l ∈ promotedKinds,
      Widens k (arithmeticKind k l) ∧ Widens l (arithmeticKind k l) := by
    decide
  exact hAll k hk l hl

theorem castInteger_of_widens {k t : IntegerKind} (h : Widens k t) {v : Int}
    (hv : k.Holds v) : castInteger k v t = .ok (ofInt t v) := by
  obtain ⟨hBool, hGreatest, hLeast⟩ := h
  have hAbove : ¬ t.greatest < v := by
    have := hv.2
    omega
  unfold castInteger
  rw [if_neg hBool, if_neg hAbove]
  split at hLeast
  · rename_i hSign
    have hBelow : ¬ v < t.signedLeast := by
      have := hv.1
      omega
    rw [if_pos hSign, if_neg hBelow]
  · rename_i hSign
    have hBelow : ¬ v < t.least := by
      have := hv.1
      omega
    rw [if_neg hSign, if_neg hBelow]

theorem cast_of_widens {k t : IntegerKind} (h : Widens k t) {v : Int} (hv : k.Holds v) :
    (ofInt k v).cast (.integer t) = .ok (ofInt t v) := by
  unfold cast
  split
  · rename_i hKind
    cases hKind
    rfl
  · change castInteger k (k.wrap v) t = _
    rw [IntegerKind.wrap_of_holds hv]
    exact castInteger_of_widens h hv

/-- The casts to the common kind do not fail. -/
theorem equalize_promote {k l : IntegerKind} {v w : Int} (hv : k.Holds v) (hw : l.Holds w) :
    equalize (Constant.integer k v hv).promote (Constant.integer l w hw).promote =
      .ok (ofInt (arithmeticKind k l) v, ofInt (arithmeticKind k l) w) := by
  have hk := promotedKind_mem k
  have hl := promotedKind_mem l
  have hCommon := commonKind?_promoted hk hl
  obtain ⟨hWidensLeft, hWidensRight⟩ := widens_arithmeticKind hk hl
  rw [arithmeticKind_promotedKind] at hCommon hWidensLeft hWidensRight
  have hLeft := cast_of_widens hWidensLeft (holds_promotedKind hv)
  have hRight := cast_of_widens hWidensRight (holds_promotedKind hw)
  rw [promote_integer, promote_integer]
  simp only [equalize, kind_ofInt, hCommon, hLeft, hRight]
  rfl

/-! ## Results -/

theorem represents_ofInt (k : IntegerKind) (r : Int) : Represents (ofInt k r) k r :=
  ⟨k.wrap r, k.holds_wrap r, rfl, k.wrap_modEq r⟩

/-- An operator that is not logical works on the reduced integers unless truth values are
among its operands. -/
theorem binary_integer {op : BinaryOperator} {k l : IntegerKind} {v w : Int} (hv : k.Holds v)
    (hw : l.Holds w) (hAnd : op ≠ .and) (hOr : op ≠ .or) :
    binary op (.integer k v hv) (.integer l w hw) =
      if op.isBitwise && (decide (k = .bool) || decide (l = .bool)) then .error .booleanBitwise
      else if op.isDivision && (decide (k = .bool) && decide (l = .bool)) then
        .error .booleanDivision
      else
        binaryInteger op (arithmeticKind k l) ((arithmeticKind k l).wrap v)
          ((arithmeticKind k l).wrap w) := by
  unfold binary
  simp only [hAnd, hOr, if_false, equalize_promote]
  simp [Constant.kind, Kind.isText]
  rfl

theorem onBits_eq {k : IntegerKind} {f : BitVec k.bits → BitVec k.bits → BitVec k.bits}
    {x y r : Int} (h : BitVec.ofInt k.bits r = f (BitVec.ofInt k.bits x) (BitVec.ofInt k.bits y)) :
    Represents (onBits k f x y) k r := by
  refine ⟨_, k.holds_wrap _, rfl, ?_⟩
  rw [← h, BitVec.toInt_ofInt]
  have hMod : Int.bmod r (2 ^ k.bits) ≡ r [ZMOD 2 ^ k.bits] := by
    exact_mod_cast Int.bmod_emod (x := r) (m := 2 ^ k.bits)
  exact (k.wrap_modEq _).trans hMod

theorem binaryInteger_comparison {op : BinaryOperator} {x y : Int} {b : Bool}
    (h : op.comparison? x y = some b) (k : IntegerKind) :
    binaryInteger op k x y = .ok (ofBool b) := by
  cases op <;> cases h <;> rfl

theorem binaryInteger_exact {op : BinaryOperator} {k : IntegerKind} {x y r : Int}
    (h : op.exact? x y = some r) (hDivision : op ∈ [.div, .rem] → y ≠ 0)
    (hShift : op ∈ [.shl, .shr] → ¬ (y < 0 ∨ k.bits ≤ y)) :
    ∃ c, binaryInteger op k x y = .ok c ∧ Represents c k r := by
  cases op <;> cases h
  case mul => exact ⟨_, rfl, represents_ofInt k _⟩
  case div =>
    rw [binaryInteger, if_neg (hDivision (by decide))]
    exact ⟨_, rfl, represents_ofInt k _⟩
  case rem =>
    rw [binaryInteger, if_neg (hDivision (by decide))]
    exact ⟨_, rfl, represents_ofInt k _⟩
  case add => exact ⟨_, rfl, represents_ofInt k _⟩
  case sub => exact ⟨_, rfl, represents_ofInt k _⟩
  case shl =>
    rw [binaryInteger, if_neg (hShift (by decide))]
    exact ⟨_, rfl, represents_ofInt k _⟩
  case shr =>
    rw [binaryInteger, if_neg (hShift (by decide))]
    rw [Int.fdiv_eq_ediv_of_nonneg _ (Int.pow_nonneg (by decide))]
    exact ⟨_, rfl, represents_ofInt k _⟩
  case bitAnd => exact ⟨_, rfl, onBits_eq (ofInt_land _ x y)⟩
  case bitXor => exact ⟨_, rfl, onBits_eq (ofInt_xor _ x y)⟩
  case bitOr => exact ⟨_, rfl, onBits_eq (ofInt_lor _ x y)⟩

theorem represents_wide {c : Constant} {k : IntegerKind} {r : Int} (h : Represents c k r) :
    Represents c k (wide r) := by
  obtain ⟨z, hz, hc, hMod⟩ := h
  refine ⟨z, hz, hc, hMod.trans ?_⟩
  have hWide : wide r ≡ r [ZMOD 2 ^ 128] := by
    exact_mod_cast Int.bmod_emod (x := r) (m := 2 ^ 128)
  have hDvd : (2 : Int) ^ k.bits ∣ 2 ^ 128 := pow_dvd_pow 2 (by cases k <;> decide)
  exact (hWide.of_dvd hDvd).symm

theorem arithmeticKind_self (k : IntegerKind) : arithmeticKind k k = promotedKind k := by
  cases k <;> rfl

theorem unary_integer {k : IntegerKind} (hBool : k ≠ .bool) {v : Int} (hv : k.Holds v)
    (op : UnaryOperator) :
    unary op (.integer k v hv) =
      .ok (unaryInteger op (arithmeticKind k k) ((arithmeticKind k k).wrap v)) := by
  unfold unary
  rw [promote_integer, arithmeticKind_self]
  simp [ofInt, Constant.kind, hBool]

theorem unaryInteger_exact {op : UnaryOperator} {k : IntegerKind} {x r : Int}
    (hx : Fits 64 x) (h : op.exact? x = some r) :
    Represents (unaryInteger op k x) k r ∧ wide r = r := by
  have hWide : ∀ {r : Int}, -2 ^ 64 ≤ r ∧ r ≤ 2 ^ 64 → wide r = r := by
    intro r hr
    apply wide_of_fits
    unfold Fits
    omega
  have hLnot : Int.lnot x = -x - 1 := by
    cases x with
    | ofNat m => simp only [Int.lnot, Int.negSucc_eq, Int.ofNat_eq_natCast]; omega
    | negSucc m => simp only [Int.lnot, Int.negSucc_eq]; omega
  obtain ⟨hLeast, hGreatest⟩ := hx
  cases op <;> cases h
  case plus => exact ⟨represents_ofInt k _, hWide ⟨by omega, by omega⟩⟩
  case minus => exact ⟨represents_ofInt k _, hWide ⟨by omega, by omega⟩⟩
  case bitNot =>
    rw [hLnot]
    exact ⟨represents_ofInt k _, hWide ⟨by omega, by omega⟩⟩

/-- An operator that is not refused is a comparison or has an exact result. -/
theorem binary_of_not_refused {op : BinaryOperator} {k l : IntegerKind} {v w : Int}
    (hv : k.Holds v) (hw : l.Holds w) (hAnd : op ≠ .and) (hOr : op ≠ .or)
    (h : ¬ Refused op k l ((arithmeticKind k l).wrap w)) :
    binary op (.integer k v hv) (.integer l w hw) =
      binaryInteger op (arithmeticKind k l) ((arithmeticKind k l).wrap v)
        ((arithmeticKind k l).wrap w) := by
  rw [binary_integer hv hw hAnd hOr]
  unfold Refused bitOperators at h
  cases op <;> simp_all [BinaryOperator.isBitwise, BinaryOperator.isDivision]

theorem binary_of_refused {op : BinaryOperator} {k l : IntegerKind} {v w : Int}
    (hv : k.Holds v) (hw : l.Holds w) (hAnd : op ≠ .and) (hOr : op ≠ .or)
    (h : Refused op k l ((arithmeticKind k l).wrap w)) :
    ∃ cause, binary op (.integer k v hv) (.integer l w hw) = .error cause := by
  rw [binary_integer hv hw hAnd hOr]
  split
  · exact ⟨_, rfl⟩
  · split
    · exact ⟨_, rfl⟩
    · unfold Refused bitOperators at h
      cases op
      case div =>
        have hZero : (arithmeticKind k l).wrap w = 0 := by
          simp_all [BinaryOperator.isBitwise, BinaryOperator.isDivision]
          tauto
        exact ⟨_, if_pos hZero⟩
      case rem =>
        have hZero : (arithmeticKind k l).wrap w = 0 := by
          simp_all [BinaryOperator.isBitwise, BinaryOperator.isDivision]
          tauto
        exact ⟨_, if_pos hZero⟩
      all_goals
        simp_all [BinaryOperator.isBitwise, BinaryOperator.isDivision, binaryInteger]

/-! ## The operators compute modulo the width -/

/-- An operator that is not refused compares the reduced integers, or represents its exact
result, of which 128 bits lose nothing unless it is a product. -/
theorem binary_integer_result {op : BinaryOperator} {k l : IntegerKind} {v w : Int}
    (hv : k.Holds v) (hw : l.Holds w) (hAnd : op ≠ .and) (hOr : op ≠ .or)
    (h : ¬ Refused op k l ((arithmeticKind k l).wrap w)) :
    (∃ b, op.comparison? ((arithmeticKind k l).wrap v) ((arithmeticKind k l).wrap w) = some b ∧
      binary op (.integer k v hv) (.integer l w hw) = .ok (ofBool b)) ∨
    ∃ r c, op.exact? ((arithmeticKind k l).wrap v) ((arithmeticKind k l).wrap w) = some r ∧
      binary op (.integer k v hv) (.integer l w hw) = .ok c ∧
      Represents c (arithmeticKind k l) r ∧ Represents c (arithmeticKind k l) (wide r) ∧
      (op ≠ .mul → wide r = r) := by
  rw [binary_of_not_refused hv hw hAnd hOr h]
  generalize hKind : arithmeticKind k l = kind at h ⊢
  have hLeft : Fits 64 (kind.wrap v) := (kind.holds_wrap v).fits
  have hRight : Fits 64 (kind.wrap w) := (kind.holds_wrap w).fits
  generalize kind.wrap v = x at hLeft ⊢
  generalize kind.wrap w = y at h hRight ⊢
  have hDivision : op ∈ [.div, .rem] → y ≠ 0 := by
    intro hMem hZero
    exact h (Or.inr (Or.inl ⟨hMem, Or.inr hZero⟩))
  have hShift : op ∈ [.shl, .shr] → ¬ (y < 0 ∨ kind.bits ≤ y) := by
    intro hMem hCount
    exact h (Or.inr (Or.inr ⟨hMem, by rw [hKind]; exact hCount⟩))
  have hBits : op ∈ [.shl, .shr] → y < 64 := by
    intro hMem
    have hCount := hShift hMem
    have hLe : kind.bits ≤ 64 := by cases kind <;> decide
    omega
  cases hExact : op.exact? x y with
  | some r =>
    obtain ⟨c, hc, hRepresents⟩ := binaryInteger_exact hExact hDivision hShift
    exact Or.inr ⟨r, c, rfl, hc, hRepresents, represents_wide hRepresents,
      fun hMul => wide_exact hLeft hRight hExact hMul hBits⟩
  | none =>
    have hComparison : ∃ b, op.comparison? x y = some b := by
      cases op
      case and => exact absurd rfl hAnd
      case or => exact absurd rfl hOr
      all_goals first | exact ⟨_, rfl⟩ | cases hExact
    obtain ⟨b, hb⟩ := hComparison
    exact Or.inl ⟨b, hb, binaryInteger_comparison hb kind⟩

theorem binary_fails_iff {op : BinaryOperator} {k l : IntegerKind} {v w : Int}
    (hv : k.Holds v) (hw : l.Holds w) (hAnd : op ≠ .and) (hOr : op ≠ .or) :
    (∃ cause, binary op (.integer k v hv) (.integer l w hw) = .error cause) ↔
      Refused op k l ((arithmeticKind k l).wrap w) := by
  constructor
  · rintro ⟨cause, hCause⟩
    by_contra hRefused
    rcases binary_integer_result hv hw hAnd hOr hRefused with ⟨b, -, hOk⟩ | ⟨r, c, -, hOk, -⟩
    · rw [hCause] at hOk
      cases hOk
    · rw [hCause] at hOk
      cases hOk
  · exact binary_of_refused hv hw hAnd hOr

/-- Integer constants are combined as integers of their common kind. The casts on the way do
not fail, an operator is refused in the listed cases only, and its result is a comparison of
the reduced integers or the constant congruent to the exact result. Unary operators are
defined on every integer that is not a truth value. -/
theorem integer_arithmetic {k : IntegerKind} {v : Int} (hv : k.Holds v) :
    (∀ (op : BinaryOperator) (l : IntegerKind) (w : Int) (hw : l.Holds w),
      op ≠ .and → op ≠ .or →
      let kind := arithmeticKind k l
      let x := kind.wrap v
      let y := kind.wrap w
      let result := binary op (.integer k v hv) (.integer l w hw)
      equalize (Constant.integer k v hv).promote (Constant.integer l w hw).promote =
          .ok (.integer kind x (kind.holds_wrap v), .integer kind y (kind.holds_wrap w)) ∧
        ((∃ cause, result = .error cause) ↔ Refused op k l y) ∧
        (¬ Refused op k l y →
          (∃ b, op.comparison? x y = some b ∧ result = .ok (ofBool b)) ∨
          ∃ r c, op.exact? x y = some r ∧ result = .ok c ∧
            Represents c kind r ∧ Represents c kind (wide r) ∧ (op ≠ .mul → wide r = r))) ∧
    (k ≠ .bool →
      let kind := arithmeticKind k k
      let x := kind.wrap v
      unary .not (.integer k v hv) = .ok (ofBool (x = 0)) ∧
        ∀ op : UnaryOperator, op ≠ .not → ∃ r c, op.exact? x = some r ∧
          unary op (.integer k v hv) = .ok c ∧ Represents c kind r ∧ wide r = r) := by
  constructor
  · intro op l w hw hAnd hOr
    exact ⟨equalize_promote hv hw, binary_fails_iff hv hw hAnd hOr,
      binary_integer_result hv hw hAnd hOr⟩
  · intro hBool
    refine ⟨unary_integer hBool hv .not, ?_⟩
    intro op hNot
    have hFits : Fits 64 ((arithmeticKind k k).wrap v) :=
      ((arithmeticKind k k).holds_wrap v).fits
    have hExact : ∃ r, op.exact? ((arithmeticKind k k).wrap v) = some r := by
      cases op
      case not => exact absurd rfl hNot
      all_goals exact ⟨_, rfl⟩
    obtain ⟨r, hr⟩ := hExact
    obtain ⟨hRepresents, hWide⟩ := unaryInteger_exact hFits hr
    exact ⟨r, _, hr, unary_integer hBool hv op, hRepresents, hWide⟩

/-- The least integer of 64 bits divided by the `int8` minus one: the quotient does not fit
the common kind and wraps around. -/
theorem integer_arithmetic_least_div_minus_one :
    ∃ c, binary .div (.integer .int64 (-2 ^ 63) (by decide)) (.integer .int8 (-1) (by decide)) =
        .ok c ∧ Represents c .int64 (2 ^ 63) := by
  have hLeast : IntegerKind.int64.Holds (-2 ^ 63) := by decide
  have hMinusOne : IntegerKind.int8.Holds (-1) := by decide
  obtain ⟨-, -, hResult⟩ :=
    (integer_arithmetic hLeast).1 .div .int8 (-1) hMinusOne (by decide) (by decide)
  have hAllowed : ¬ Refused .div .int64 .int8 (IntegerKind.int64.wrap (-1)) := by
    unfold Refused
    decide
  rcases hResult hAllowed with ⟨b, hb, -⟩ | ⟨r, c, hr, hc, hRepresents, -⟩
  · cases hb
  · have hQuotient : r = 2 ^ 63 := by
      have hExact : some r = some (2 ^ 63 : Int) := hr.symm.trans (by decide)
      exact Option.some.inj hExact
    exact ⟨c, hc, hQuotient ▸ hRepresents⟩

end Constant

end IdlReader
