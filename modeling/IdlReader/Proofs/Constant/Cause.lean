import IdlReader.Constant.Literal
import IdlReader.Constant.Operator

/-!
# Why constants cannot be computed

Literals, operators and casts fail for reasons of their own. None of them runs out of input or of
steps, and none of them knows of names.

* `reasoned_cast`, `reasoned_unary`, `reasoned_binary`: casts and operators.
* `reasoned_ofLiteral`: literals.
-/

namespace IdlReader

/-- Whether a cause tells neither of a lack of input nor of names that clash. -/
def Cause.Plain : Cause → Prop
  | .inputExhausted | .nameInherited _ | .nameTakenBy _ | .nameTaken | .stated _ _ => False
  | _ => True

theorem Cause.Plain.ne_inputExhausted {cause : Cause} (h : cause.Plain) :
    cause ≠ .inputExhausted := by
  rintro rfl
  exact h

theorem Cause.Plain.category_ne {cause : Cause} (h : cause.Plain) :
    cause.category ≠ .duplicate := by
  intro hDuplicate
  cases cause <;> first | exact False.elim h | cases hDuplicate

/-- Whether an outcome, if it is a fault, has a plain reason. -/
def Reasoned {α : Type} (x : Except Cause α) : Prop := ∀ cause, x = .error cause → cause.Plain

namespace Reasoned

variable {α β : Type}

theorem ok (a : α) : Reasoned (.ok a : Except Cause α) := nofun

theorem error {cause : Cause} (h : cause.Plain) :
    Reasoned (.error cause : Except Cause α) := by
  rintro _ ⟨⟩
  exact h

theorem bind {x : Except Cause α} {f : α → Except Cause β} (hx : Reasoned x)
    (hf : ∀ a, Reasoned (f a)) : Reasoned (x >>= f) := by
  cases x with
  | error cause =>
    rintro _ ⟨⟩
    exact hx cause rfl
  | ok a => exact hf a

theorem ite {c : Prop} [Decidable c] {x y : Except Cause α} (hx : Reasoned x) (hy : Reasoned y) :
    Reasoned (if c then x else y) := by
  split
  · exact hx
  · exact hy

end Reasoned

namespace Constant

/-! ## Casts -/

theorem reasoned_castInteger (k : IntegerKind) (v : Int) (t : IntegerKind) :
    Reasoned (castInteger k v t) := by
  unfold castInteger
  repeat' split
  all_goals first | exact .ok _ | exact .error trivial

theorem reasoned_castReal (t : RealKind) (x : Float) (fromInteger : Bool) :
    Reasoned (castReal t x fromInteger) := by
  unfold castReal
  repeat' split
  all_goals first | exact .ok _ | exact .error trivial

theorem reasoned_cast (c : Constant) (k : Kind) : Reasoned (c.cast k) := by
  unfold cast
  split
  · exact .ok c
  · split
    · exact reasoned_castInteger _ _ _
    · exact reasoned_castReal _ _ _
    · exact reasoned_castReal _ _ _
    · exact .error trivial

theorem reasoned_equalize (a b : Constant) : Reasoned (equalize a b) := by
  unfold equalize
  split
  · exact .error trivial
  · exact (reasoned_cast _ _).bind fun _ => (reasoned_cast _ _).bind fun _ => .ok _

/-! ## Operators -/

theorem reasoned_truth (c : Constant) : Reasoned c.truth := by
  cases c
  · exact .ok _
  · exact .ok _
  · exact .error trivial

theorem reasoned_binaryInteger (op : BinaryOperator) (k : IntegerKind) (x y : Int) :
    Reasoned (binaryInteger op k x y) := by
  cases op
  case div | rem => exact .ite (.error trivial) (.ok _)
  case shl | shr => exact .ite (.error trivial) (.ok _)
  all_goals exact .ok _

theorem reasoned_binaryReal (op : BinaryOperator) (k : RealKind) (x y : Float) :
    Reasoned (binaryReal op k x y) := by
  cases op
  case div => exact .ite (.error trivial) (.ok _)
  all_goals first | exact .ok _ | exact .error trivial

theorem reasoned_binaryText (op : BinaryOperator) (a b : Constant) : Reasoned (binaryText op a b) := by
  unfold binaryText
  split
  · exact .ite (.ok _) (.error trivial)
  · exact .ite (.ok _) (.error trivial)
  · exact .error trivial

theorem reasoned_binarySame (op : BinaryOperator) (a b : Constant) :
    Reasoned (binarySame op a b) := by
  cases a <;> cases b
  case integer.integer => exact reasoned_binaryInteger _ _ _ _
  case real.real => exact reasoned_binaryReal _ _ _ _
  all_goals exact .error trivial

theorem reasoned_binary (op : BinaryOperator) (a b : Constant) : Reasoned (binary op a b) := by
  have hTruth : ∀ f : Bool → Bool → Constant, Reasoned (do
      let x ← a.truth
      let y ← b.truth
      return f x y) :=
    fun f => (reasoned_truth a).bind fun _ => (reasoned_truth b).bind fun _ => .ok _
  unfold binary
  refine .ite (reasoned_binaryText op a b) (.ite (hTruth _) (.ite (hTruth _)
    (.ite (.error trivial) (.ite (.error trivial) ?_))))
  refine (reasoned_equalize _ _).bind ?_
  rintro ⟨x, y⟩
  exact reasoned_binarySame op x y

theorem reasoned_unary (op : UnaryOperator) (a : Constant) : Reasoned (unary op a) := by
  unfold unary
  split
  · exact .error trivial
  · cases op <;> first | exact .ok _ | exact .error trivial
  · refine .ite ?_ (.ok _)
    cases op <;> first | exact .ok _ | exact .error trivial

/-! ## Literals -/

theorem reasoned_decode (code : Nat) (seen : Bool) : Reasoned (Text.EscapeState.decode code seen) := by
  unfold Text.EscapeState.decode
  refine .ite ?_ (.error trivial)
  split
  · exact .ok _
  · exact .error trivial

theorem reasoned_unescapeFrom (state : Text.EscapeState) (text : List Char) :
    Reasoned (Text.unescapeFrom state text) := by
  fun_induction Text.unescapeFrom state text
  case case1 => exact .ok _
  case case2 => exact .error trivial
  case case3 code seen => exact (reasoned_decode code seen).bind fun _ => .ok _
  case case4 ih => exact ih
  case case5 ih => exact ih.bind fun _ => .ok _
  case case6 => exact .error trivial
  case case7 ih => exact ih.bind fun _ => .ok _
  case case8 ih => exact ih
  case case9 ih => exact ih
  case case10 code seen _ _ _ ihBackslash ihPlain =>
    exact (reasoned_decode code seen).bind fun _ =>
      .ite (ihBackslash.bind fun _ => .ok _) (ihPlain.bind fun _ => .ok _)

theorem reasoned_integerOf (radix : Nat) (text : List Char) : Reasoned (integerOf radix text) := by
  unfold integerOf
  dsimp only
  split
  · exact .error trivial
  · refine .ite (.error trivial) ?_
    split
    · exact .ok _
    · exact .ite (.error trivial) (.ok _)

theorem reasoned_floatingOf (text : List Char) : Reasoned (floatingOf text) := by
  unfold floatingOf
  dsimp only
  split
  · exact .error trivial
  · split
    · exact reasoned_cast _ _
    · exact reasoned_cast _ _
    · exact .ok _
    · exact .ok _
    · exact .ok _

theorem reasoned_characterOf (text : List Char) : Reasoned (characterOf text) := by
  unfold characterOf
  refine (reasoned_unescapeFrom _ _).bind fun content => ?_
  split
  · exact .error trivial
  · exact .ite (.error trivial) (.ok _)

theorem reasoned_ofLiteralText (kind : LiteralKind) (text : List Char) :
    Reasoned (ofLiteralText kind text) := by
  cases kind
  case boolean | null => exact .ok _
  case decInteger | hexInteger | binInteger | octInteger => exact reasoned_integerOf _ _
  case floating => exact reasoned_floatingOf text
  case fixed =>
    unfold ofLiteralText fixedOf
    dsimp only
    split
    · exact .error trivial
    · exact .ok _
  case character => exact reasoned_characterOf text
  case string => exact (reasoned_unescapeFrom _ _).bind fun _ => .ok _

theorem reasoned_ofLiteral {t : Token} {f : Fault} (h : ofLiteral t = .error f) :
    f.cause.Plain := by
  unfold ofLiteral at h
  split at h
  · rename_i kind _
    cases hText : ofLiteralText kind t.text.toList with
    | ok c =>
      rw [hText] at h
      cases h
    | error cause =>
      rw [hText] at h
      cases h
      exact reasoned_ofLiteralText _ _ cause hText
  · cases h
    trivial

end Constant

end IdlReader
