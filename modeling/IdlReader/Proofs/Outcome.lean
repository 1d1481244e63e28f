/-!
# Outcomes

What a successful outcome of a sequence says about its parts, postconditions of outcomes, and
outcomes that correspond to each other.
-/

namespace IdlReader

theorem bind_eq_ok {ε α β : Type} {x : Except ε α} {f : α → Except ε β} {b : β} :
    x >>= f = .ok b ↔ ∃ a, x = .ok a ∧ f a = .ok b := by
  cases x with
  | error fault => simp [bind, Except.bind]
  | ok a => simp [bind, Except.bind]

@[simp] theorem ok_bind_eq {ε α β : Type} (a : α) (f : α → Except ε β) :
    (Except.ok a >>= f) = f a := rfl

@[simp] theorem error_bind_eq {ε α β : Type} (e : ε) (f : α → Except ε β) :
    (Except.error e >>= f) = .error e := rfl

/-- A result whose property was computed. -/
theorem any_toOption {ε α : Type} {x : Except ε α} {p : α → Bool}
    (h : x.toOption.any p = true) : ∃ a, x = .ok a ∧ p a = true := by
  cases x with
  | error e => cases h
  | ok a => exact ⟨a, rfl, h⟩

/-- Every successful result of `x` satisfies `P`. -/
def Ok {ε α : Type} (x : Except ε α) (P : α → Prop) : Prop := ∀ a, x = .ok a → P a

variable {ε α β : Type}

theorem ok_ok {P : α → Prop} {a : α} (h : P a) : Ok (.ok a : Except ε α) P := by
  intro b hb
  cases hb
  exact h

theorem ok_error (P : α → Prop) (e : ε) : Ok (.error e : Except ε α) P := by
  intro a ha
  cases ha

theorem ok_bind {x : Except ε α} {f : α → Except ε β} {P : α → Prop} {Q : β → Prop}
    (hx : Ok x P) (hf : ∀ a, P a → Ok (f a) Q) : Ok (x >>= f) Q := by
  intro b hb
  obtain ⟨a, ha, hfa⟩ := bind_eq_ok.mp hb
  exact hf a (hx a ha) b hfa

theorem Ok.mono {x : Except ε α} {P Q : α → Prop} (hx : Ok x P) (h : ∀ a, P a → Q a) : Ok x Q :=
  fun a ha => h a (hx a ha)

/-- Whether two outcomes are results that `R` relates, or both of them are faults. -/
inductive Corresponds (R : α → β → Prop) : Except ε α → Except ε β → Prop where
  | ok {a : α} {b : β} : R a b → Corresponds R (.ok a) (.ok b)
  | error (e e' : ε) : Corresponds R (.error e) (.error e')

namespace Corresponds

variable {γ δ : Type} {R : α → β → Prop} {x : Except ε α} {y : Except ε β}

theorem bind {S : γ → δ → Prop} {f : α → Except ε γ} {f' : β → Except ε δ}
    (h : Corresponds R x y) (hf : ∀ a b, R a b → Corresponds S (f a) (f' b)) :
    Corresponds S (x >>= f) (y >>= f') := by
  cases h with
  | ok hab => exact hf _ _ hab
  | error e e' => exact error e e'

/-- What is made of the one outcome only. -/
theorem bind_left {S : γ → β → Prop} {f : α → γ} (h : Corresponds R x y)
    (hf : ∀ a b, R a b → S (f a) b) : Corresponds S (x >>= fun a => .ok (f a)) y := by
  cases h with
  | ok hab => exact ok (hf _ _ hab)
  | error e e' => exact error e e'

theorem mono {S : α → β → Prop} (h : Corresponds R x y) (hRS : ∀ a b, R a b → S a b) :
    Corresponds S x y := by
  cases h with
  | ok hab => exact ok (hRS _ _ hab)
  | error e e' => exact error e e'

theorem refl {S : α → α → Prop} (hS : ∀ a, S a a) (x : Except ε α) : Corresponds S x x := by
  cases x with
  | ok a => exact ok (hS a)
  | error e => exact error e e

theorem symm (h : Corresponds R x y) : Corresponds (fun b a => R a b) y x := by
  cases h with
  | ok hab => exact ok hab
  | error e e' => exact error e' e

/-- The other outcome of a result is a result. -/
theorem result {a : α} (h : Corresponds R x y) (hx : x = .ok a) : ∃ b, y = .ok b ∧ R a b := by
  cases h with
  | ok hab =>
    cases hx
    exact ⟨_, rfl, hab⟩
  | error e e' => cases hx

end Corresponds

end IdlReader
