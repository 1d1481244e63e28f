import IdlReader.Grammar.Evaluation

/-!
# How actions end

An action ends with a result or with a fault. `Parsing.Ends` says something about both, so that it
also tells when an action succeeds: there is no fault of which nothing is true.

* `Ends.bind`: one action after the other.
* `Ends.orAt`: faults that get a place.
-/

namespace IdlReader.Parsing

variable {α β : Type} {s : Session} {E : Fault → Prop}

/-- Whether an action in a session ends with a result and a session that have the property `P`, or
with a fault that has the property `E`. -/
def Ends (x : Parsing α) (s : Session) (P : α → Session → Prop) (E : Fault → Prop) : Prop :=
  match x s with
  | .ok a s' => P a s'
  | .error f _ => E f

namespace Ends

variable {P Q : α → Session → Prop}

theorem pure {a : α} (h : P a s) : Ends (pure a) s P E := h

theorem throw {f : Fault} (h : E f) : Ends (throwThe Fault f) s P E := h

theorem failAt {cause : Cause} {p : Position} (h : E ((Fault.of cause).placed p)) :
    Ends (IdlReader.failAt cause p) s P E := h

theorem bind {x : Parsing α} {f : α → Parsing β} {R : β → Session → Prop} (hx : Ends x s P E)
    (hf : ∀ a s', P a s' → Ends (f a) s' R E) : Ends (x >>= f) s R E := by
  unfold Ends at hx hf ⊢
  simp only [Bind.bind, EStateM.bind]
  cases hRun : x s with
  | ok a s' =>
    rw [hRun] at hx
    exact hf a s' hx
  | error f s' =>
    rw [hRun] at hx
    exact hx

theorem mono {x : Parsing α} (h : Ends x s P E) (hPQ : ∀ a s', P a s' → Q a s') :
    Ends x s Q E := by
  unfold Ends at h ⊢
  cases hRun : x s with
  | ok a s' =>
    rw [hRun] at h
    exact hPQ a s' h
  | error f s' =>
    rw [hRun] at h
    exact h

theorem faults {x : Parsing α} {F : Fault → Prop} (h : Ends x s P E) (hEF : ∀ f, E f → F f) :
    Ends x s P F := by
  unfold Ends at h ⊢
  cases hRun : x s with
  | ok a s' =>
    rw [hRun] at h
    exact h
  | error f s' =>
    rw [hRun] at h
    exact hEF f h

/-- An action without faults has a result. -/
theorem exists_ok {x : Parsing α} (h : Ends x s P fun _ => False) :
    ∃ a s', x s = .ok a s' ∧ P a s' := by
  unfold Ends at h
  cases hRun : x s with
  | ok a s' =>
    rw [hRun] at h
    exact ⟨a, s', rfl, h⟩
  | error f s' =>
    rw [hRun] at h
    cases h

theorem get {f : Session → Parsing α} (h : Ends (f s) s P E) : Ends (get >>= f) s P E := h

theorem modify {g : Session → Session} {f : PUnit → Parsing α} (h : Ends (f ⟨⟩) (g s) P E) :
    Ends (modify g >>= f) s P E := h

theorem tree {f : Tree → Parsing α} (h : Ends (f s.tree) s P E) : Ends (tree >>= f) s P E := h

theorem entity {f : Entity → Parsing α} {id : EntityId} (h : Ends (f (s.tree.get id)) s P E) :
    Ends (entity id >>= f) s P E := h

/-- The outcome of a part that has no state and may lack a place. -/
theorem orFail {x : Except Cause α} (h : ∀ a, x = .ok a → P a s)
    (hError : ∀ cause, x = .error cause → E (Fault.of cause)) : Ends (orFail x) s P E := by
  cases x with
  | ok a => exact h a rfl
  | error cause => exact hError cause rfl

/-- The outcome of a part that has no state and is placed. -/
theorem orFailAt {x : Except Cause α} {p : Position} (h : ∀ a, x = .ok a → P a s)
    (hError : ∀ cause, x = .error cause → E ((Fault.of cause).placed p)) :
    Ends (Expression.orFailAt p x) s P E := by
  cases x with
  | ok a => exact h a rfl
  | error cause => exact hError cause rfl

/-- The outcome of a part that has no state. -/
theorem orThrow {x : Except Fault α} (h : ∀ a, x = .ok a → P a s)
    (hError : ∀ f, x = .error f → E f) : Ends (Expression.orThrow x) s P E := by
  cases x with
  | ok a => exact h a rfl
  | error f => exact hError f rfl

/-- Faults that get a place. -/
theorem orAt {x : Parsing α} {p : Position} (h : Ends x s P E) (hE : ∀ f, E f → E (f.orAt p)) :
    Ends (orAt p x) s P E := by
  unfold Ends at h ⊢
  simp only [Parsing.orAt, tryCatchThe, MonadExceptOf.tryCatch]
  delta EStateM.tryCatch
  cases hRun : x s with
  | ok a s' =>
    rw [hRun] at h
    exact h
  | error f s' =>
    rw [hRun] at h
    exact hE f h

end Ends

end IdlReader.Parsing
