import IdlReader.Proofs.Constant.Order

/-!
# Constants on demand

Constants can be evaluated when something asks for them. An `Agenda` says how far that has come:
some constants are being evaluated, others were evaluated, each behind those that its assignment
mentions.

* `Agenda.Sound.finish`: one more constant is evaluated.
* `Agenda.Sound.value_eq`: what was evaluated has its value in every solution.
* `Agenda.Sound.not_solvable`: when an expression has no value.
* `Agenda.Sound.topological`: when all constants were evaluated, this was an order for them.
-/

namespace IdlReader

/-- How far an evaluation has come: the keys of the constants that are being evaluated, the
constants that were evaluated, and their values by their keys. -/
structure Agenda where
  started : List String := []
  done : List Assigned := []
  values : String → Constant := fun _ => default

namespace Agenda

variable {fold : String → String} {body : List Assigned} {a a' : Agenda} {c : Assigned}

/-- The keys of the constants that were evaluated. -/
def keys (a : Agenda) : List String := a.done.map Assigned.key

/-- The evaluation of a constant starts. -/
def start (a : Agenda) (key : String) : Agenda := { a with started := key :: a.started }

/-- The evaluation of the constant that was started last, after those in `started`, is over. -/
def finish (a : Agenda) (started : List String) (c : Assigned) (v : Constant) : Agenda where
  started := started
  done := a.done ++ [c]
  values := Function.update a.values c.key v

/-- Whether constants of `body` were evaluated in an order, and others are being evaluated. -/
structure Sound (fold : String → String) (body : List Assigned) (a : Agenda) : Prop where
  sorted : Assigned.Sorted fold a.done
  solves : Assigned.Solves fold a.done a.values
  subset : a.done ⊆ body
  nodup : a.keys.Nodup
  startedSubset : a.started ⊆ body.map Assigned.key
  startedNodup : a.started.Nodup
  disjoint : ∀ key ∈ a.started, key ∉ a.keys

/-- Whether the same constants are being evaluated later, and those that were evaluated remain. -/
structure Before (a a' : Agenda) : Prop where
  started : a'.started = a.started
  done : a.done ⊆ a'.done

theorem Before.refl (a : Agenda) : Before a a := ⟨rfl, List.Subset.refl _⟩

theorem Before.trans {a'' : Agenda} (h : Before a a') (h' : Before a' a'') : Before a a'' :=
  ⟨h'.started.trans h.started, fun _ hc => h'.done (h.done hc)⟩

theorem Before.keys (h : Before a a') : a.keys ⊆ a'.keys := List.map_subset _ h.done

namespace Sound

theorem empty (fold : String → String) (body : List Assigned) : Sound fold body {} where
  sorted := .nil
  solves := nofun
  subset := List.nil_subset _
  nodup := List.nodup_nil
  startedSubset := List.nil_subset _
  startedNodup := List.nodup_nil
  disjoint := nofun

theorem start (h : a.Sound fold body) (hBody : c ∈ body) (hStarted : c.key ∉ a.started)
    (hDone : c.key ∉ a.keys) : (a.start c.key).Sound fold body where
  sorted := h.sorted
  solves := h.solves
  subset := h.subset
  nodup := h.nodup
  startedSubset := List.cons_subset.mpr ⟨List.mem_map.mpr ⟨c, hBody, rfl⟩, h.startedSubset⟩
  startedNodup := List.nodup_cons.mpr ⟨hStarted, h.startedNodup⟩
  disjoint := by
    intro key hKey
    rcases List.mem_cons.mp hKey with rfl | hKey
    · exact hDone
    · exact h.disjoint key hKey

/-- A constant gets its value when those that its assignment mentions have theirs. -/
theorem finish (h : a.Sound fold body) {started : List String} (hBody : c ∈ body)
    (hStarted : a.started = c.key :: started)
    (hOperands : ∀ t ∈ c.expression.operands, fold t.text ∈ a.keys) {v : Constant}
    (hValue : c.evaluate fold (fun key => some (a.values key)) = some v) :
    (a.finish started c v).Sound fold body := by
  have hNodup := h.startedNodup
  have hSubset := h.startedSubset
  rw [hStarted, List.nodup_cons] at hNodup
  rw [hStarted, List.cons_subset] at hSubset
  have hNew : c.key ∉ a.keys := h.disjoint c.key (hStarted ▸ List.mem_cons_self)
  have hSorted : Assigned.Sorted fold (a.done ++ [c]) := by
    refine h.sorted.snoc fun t ht => ?_
    obtain ⟨b, hb, hKey⟩ := List.mem_map.mp (hOperands t ht)
    exact ⟨b, hb, hKey.symm⟩
  have hKeys : (a.finish started c v).keys = a.keys ++ [c.key] := List.map_append
  exact
    { sorted := hSorted
      solves := (h.solves.update hSorted hNew hValue).1
      subset := List.append_subset.mpr ⟨h.subset, List.cons_subset.mpr ⟨hBody, List.nil_subset _⟩⟩
      nodup := by
        rw [hKeys]
        exact List.nodup_append.mpr ⟨h.nodup, by simp, fun k hk l hl => by
          rw [List.mem_singleton.mp hl]
          exact fun hEq => hNew (hEq ▸ hk)⟩
      startedSubset := hSubset.2
      startedNodup := hNodup.2
      disjoint := by
        intro key hKey
        rw [hKeys, List.mem_append, not_or]
        refine ⟨h.disjoint key (hStarted ▸ List.mem_cons_of_mem _ hKey), fun hLast => ?_⟩
        rw [List.mem_singleton.mp hLast] at hKey
        exact hNodup.1 hKey }

/-- No more constants are being evaluated than there are. -/
theorem length_started_le (h : a.Sound fold body) : a.started.length ≤ body.length := by
  have hPerm := h.startedNodup.subperm h.startedSubset
  simpa using hPerm.length_le

/-- When all constants were evaluated, this was an order for them. -/
theorem topological (h : a.Sound fold body) (hKeys : (body.map Assigned.key).Nodup)
    (hAll : ∀ c ∈ body, c.key ∈ a.keys) : Assigned.Topological fold body a.done where
  sorted := h.sorted
  perm := by
    refine (List.perm_ext_iff_of_nodup h.nodup.of_map hKeys.of_map).mpr fun c => ?_
    refine ⟨fun hDone => h.subset hDone, fun hBody => ?_⟩
    obtain ⟨b, hb, hKey⟩ := List.mem_map.mp (hAll c hBody)
    rw [← List.inj_on_of_nodup_map hKeys (h.subset hb) hBody hKey]
    exact hb

end Sound

/-! ## Expressions -/

/-- The outcomes of names when constants have values. -/
abbrev outcomes (fold : String → String) (values : String → Constant) :
    Token → Except Fault Evaluated :=
  Assigned.operand fold fun key => some (values key)

/-- An expression of names that were evaluated has the same value wherever these have values. -/
theorem Sound.value_eq (h : a.Sound fold body) {e : Expression.Tree}
    (hOperands : ∀ t ∈ e.operands, fold t.text ∈ a.keys) {w : String → Constant}
    (hSolves : Assigned.Solves fold a.done w) :
    e.value (outcomes fold w) = e.value (outcomes fold a.values) := by
  refine Expression.value_congr fun t ht => ?_
  obtain ⟨b, hb, hKey⟩ := List.mem_map.mp (hOperands t ht)
  unfold outcomes Assigned.operand
  dsimp only
  rw [← hKey, h.sorted.unique hSolves h.solves b hb]

/-- Whether the names in an expression were evaluated and give it a value. -/
structure Has (fold : String → String) (a : Agenda) (e : Expression.Tree) (v : Evaluated) :
    Prop where
  operands : ∀ t ∈ e.operands, fold t.text ∈ a.keys
  value : e.value (outcomes fold a.values) = .ok v

namespace Has

variable {e l r : Expression.Tree} {v w : Evaluated} {p : Position}

theorem later (h : a.Has fold e v) (hSound : a.Sound fold body) (hSound' : a'.Sound fold body)
    (hBefore : a.Before a') : a'.Has fold e v where
  operands := fun t ht => hBefore.keys (h.operands t ht)
  value := by
    rw [hSound.value_eq h.operands fun c hc => hSound'.solves c (hBefore.done hc)]
    exact h.value

theorem literal {t : Token} {x : Constant} (h : Constant.ofLiteral t = .ok x) :
    a.Has fold (.literal t) (.known x) where
  operands := nofun
  value := by
    rw [Expression.Tree.value, h]
    rfl

theorem operand {t : Token} (h : fold t.text ∈ a.keys) :
    a.Has fold (.operand t) (.known (a.values (fold t.text))) where
  operands := by
    intro u hu
    rw [List.mem_singleton.mp hu]
    exact h
  value := rfl

theorem value_unary (h : a.Has fold e v) (op : UnaryOperator) :
    (Expression.Tree.unary op p e).value (outcomes fold a.values) =
      Expression.applyUnary op p v := by
  rw [Expression.value_unary, h.value]
  rfl

theorem value_binary (hLeft : a.Has fold l v) (hRight : a.Has fold r w) (op : BinaryOperator) :
    (Expression.Tree.binary op p l r).value (outcomes fold a.values) =
      Expression.applyBinary op p v w := by
  rw [Expression.value_binary, hLeft.value, hRight.value]
  rfl

theorem operands_binary (hLeft : a.Has fold l v) (hRight : a.Has fold r w) (op : BinaryOperator) :
    ∀ t ∈ (Expression.Tree.binary op p l r).operands, fold t.text ∈ a.keys := by
  intro t ht
  rcases List.mem_append.mp ht with ht | ht
  · exact hLeft.operands t ht
  · exact hRight.operands t ht

end Has

end Agenda

/-! ## Solutions -/

namespace Assigned

variable {fold : String → String} {body : List Assigned}

/-- Whether constants can be evaluated in an order. -/
def Solvable (fold : String → String) (body : List Assigned) : Prop :=
  ∃ order v, Topological fold body order ∧ Solves fold body v

/-- Whether a fault is the consequence of an assignment that has no value, and no lack of input. -/
def Refuted (fold : String → String) (body : List Assigned) (f : Fault) : Prop :=
  f.cause ≠ .inputExhausted ∧ ¬ Solvable fold body

theorem Solves.perm {order : List Assigned} {v : String → Constant} (h : Solves fold body v)
    (hPerm : order.Perm body) : Solves fold order v := fun c hc => h c (hPerm.subset hc)

/-- Constants can be evaluated in an order if no assignment leads back to its constant and each of
the orders gives values. -/
theorem solvable_iff (hKeys : (body.map key).Nodup)
    (hClosed : ∀ c ∈ body, ∀ t ∈ c.expression.operands, ∃ b ∈ body, fold t.text = b.key) :
    Solvable fold body ↔ Acyclic fold body ∧ ∀ order, Topological fold body order →
      ∃ values, evaluateInOrder fold order [] = some values := by
  have hOrderKeys : ∀ order, Topological fold body order → (order.map key).Nodup :=
    fun order hOrder => (hOrder.perm.map key).nodup_iff.mpr hKeys
  constructor
  · rintro ⟨first, v, hFirst, hSolves⟩
    refine ⟨acyclic_of_topological hFirst hKeys, fun order hOrder => ⟨table v order, ?_⟩⟩
    refine (evaluateInOrder_eq_some_iff hOrder.sorted (hOrderKeys order hOrder)).mpr ?_
    exact ⟨v, hSolves.perm hOrder.perm, rfl⟩
  · rintro ⟨hAcyclic, hValues⟩
    obtain ⟨order, hOrder⟩ := exists_topological hAcyclic hClosed
    obtain ⟨values, hEvaluate⟩ := hValues order hOrder
    obtain ⟨v, hSolves, -⟩ :=
      (evaluateInOrder_eq_some_iff hOrder.sorted (hOrderKeys order hOrder)).mp hEvaluate
    exact ⟨order, v, hOrder, hSolves.perm hOrder.perm.symm⟩

/-- Whether an expression has a value in every solution. -/
def Valued (fold : String → String) (body : List Assigned) (e : Expression.Tree) : Prop :=
  ∀ w, Solves fold body w → ∃ v, e.value (Agenda.outcomes fold w) = .ok v

namespace Valued

variable {e l r : Expression.Tree} {p : Position}

theorem inner {op : UnaryOperator} (h : Valued fold body (.unary op p e)) :
    Valued fold body e := by
  intro w hSolves
  obtain ⟨v, hValue⟩ := h w hSolves
  rw [Expression.value_unary] at hValue
  obtain ⟨x, hx, -⟩ := bind_eq_ok.mp hValue
  exact ⟨x, hx⟩

theorem left {op : BinaryOperator} (h : Valued fold body (.binary op p l r)) :
    Valued fold body l := by
  intro w hSolves
  obtain ⟨v, hValue⟩ := h w hSolves
  rw [Expression.value_binary] at hValue
  obtain ⟨x, hx, -⟩ := bind_eq_ok.mp hValue
  exact ⟨x, hx⟩

theorem right {op : BinaryOperator} (h : Valued fold body (.binary op p l r)) :
    Valued fold body r := by
  intro w hSolves
  obtain ⟨v, hValue⟩ := h w hSolves
  rw [Expression.value_binary] at hValue
  obtain ⟨x, -, hRest⟩ := bind_eq_ok.mp hValue
  obtain ⟨y, hy, -⟩ := bind_eq_ok.mp hRest
  exact ⟨y, hy⟩

end Valued

end Assigned

/-- Where an expression that must have a value has none, there is no solution. -/
theorem Agenda.Sound.not_solvable {a : Agenda} {fold : String → String} {body : List Assigned}
    (h : a.Sound fold body) {e : Expression.Tree} (hValued : Assigned.Valued fold body e)
    (hOperands : ∀ t ∈ e.operands, fold t.text ∈ a.keys) {f : Fault}
    (hError : e.value (outcomes fold a.values) = .error f) : ¬ Assigned.Solvable fold body := by
  rintro ⟨order, w, -, hSolves⟩
  obtain ⟨v, hValue⟩ := hValued w hSolves
  rw [h.value_eq hOperands fun c hc => hSolves c (h.subset hc), hError] at hValue
  cases hValue

end IdlReader
