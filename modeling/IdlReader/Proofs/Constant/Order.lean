import IdlReader.Proofs.Expression.Grammar
import IdlReader.Proofs.Token.Alike
import Mathlib.Data.List.Basic
import Mathlib.Data.Set.Finite.List
import Mathlib.Logic.Relation
import Mathlib.Order.WellFounded

/-!
# Constants in the order of their assignments

Constants are assigned expressions of literals and of other constants. They can be evaluated one
after the other in a `Topological` order, in which every constant comes behind those that its
assignment mentions. There is such an order if the assignments do not go around in a circle, and
no order gives other values than another one.

* `exists_topological`, `acyclic_of_topological`: when there is an order.
* `evaluateInOrder_eq_some_iff`: evaluating in an order finds the solution of all assignments.
* `Sorted.unique`: there is one solution at most.
-/

namespace IdlReader

/-! ## Expressions without places -/

namespace Expression

/-- An expression somewhere else. -/
def Tree.unplaced : Tree → Tree
  | literal t => literal t.unplaced
  | operand t => operand t.unplaced
  | unary op _ e => unary op ⟨0, 0⟩ e.unplaced
  | binary op _ l r => binary op ⟨0, 0⟩ l.unplaced r.unplaced

theorem operands_unplaced (e : Tree) : e.unplaced.operands = e.operands.map Token.unplaced := by
  induction e with
  | literal t => rfl
  | operand t => rfl
  | unary op p e ih => exact ih
  | binary op p l r ihLeft ihRight =>
    simp only [Tree.unplaced, Tree.operands, List.map_append, ihLeft, ihRight]

theorem toOption_bind {ε α β : Type} (x : Except ε α) (f : α → Except ε β) :
    (x >>= f).toOption = x.toOption.bind fun a => (f a).toOption := by
  cases x <;> rfl

theorem toOption_orFailAt {α : Type} (p q : Position) (x : Except Cause α) :
    (orFailAt p x : Except Fault α).toOption = (orFailAt q x : Except Fault α).toOption := by
  cases x <;> rfl

theorem toOption_applyUnary (op : UnaryOperator) (p q : Position) (v : Evaluated) :
    (applyUnary op p v : Except Fault Evaluated).toOption =
      (applyUnary op q v : Except Fault Evaluated).toOption := by
  cases v with
  | dynamic => rfl
  | known a => simp only [applyUnary, toOption_bind, toOption_orFailAt p q]

theorem toOption_applyBinary (op : BinaryOperator) (p q : Position) (v w : Evaluated) :
    (applyBinary op p v w : Except Fault Evaluated).toOption =
      (applyBinary op q v w : Except Fault Evaluated).toOption := by
  cases v with
  | dynamic => rfl
  | known a =>
    cases w with
    | dynamic => rfl
    | known b => simp only [applyBinary, toOption_bind, toOption_orFailAt p q]

theorem ofLiteral_unplaced (t : Token) :
    (Constant.ofLiteral t.unplaced).toOption = (Constant.ofLiteral t).toOption := by
  unfold Constant.ofLiteral
  rw [show t.unplaced.kind = t.kind from rfl, show t.unplaced.text = t.text from rfl]
  cases t.kind with
  | literal k =>
    dsimp only
    cases Constant.ofLiteralText k t.text.toList <;> rfl
  | _ => rfl

/-- An expression has its value wherever it stands. -/
theorem value_unplaced {f : Token → Except Fault Evaluated}
    (hf : ∀ t, (f t.unplaced).toOption = (f t).toOption) (e : Tree) :
    (e.unplaced.value f).toOption = (e.value f).toOption := by
  induction e with
  | literal t => simp only [Tree.unplaced, Tree.value, toOption_bind, ofLiteral_unplaced]
  | operand t => exact hf t
  | unary op p e ih =>
    rw [Tree.unplaced, value_unary, value_unary, toOption_bind, toOption_bind, ih]
    simp only [toOption_applyUnary op ⟨0, 0⟩ p]
  | binary op p l r ihLeft ihRight =>
    rw [Tree.unplaced, value_binary, value_binary]
    simp only [toOption_bind, ihLeft, ihRight, toOption_applyBinary op ⟨0, 0⟩ p]

/-- The value of an expression depends on the outcomes of its operands. -/
theorem value_congr {f g : Token → Except Fault Evaluated} {e : Tree}
    (h : ∀ t ∈ e.operands, f t = g t) : e.value f = e.value g := by
  induction e with
  | literal t => rfl
  | operand t => exact h t List.mem_cons_self
  | unary op p e ih => rw [value_unary, value_unary, ih h]
  | binary op p l r ihLeft ihRight =>
    rw [value_binary, value_binary, ihLeft fun t ht => h t (List.mem_append_left _ ht),
      ihRight fun t ht => h t (List.mem_append_right _ ht)]

end Expression

/-! ## Assignments -/

/-- A constant that is assigned an expression, with what its name has in common with those that
are the same. -/
structure Assigned where
  key : String
  kind : Kind
  expression : Expression.Tree

namespace Assigned

variable (fold : String → String)

/-- The outcome of a name as an operand where constants have values by their keys. -/
def operand (values : String → Option Constant) (t : Token) : Except Fault Evaluated :=
  match values (fold t.text) with
  | some v => .ok (.known v)
  | none => failAt (.undefinedName t.text) t.position

/-- The value of a constant where others have values. It must be one of its kind. -/
def evaluate (values : String → Option Constant) (c : Assigned) : Option Constant :=
  match (c.expression.value (operand fold values)).toOption with
  | some (.known a) => (a.cast c.kind).toOption
  | _ => none

/-- The values of constants that are evaluated one after the other, each added to those that are
known. -/
def evaluateInOrder : List Assigned → List (String × Constant) → Option (List (String × Constant))
  | [], values => some values
  | c :: cs, values => do
    let v ← c.evaluate fold (values.lookup ·)
    evaluateInOrder cs ((c.key, v) :: values)

/-- Whether the assignment of a constant mentions another one. -/
def Mentions (a b : Assigned) : Prop := ∃ t ∈ a.expression.operands, fold t.text = b.key

/-- Whether no assignment leads back to its constant. -/
def Acyclic (body : List Assigned) : Prop :=
  ∀ c, ¬ Relation.TransGen (fun a b => a ∈ body ∧ b ∈ body ∧ Mentions fold a b) c c

/-- Whether the assignments of a list mention constants in front of theirs only. -/
def Sorted (order : List Assigned) : Prop :=
  ∀ before c after, order = before ++ c :: after →
    ∀ t ∈ c.expression.operands, ∃ b ∈ before, fold t.text = b.key

/-- Whether a list of constants is in an order in which they can be evaluated. -/
structure Topological (body order : List Assigned) : Prop where
  perm : order.Perm body
  sorted : Sorted fold order

/-- Whether constants have values that all assignments give. -/
def Solves (body : List Assigned) (v : String → Constant) : Prop :=
  ∀ c ∈ body, c.evaluate fold (fun key => some (v key)) = some (v c.key)

variable {fold}

theorem evaluate_congr {values values' : String → Option Constant} {c : Assigned}
    (h : ∀ t ∈ c.expression.operands, values (fold t.text) = values' (fold t.text)) :
    c.evaluate fold values = c.evaluate fold values' := by
  unfold evaluate
  rw [Expression.value_congr fun t ht => ?_]
  unfold operand
  rw [h t ht]

/-! ## Orders -/

namespace Sorted

variable {cs : List Assigned} {c : Assigned}

theorem nil : Sorted fold [] := by
  intro before c after h
  simp at h

/-- A constant goes behind those that its assignment mentions. -/
theorem snoc (h : Sorted fold cs)
    (hc : ∀ t ∈ c.expression.operands, ∃ b ∈ cs, fold t.text = b.key) :
    Sorted fold (cs ++ [c]) := by
  intro before x after hEq
  rcases List.eq_nil_or_concat after with rfl | ⟨front, last, rfl⟩
  · obtain ⟨rfl, hx⟩ := List.append_inj' hEq rfl
    cases hx
    exact hc
  · have hFront : cs ++ [c] = (before ++ x :: front) ++ [last] := by
      rw [hEq]
      simp
    exact h before x front (List.append_inj' hFront rfl).1

theorem left {ds : List Assigned} (h : Sorted fold (cs ++ ds)) : Sorted fold cs := by
  intro before x after hEq
  refine h before x (after ++ ds) ?_
  rw [hEq]
  simp

theorem last (h : Sorted fold (cs ++ [c])) :
    ∀ t ∈ c.expression.operands, ∃ b ∈ cs, fold t.text = b.key := h cs c [] rfl

/-- There is one solution at most. -/
theorem unique (h : Sorted fold cs) {v w : String → Constant} (hv : Solves fold cs v)
    (hw : Solves fold cs w) : ∀ c ∈ cs, v c.key = w c.key := by
  induction cs using List.reverseRecOn with
  | nil =>
    intro c hc
    cases hc
  | append_singleton cs c ih =>
    have hBefore := ih h.left (fun b hb => hv b (List.mem_append_left _ hb))
      (fun b hb => hw b (List.mem_append_left _ hb))
    have hLast : v c.key = w c.key := by
      have hMem : c ∈ cs ++ [c] := List.mem_append_right _ List.mem_cons_self
      have hEvaluate : c.evaluate fold (fun key => some (v key)) =
          c.evaluate fold (fun key => some (w key)) := by
        refine evaluate_congr fun t ht => ?_
        obtain ⟨b, hb, hKey⟩ := h.last t ht
        rw [hKey, hBefore b hb]
      rw [hv c hMem, hw c hMem] at hEvaluate
      exact Option.some.inj hEvaluate
    intro b hb
    rcases List.mem_append.mp hb with hb | hb
    · exact hBefore b hb
    · rw [List.mem_singleton.mp hb]
      exact hLast

end Sorted

theorem Topological.congr {body body' order : List Assigned} (h : Topological fold body order)
    (hPerm : body.Perm body') : Topological fold body' order := ⟨h.perm.trans hPerm, h.sorted⟩

/-- Mentioned constants stand further in front. -/
theorem acyclic_of_topological {body order : List Assigned} (h : Topological fold body order)
    (hKeys : (body.map key).Nodup) : Acyclic fold body := by
  have hOrder : (order.map key).Nodup := (h.perm.map key).nodup_iff.mpr hKeys
  -- The place of a constant in the order.
  let place (c : Assigned) : Nat := (order.map key).idxOf c.key
  have hStep : ∀ a b, a ∈ body ∧ b ∈ body ∧ Mentions fold a b → place b < place a := by
    rintro a b ⟨ha, -, t, ht, hKey⟩
    obtain ⟨before, after, hEq⟩ := List.append_of_mem (h.perm.mem_iff.mpr ha)
    obtain ⟨x, hx, hSame⟩ := h.sorted before a after hEq t ht
    have hMem : b.key ∈ before.map key := List.mem_map.mpr ⟨x, hx, hSame.symm.trans hKey⟩
    rw [hEq, List.map_append, List.map_cons] at hOrder
    have hNot : a.key ∉ before.map key := fun hBefore =>
      (List.nodup_append.mp hOrder).2.2 _ hBefore _ List.mem_cons_self rfl
    have hPlace : place a = (before.map key).length := by
      simp only [place, hEq, List.map_append, List.map_cons]
      rw [List.idxOf_append_of_notMem hNot, List.idxOf_cons_self, Nat.add_zero]
    rw [hPlace]
    simp only [place, hEq, List.map_append]
    rw [List.idxOf_append_of_mem hMem]
    exact List.idxOf_lt_length_of_mem hMem
  have hPath : ∀ a b, Relation.TransGen (fun a b => a ∈ body ∧ b ∈ body ∧ Mentions fold a b) a b →
      place b < place a := by
    intro a b hPath
    induction hPath with
    | single hEdge => exact hStep _ _ hEdge
    | tail _ hEdge ih => exact Nat.lt_trans (hStep _ _ hEdge) ih
  exact fun c hCircle => Nat.lt_irrefl _ (hPath c c hCircle)

/-- Without circles one of the constants mentions none of them. -/
theorem Acyclic.exists_minimal {body rest : List Assigned} (h : Acyclic fold body)
    (hSubset : rest ⊆ body) (hRest : rest ≠ []) :
    ∃ c ∈ rest, ∀ b ∈ rest, ¬ Mentions fold c b := by
  let path (b a : {c // c ∈ rest}) : Prop :=
    Relation.TransGen (fun a b => a ∈ body ∧ b ∈ body ∧ Mentions fold a b) a.1 b.1
  have hFinite : Finite {c // c ∈ rest} := (List.finite_toSet rest).to_subtype
  have hTrans : IsTrans _ path := ⟨fun _ _ _ hFirst hSecond => hSecond.trans hFirst⟩
  have hIrrefl : Std.Irrefl path := ⟨fun c => h c.1⟩
  have hWellFounded : WellFounded path := Finite.wellFounded_of_trans_of_irrefl path
  obtain ⟨first, hFirst⟩ := List.exists_mem_of_ne_nil rest hRest
  obtain ⟨c, -, hMin⟩ := hWellFounded.has_min Set.univ ⟨⟨first, hFirst⟩, trivial⟩
  refine ⟨c.1, c.2, fun b hb hMentions => hMin ⟨b, hb⟩ trivial ?_⟩
  exact .single ⟨hSubset c.2, hSubset hb, hMentions⟩

/-- Constants whose assignments do not go around in a circle can be put into an order. -/
theorem exists_topological {body : List Assigned} (h : Acyclic fold body)
    (hClosed : ∀ c ∈ body, ∀ t ∈ c.expression.operands, ∃ b ∈ body, fold t.text = b.key) :
    ∃ order, Topological fold body order := by
  suffices hOrder : ∀ n before rest, rest.length = n → Sorted fold before →
      (before ++ rest).Perm body → ∃ order, Topological fold body order from
    hOrder _ [] body rfl .nil (.refl body)
  intro n
  induction n with
  | zero =>
    intro before rest hLength hSorted hPerm
    rw [List.eq_nil_of_length_eq_zero hLength, List.append_nil] at hPerm
    exact ⟨before, hPerm, hSorted⟩
  | succ n ih =>
    intro before rest hLength hSorted hPerm
    have hRest : rest ≠ [] := by
      rintro rfl
      cases hLength
    have hSubset : rest ⊆ body := fun c hc => hPerm.subset (List.mem_append_right _ hc)
    obtain ⟨c, hc, hMinimal⟩ := h.exists_minimal hSubset hRest
    obtain ⟨front, back, rfl⟩ := List.append_of_mem hc
    refine ih (before ++ [c]) (front ++ back) (by simp at hLength ⊢; omega) (hSorted.snoc ?_) ?_
    · intro t ht
      obtain ⟨b, hb, hKey⟩ := hClosed c (hSubset hc) t ht
      rcases List.mem_append.mp (hPerm.symm.subset hb) with hb | hb
      · exact ⟨b, hb, hKey⟩
      · exact absurd ⟨t, ht, hKey⟩ (hMinimal b hb)
    · refine .trans ?_ hPerm
      rw [List.append_assoc, List.singleton_append]
      exact (List.perm_middle.symm).append_left before

/-! ## Values -/

/-- The values of constants by their keys, the last one first. -/
def table (v : String → Constant) (cs : List Assigned) : List (String × Constant) :=
  (cs.map fun c => (c.key, v c.key)).reverse

theorem table_snoc (v : String → Constant) (cs : List Assigned) (c : Assigned) :
    table v (cs ++ [c]) = (c.key, v c.key) :: table v cs := by
  simp [table]

theorem table_congr {v w : String → Constant} {cs : List Assigned}
    (h : ∀ c ∈ cs, v c.key = w c.key) : table v cs = table w cs := by
  unfold table
  rw [List.map_congr_left fun c hc => by rw [h c hc]]

theorem lookup_table {v : String → Constant} {cs : List Assigned} {c : Assigned} (h : c ∈ cs) :
    (table v cs).lookup c.key = some (v c.key) := by
  induction cs using List.reverseRecOn with
  | nil => cases h
  | append_singleton cs d ih =>
    rw [table_snoc, List.lookup_cons]
    by_cases hKey : c.key = d.key
    · rw [hKey, beq_self_eq_true]
    · have hMem : c ∈ cs := by
        refine (List.mem_append.mp h).resolve_right fun hLast => hKey ?_
        rw [List.mem_singleton.mp hLast]
      rw [beq_eq_false_iff_ne.mpr hKey]
      exact ih hMem

namespace Solves

variable {cs : List Assigned} {c : Assigned} {v : String → Constant}

/-- In an order a constant is evaluated with the values of those in front of it. -/
theorem evaluate_table (hSorted : Sorted fold (cs ++ [c])) :
    c.evaluate fold ((table v cs).lookup ·) = c.evaluate fold fun key => some (v key) := by
  refine evaluate_congr fun t ht => ?_
  obtain ⟨b, hb, hKey⟩ := hSorted.last t ht
  rw [hKey, lookup_table hb]

/-- The value of one more constant. -/
theorem update (h : Solves fold cs v) (hSorted : Sorted fold (cs ++ [c]))
    (hNew : c.key ∉ cs.map key) {a : Constant}
    (hc : c.evaluate fold (fun key => some (v key)) = some a) :
    Solves fold (cs ++ [c]) (Function.update v c.key a) ∧
      ∀ b ∈ cs, Function.update v c.key a b.key = v b.key := by
  have hOld : ∀ b ∈ cs, Function.update v c.key a b.key = v b.key := by
    intro b hb
    refine Function.update_of_ne (fun hKey => hNew ?_) _ _
    exact List.mem_map.mpr ⟨b, hb, hKey⟩
  refine ⟨fun b hb => ?_, hOld⟩
  rcases List.mem_append.mp hb with hb | hb
  · rw [hOld b hb, ← h b hb]
    refine evaluate_congr fun t ht => ?_
    obtain ⟨front, back, rfl⟩ := List.append_of_mem hb
    obtain ⟨d, hd, hKey⟩ := hSorted.left front b back rfl t ht
    rw [hKey, hOld d (List.mem_append_left _ hd)]
  · rw [List.mem_singleton.mp hb, Function.update_self, ← hc]
    refine evaluate_congr fun t ht => ?_
    obtain ⟨d, hd, hKey⟩ := hSorted.last t ht
    rw [hKey, hOld d hd]

end Solves

/-- A solution is found in every order. -/
theorem evaluateInOrder_of_solves {before order : List Assigned} {v : String → Constant}
    (hSorted : Sorted fold (before ++ order)) (h : Solves fold (before ++ order) v) :
    evaluateInOrder fold order (table v before) = some (table v (before ++ order)) := by
  induction order generalizing before with
  | nil => rw [List.append_nil, evaluateInOrder]
  | cons c cs ih =>
    have hSplit : before ++ c :: cs = (before ++ [c]) ++ cs := by simp
    rw [hSplit] at hSorted h ⊢
    have hValue := h c (by simp)
    rw [evaluateInOrder, Solves.evaluate_table hSorted.left, hValue]
    change evaluateInOrder fold cs ((c.key, v c.key) :: table v before) = _
    rw [← table_snoc]
    exact ih hSorted h

/-- What is found in an order is a solution. -/
theorem solves_of_evaluateInOrder {before order : List Assigned} {v : String → Constant}
    {values : List (String × Constant)} (hSorted : Sorted fold (before ++ order))
    (hKeys : ((before ++ order).map key).Nodup) (h : Solves fold before v)
    (hValues : evaluateInOrder fold order (table v before) = some values) :
    ∃ w, Solves fold (before ++ order) w ∧ values = table w (before ++ order) := by
  induction order generalizing before v with
  | nil =>
    rw [evaluateInOrder] at hValues
    rw [List.append_nil]
    exact ⟨v, h, (Option.some.inj hValues).symm⟩
  | cons c cs ih =>
    have hSplit : before ++ c :: cs = (before ++ [c]) ++ cs := by simp
    rw [hSplit] at hSorted hKeys ⊢
    rw [evaluateInOrder, Solves.evaluate_table hSorted.left] at hValues
    obtain ⟨a, hc, hRest⟩ := Option.bind_eq_some_iff.mp hValues
    have hNew : c.key ∉ before.map key := by
      rw [List.map_append, List.map_append, List.append_assoc] at hKeys
      exact fun hBefore => (List.nodup_append.mp hKeys).2.2 _ hBefore c.key (by simp) rfl
    obtain ⟨hSolves, hOld⟩ := h.update hSorted.left hNew hc
    refine ih hSorted hKeys hSolves ?_
    rw [table_snoc, Function.update_self, table_congr hOld]
    exact hRest

/-- Evaluating constants in an order finds the values that all assignments give. -/
theorem evaluateInOrder_eq_some_iff {order : List Assigned} (hSorted : Sorted fold order)
    (hKeys : (order.map key).Nodup) {values : List (String × Constant)} :
    evaluateInOrder fold order [] = some values ↔
      ∃ v, Solves fold order v ∧ values = table v order := by
  constructor
  · intro hValues
    have hSorted' : Sorted fold ([] ++ order) := hSorted
    have hNone : Solves fold [] fun _ => default := nofun
    exact solves_of_evaluateInOrder hSorted' hKeys hNone hValues
  · rintro ⟨v, h, rfl⟩
    have hSorted' : Sorted fold ([] ++ order) := hSorted
    exact evaluateInOrder_of_solves hSorted' h

end Assigned

end IdlReader
