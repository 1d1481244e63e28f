import IdlReader.Grammar.Evaluation
import IdlReader.Proofs.Tree.ScopedName

/-!
# Scoped names as operands

An operand of an expression that is spelled as names with marks between them stands for what
these names are found as.

* `scopedNameTail_mark`, `scopedNameTail_closes`: reading a name on and to its end.
* `resolver_of_name`: the operand that a name is.
-/

namespace IdlReader

namespace Parsing

/-- Whether a name does not go on with tokens. -/
def Unmarked (rest : List Token) : Prop := ∀ t ∈ rest.head?, t.is "::" = false

/-- Whether neither a name nor an accessor goes on with tokens. -/
def Closes (rest : List Token) : Prop :=
  ∀ t ∈ rest.head?, t.is "::" = false ∧ t.is "[" = false ∧
    ¬ (t.kind = .operator ∧ t.text = ".")

theorem Closes.unmarked {rest : List Token} (h : Closes rest) : Unmarked rest :=
  fun t ht => (h t ht).1

theorem Unmarked.eat?_mark {rest : List Token} (h : Unmarked rest) (last : Position) :
    (⟨rest, last⟩ : Expression.Tokens).eat? "::" = none := by
  cases rest with
  | nil => rfl
  | cons t ts =>
    simp [Expression.Tokens.eat?, h t rfl]

theorem accessorTail_closes {index : Expression.Tokens → Parsing (Evaluated × Expression.Tokens)}
    {place : Position} {rest : List Token} (h : Closes rest) (n : Nat) (last : Position) :
    accessorTail index place (n + 1) ⟨rest, last⟩ = pure ([], false, ⟨rest, last⟩) := by
  cases rest with
  | nil => rfl
  | cons t ts =>
    obtain ⟨-, hBracket, hPoint⟩ := h t rfl
    unfold accessorTail
    simp [Expression.Tokens.eat?, hBracket, hPoint]

/-! ## Names of tokens -/

theorem getLast?_append_name {name : String} (h : IsName name) (start : String) :
    (start ++ name).toList.getLast? ≠ some ':' := by
  rw [String.toList_append, List.getLast?_append]
  cases hLast : name.toList.getLast? with
  | none => exact absurd (List.getLast?_eq_none_iff.mp hLast) h.ne_nil
  | some c =>
    rw [Option.some_or]
    rintro ⟨⟩
    exact absurd (h.isWord ':' (List.mem_of_getLast? hLast)) (by decide)

variable {place : Position} {last : Position} {rest : List Token}

/-- A mark behind a name is read as part of the name. -/
theorem scopedNameTail_mark {name : String} (h : name.toList.getLast? ≠ some ':') {mark : Token}
    (hMark : mark.is "::" = true) (n : Nat) (ts : List Token) :
    scopedNameTail place (n + 1) name ⟨mark :: ts, last⟩ =
      scopedNameTail place (n + 1) (name ++ "::") ⟨ts, last⟩ := by
  unfold scopedNameTail
  simp [h, Expression.Tokens.eat?, hMark, Expression.Tokens.advance]

/-- A name is complete in front of what does not go on with it. -/
theorem scopedNameTail_closes (h : Unmarked rest) {name : String}
    (hName : name.toList.getLast? ≠ some ':') (n : Nat) :
    scopedNameTail place (n + 1) name ⟨rest, last⟩ = pure (name, ⟨rest, last⟩) := by
  unfold scopedNameTail
  simp [hName, h.eat?_mark]

/-! ## Operands -/

/-- The operand that stands for an entity, and what is left behind it. -/
def operandOf (evaluate : EntityId → Parsing Unit) (place : Position) (name : String)
    (id : EntityId) (rest : Expression.Tokens) : Parsing (Evaluated × Expression.Tokens) := do
  let v ← operandValue evaluate place name id [] false
  return (v, rest)

variable {evaluate : EntityId → Parsing Unit} {scope id : EntityId}
  {index : Expression.Tokens → Parsing (Evaluated × Expression.Tokens)} {s : Session}

/-- An operand whose name was read stands for what the name is found as. -/
theorem resolver_of_name {first : Token} {ts : List Token} (hRest : Closes rest) {name : String}
    (hName : scopedNameTail first.position (ts.length + 1) first.text ⟨ts, last⟩ =
      pure (name, ⟨rest, last⟩))
    (hFind : s.tree.find scope name true = some id) :
    resolver evaluate scope index ⟨first :: ts, last⟩ s =
      operandOf evaluate first.position name id ⟨rest, last⟩ s := by
  have hTree : ∀ {β : Type} (f : Tree → Parsing β), (tree >>= f) s = f s.tree s := fun f => rfl
  unfold resolver operandOf
  simp only [Expression.Tokens.advance, List.tail_cons, Expression.Tokens.position,
    List.head?_cons, Option.map_some, Option.getD_some]
  rw [hName, pure_bind]
  dsimp only
  rw [accessorTail_closes hRest, pure_bind]
  dsimp only
  rw [hTree, hFind]

end Parsing

end IdlReader
