import IdlReader.Expression
import IdlReader.Proofs.Outcome
import Mathlib.Data.List.GetD

/-!
# The grammar of expressions

An expression is a tree, whose value is computed bottom-up. Its renderings are lists of
tokens with at least the parentheses that the ten levels of C ask for. The operands are
taken to be single tokens, each with a value of its own.

* `writesBinary_iff`, `unaryOperator?_eq_some`: the evaluator's operators and precedence levels
  are those of C.
* `climb_writes`: an expression at the front of tokens is climbed with its value, and what
  follows is left to `extend`.
* `reads`: what a successful evaluation consumes is a rendering of a tree with its value.
* `evaluate_renderings`: on the renderings of a tree the evaluator gives the value of the
  tree, and it succeeds on renderings of trees only.
-/

namespace IdlReader.Expression

/-! ## Trees and their values -/

/-- An expression. The positions place the causes of failing operators. -/
inductive Tree where
  | literal (t : Token)
  | operand (t : Token)
  | unary (op : UnaryOperator) (p : Position) (e : Tree)
  | binary (op : BinaryOperator) (p : Position) (l r : Tree)

namespace Tree

/-- The value of a tree whose operands have the values `f`, from the left to the right. No
operator is applied to what is known at run time only. -/
def value (f : Token → Except Fault Evaluated) : Tree → Except Fault Evaluated
  | literal t => do
    let c ← Constant.ofLiteral t
    return .known c
  | operand t => f t
  | unary op p e => do
    match ← e.value f with
    | .dynamic => return .dynamic
    | .known a => do
      let c ← orFailAt p (Constant.unary op a)
      return .known c
  | binary op p l r => do
    let a ← l.value f
    let b ← r.value f
    match a, b with
    | .known a, .known b => do
      let c ← orFailAt p (Constant.binary op a b)
      return .known c
    | _, _ => return .dynamic

/-- The tokens of the operands, from the left to the right. -/
def operands : Tree → List Token
  | literal _ => []
  | operand t => [t]
  | unary _ _ e => e.operands
  | binary _ _ l r => l.operands ++ r.operands

end Tree

/-- The resolver of operands that are single tokens with the values `f`. -/
def oneToken (f : Token → Except Fault Evaluated) : Resolver (Except Fault) := fun _ ts =>
  match ts.rest with
  | [] => failAt .operandMissing ts.position
  | t :: _ => do
    let v ← f t
    return (v, ts.advance)

/-! ## Renderings -/

/-- Whether a token is an operand that is left to the resolver. -/
def StartsOperand (t : Token) : Prop :=
  ¬ t.is "(" ∧ (t.kind = .identifier ∨ t.kind = .keyword ∨ t.is "::")

instance (t : Token) : Decidable (StartsOperand t) := inferInstanceAs (Decidable (_ ∧ _))

/-- The binary operators of C and their signs, level by level. Those of the first level bind
tightest. -/
def binaryLevels : List (List (BinaryOperator × String)) :=
  [[(.mul, "*"), (.div, "/"), (.rem, "%")],
    [(.add, "+"), (.sub, "-")],
    [(.shl, "<<"), (.shr, ">>")],
    [(.lt, "<"), (.le, "<="), (.gt, ">"), (.ge, ">=")],
    [(.eq, "=="), (.ne, "!=")],
    [(.bitAnd, "&")],
    [(.bitXor, "^")],
    [(.bitOr, "|")],
    [(.and, "&&")],
    [(.or, "||")]]

/-- The unary operators and their signs. -/
def unarySigns : List (UnaryOperator × String) :=
  [(.plus, "+"), (.minus, "-"), (.not, "!"), (.bitNot, "~")]

/-- Whether a token writes a binary operator with `level` levels in front of its own. -/
def WritesBinary (level : Nat) (t : Token) (op : BinaryOperator) : Prop :=
  t.kind = .operator ∧ (op, t.text) ∈ binaryLevels.getD level []

/-- Whether a token writes a unary operator. -/
def WritesUnary (t : Token) (op : UnaryOperator) : Prop :=
  t.kind = .operator ∧ (op, t.text) ∈ unarySigns

instance (level : Nat) (t : Token) (op : BinaryOperator) : Decidable (WritesBinary level t op) :=
  inferInstanceAs (Decidable (_ ∧ _))

instance (t : Token) (op : UnaryOperator) : Decidable (WritesUnary t op) :=
  inferInstanceAs (Decidable (_ ∧ _))

/-- Whether tokens write an expression of which the binary operators outside of parentheses stand
on the first levels, as many as `level` says. A binary operator has operators of its own level on
its left only, and a unary operator has no binary ones. -/
inductive Writes : Nat → Tree → List Token → Prop where
  | literal {level : Nat} {t : Token} {k : LiteralKind} (hKind : t.kind = .literal k) :
      Writes level (.literal t) [t]
  | operand {level : Nat} {t : Token} (hStarts : StartsOperand t) :
      Writes level (.operand t) [t]
  | unary {level : Nat} {t : Token} {op : UnaryOperator} {e : Tree} {ts : List Token}
      (hOp : WritesUnary t op) (hInner : Writes 0 e ts) :
      Writes level (.unary op t.position e) (t :: ts)
  | binary {level k : Nat} {t : Token} {op : BinaryOperator} {l r : Tree} {ls rs : List Token}
      (hOp : WritesBinary k t op) (hLevel : k < level)
      (hLeft : Writes (k + 1) l ls) (hRight : Writes k r rs) :
      Writes level (.binary op t.position l r) (ls ++ t :: rs)
  | parentheses {level : Nat} {o c : Token} {e : Tree} {ts : List Token} (hOpen : o.is "(")
      (hKind : c.kind = .separator) (hText : c.text = ")")
      (hInner : Writes binaryLevels.length e ts) :
      Writes level e (o :: (ts ++ [c]))

/-- Whether tokens write an expression. -/
abbrev Renders : Tree → List Token → Prop := Writes binaryLevels.length

theorem Writes.mono {level level' : Nat} {e : Tree} {ts : List Token} (h : Writes level e ts)
    (hLe : level ≤ level') : Writes level' e ts := by
  cases h with
  | literal hKind => exact .literal hKind
  | operand hStarts => exact .operand hStarts
  | unary hOp hInner => exact .unary hOp hInner
  | binary hOp hLevel hLeft hRight => exact .binary hOp (by omega) hLeft hRight
  | parentheses hOpen hKind hText hInner => exact .parentheses hOpen hKind hText hInner

theorem Writes.ne_nil {level : Nat} {e : Tree} {ts : List Token} (h : Writes level e ts) :
    ts ≠ [] := by
  cases h <;> simp

/-- Whether an expression of operators that bind tighter than `level` ends in front of some
tokens: they are used up, or start with a terminator or an operator that does not bind
tighter. -/
def Stops (level : Nat) (rest : List Token) : Prop :=
  ∀ t ∈ rest.head?, isTerminator t = true ∨
    ∃ op, binaryOperator? t = some op ∧ level ≤ op.precedence

theorem Stops.nil (level : Nat) : Stops level [] := by
  intro t ht
  cases ht

theorem stops_cons {level : Nat} {t : Token} {rest : List Token} :
    Stops level (t :: rest) ↔ isTerminator t = true ∨
      ∃ op, binaryOperator? t = some op ∧ level ≤ op.precedence := by
  simp [Stops]

theorem Stops.mono {level level' : Nat} {rest : List Token} (h : Stops level rest)
    (hLe : level' ≤ level) : Stops level' rest := by
  intro t ht
  rcases h t ht with hEnd | ⟨op, hOp, hLevel⟩
  · exact Or.inl hEnd
  · exact Or.inr ⟨op, hOp, by omega⟩

/-! ## Tokens that are told apart -/

/-- Where no sign stands twice, an operator is found by its sign. -/
theorem find?_sign_eq_some {α : Type} {signs : List (α × String)} {sign : String} {op : α}
    (h : (signs.map Prod.snd).Nodup) :
    (signs.find? fun s => s.2 == sign).map Prod.fst = some op ↔ (op, sign) ∈ signs := by
  induction signs with
  | nil => simp
  | cons s signs ih =>
    obtain ⟨hFirst, hRest⟩ := List.nodup_cons.mp h
    rw [List.find?_cons, List.mem_cons]
    by_cases hSign : s.2 = sign
    · have hOther : (op, sign) ∉ signs := fun hMem =>
        hFirst (hSign ▸ List.mem_map_of_mem (f := Prod.snd) hMem)
      simp [hSign, hOther, Prod.ext_iff, eq_comm]
    · have hOther : (op, sign) ≠ s := fun hEq => hSign (hEq ▸ rfl)
      rw [beq_false_of_ne hSign, or_iff_right hOther]
      exact ih hRest

/-- The evaluator takes the operators of C for operators. -/
theorem binaryOperator?_eq_some {t : Token} {op : BinaryOperator} :
    binaryOperator? t = some op ↔ t.kind = .operator ∧ (op, t.text) ∈ binaryLevels.flatten := by
  unfold binaryOperator? BinaryOperator.ofSign?
  split
  · rename_i hKind
    rw [find?_sign_eq_some (by decide), and_iff_right hKind]
    rfl
  · rename_i hKind
    simp [hKind]

theorem unaryOperator?_eq_some {t : Token} {op : UnaryOperator} :
    unaryOperator? t = some op ↔ WritesUnary t op := by
  unfold unaryOperator? UnaryOperator.ofSign? WritesUnary
  split
  · rename_i hKind
    rw [find?_sign_eq_some (by decide), and_iff_right hKind]
    rfl
  · rename_i hKind
    simp [hKind]

theorem WritesBinary.lt {level : Nat} {t : Token} {op : BinaryOperator}
    (h : WritesBinary level t op) : level < binaryLevels.length := by
  refine Nat.lt_of_not_le fun hLe => ?_
  have hMem := h.2
  rw [List.getD_eq_default _ _ hLe] at hMem
  cases hMem

/-- The evaluator counts the levels of C from one. -/
theorem writesBinary_iff {level : Nat} {t : Token} {op : BinaryOperator} :
    WritesBinary level t op ↔ binaryOperator? t = some op ∧ op.precedence = level + 1 := by
  have hLevels : ∀ n < binaryLevels.length, ∀ p ∈ binaryLevels.getD n [], p.1.precedence = n + 1 := by
    decide
  have hRows : ∀ p ∈ binaryLevels.flatten, p ∈ binaryLevels.getD (p.1.precedence - 1) [] := by
    decide
  rw [binaryOperator?_eq_some]
  constructor
  · intro h
    have hMem : binaryLevels.getD level [] ∈ binaryLevels := by
      rw [List.getD_eq_getElem _ _ h.lt]
      exact List.getElem_mem h.lt
    exact ⟨⟨h.1, List.mem_flatten_of_mem hMem h.2⟩, hLevels level h.lt _ h.2⟩
  · rintro ⟨⟨hKind, hMem⟩, hLevel⟩
    have hRow := hRows _ hMem
    rw [hLevel] at hRow
    exact ⟨hKind, hRow⟩

theorem WritesBinary.eq_some {level : Nat} {t : Token} {op : BinaryOperator}
    (h : WritesBinary level t op) : binaryOperator? t = some op :=
  (writesBinary_iff.mp h).1

theorem WritesBinary.precedence {level : Nat} {t : Token} {op : BinaryOperator}
    (h : WritesBinary level t op) : op.precedence = level + 1 :=
  (writesBinary_iff.mp h).2

theorem exists_writesBinary {t : Token} {op : BinaryOperator} (h : binaryOperator? t = some op) :
    ∃ level, WritesBinary level t op ∧ op.precedence = level + 1 := by
  have hLevel : op.precedence = op.precedence - 1 + 1 := by
    cases op <;> rfl
  exact ⟨op.precedence - 1, writesBinary_iff.mpr ⟨h, hLevel⟩, hLevel⟩

/-- There are no other levels. -/
theorem Writes.renders {level : Nat} {e : Tree} {ts : List Token} (h : Writes level e ts) :
    Renders e ts := by
  cases h with
  | literal hKind => exact .literal hKind
  | operand hStarts => exact .operand hStarts
  | unary hOp hInner => exact .unary hOp hInner
  | binary hOp hLevel hLeft hRight => exact .binary hOp hOp.lt hLeft hRight
  | parentheses hOpen hKind hText hInner => exact .parentheses hOpen hKind hText hInner

theorem not_isTerminator_of_binaryOperator? {t : Token} {op : BinaryOperator}
    (h : binaryOperator? t = some op) : isTerminator t = false := by
  unfold binaryOperator? at h
  split at h
  · rename_i hKind
    simp [isTerminator, hKind]
  · cases h

theorem isTerminator_of_close {c : Token} (hKind : c.kind = .separator) (hText : c.text = ")") :
    isTerminator c = true := by
  simp [isTerminator, hKind, hText]

theorem is_of_close {c : Token} (hKind : c.kind = .separator) (hText : c.text = ")") :
    c.is ")" = true := by
  simp [Token.is, Token.isPlain, hKind, hText]

theorem close_of_is {c : Token} (hEnd : isTerminator c = true) (hIs : c.is ")" = true) :
    c.kind = .separator ∧ c.text = ")" := by
  simp only [isTerminator, Bool.and_eq_true, beq_iff_eq] at hEnd
  simp only [Token.is, Bool.and_eq_true, beq_iff_eq] at hIs
  exact ⟨hEnd.1, hIs.2⟩

theorem not_is_of_unaryOperator? {t : Token} {op : UnaryOperator}
    (h : unaryOperator? t = some op) : t.is "(" = false := by
  unfold unaryOperator? at h
  split at h
  · cases hIs : t.is "(" with
    | false => rfl
    | true =>
      simp only [Token.is, Bool.and_eq_true, beq_iff_eq] at hIs
      rw [hIs.2] at h
      cases h
  · cases h

theorem not_is_of_literal {t : Token} {k : LiteralKind} (h : t.kind = .literal k)
    (text : String) : t.is text = false := by
  simp [Token.is, Token.isPlain, h]

theorem unaryOperator?_of_startsOperand {t : Token} (h : StartsOperand t) :
    unaryOperator? t = none := by
  unfold unaryOperator?
  split
  · rename_i hKind
    obtain ⟨-, hWord | hWord | hIs⟩ := h
    · simp [hKind] at hWord
    · simp [hKind] at hWord
    · simp only [Token.is, Bool.and_eq_true, beq_iff_eq] at hIs
      rw [hIs.2]
      decide
  · rfl

/-! ## Single steps -/

section Steps

variable {M : Type → Type} [Monad M] [MonadExceptOf Fault M] {resolve : Resolver M}
  {last : Position}

theorem extend_of_stops {level n : Nat} {v : Evaluated} {rest : List Token} (h : Stops level rest) :
    extend resolve (n + 1) level v ⟨rest, last⟩ = pure (v, ⟨rest, last⟩) := by
  cases rest with
  | nil => rfl
  | cons t rest =>
    rw [extend]
    dsimp only
    rcases stops_cons.mp h with hEnd | ⟨op, hOp, hLevel⟩
    · rw [if_pos hEnd]
    · rw [if_neg (by simp [not_isTerminator_of_binaryOperator? hOp])]
      simp only [hOp, if_pos hLevel]

theorem extend_operator {level n : Nat} {v : Evaluated} {t : Token} {op : BinaryOperator}
    {rest : List Token} (hOp : binaryOperator? t = some op) (hLevel : op.precedence < level) :
    extend resolve (n + 1) level v ⟨t :: rest, last⟩ = (do
      let (w, ts) ← climb resolve n op.precedence ⟨rest, last⟩
      let value ← applyBinary op t.position v w
      extend resolve n level value ts) := by
  rw [extend]
  dsimp only
  rw [if_neg (by simp [not_isTerminator_of_binaryOperator? hOp])]
  simp only [hOp, if_neg (Nat.not_le.mpr hLevel)]
  rfl

theorem operand_literal {n : Nat} {t : Token} {k : LiteralKind} (hKind : t.kind = .literal k)
    (rest : List Token) :
    operand resolve (n + 1) ⟨t :: rest, last⟩ = (do
      let c ← orThrow (Constant.ofLiteral t)
      return (.known c, ⟨rest, last⟩)) := by
  have hUnary : unaryOperator? t = none := by simp [unaryOperator?, hKind]
  rw [operand]
  dsimp only
  rw [if_neg (by simp [not_is_of_literal hKind])]
  simp only [hUnary, hKind]
  rfl

theorem operand_word {n : Nat} {t : Token} (hStarts : StartsOperand t) (rest : List Token) :
    operand resolve (n + 1) ⟨t :: rest, last⟩ =
      resolve (climb resolve n lowestPrecedence) ⟨t :: rest, last⟩ := by
  rw [operand]
  dsimp only
  rw [if_neg hStarts.1]
  simp only [unaryOperator?_of_startsOperand hStarts]
  obtain ⟨-, hKind | hKind | hIs⟩ := hStarts
  · simp only [hKind]
  · simp only [hKind]
  · split
    · rename_i hLiteral
      simp [not_is_of_literal hLiteral] at hIs
    · rfl
    · rfl
    · rw [if_pos hIs]

theorem operand_unary {n : Nat} {t : Token} {op : UnaryOperator}
    (hOp : unaryOperator? t = some op) (rest : List Token) :
    operand resolve (n + 1) ⟨t :: rest, last⟩ = (do
      let (v, ts) ← climb resolve n 0 ⟨rest, last⟩
      let value ← applyUnary op t.position v
      return (value, ts)) := by
  rw [operand]
  dsimp only
  rw [if_neg (by simp [not_is_of_unaryOperator? hOp])]
  simp only [hOp]
  rfl

theorem operand_parentheses {n : Nat} {o : Token} (hOpen : o.is "(") (rest : List Token) :
    operand resolve (n + 1) ⟨o :: rest, last⟩ = (do
      let (v, ts) ← climb resolve n lowestPrecedence ⟨rest, last⟩
      let ts ← ts.expect ")"
      return (v, ts)) := by
  rw [operand]
  dsimp only
  rw [if_pos hOpen]
  rfl

theorem expect_close {c : Token} (hKind : c.kind = .separator) (hText : c.text = ")")
    (rest : List Token) :
    (Tokens.mk (c :: rest) last).expect ")" = (pure ⟨rest, last⟩ : M Tokens) := by
  simp only [Tokens.expect, Tokens.eat?, is_of_close hKind hText, if_true]
  rfl

/-! ## Renderings are evaluated -/

/-- The outcome of a tree whose operands have the outcomes `f`, from the left to the right. -/
def Tree.outcome (f : Token → M Evaluated) : Tree → M Evaluated
  | literal t => do
    let c ← orThrow (Constant.ofLiteral t)
    return .known c
  | operand t => f t
  | unary op p e => do
    let v ← e.outcome f
    applyUnary op p v
  | binary op p l r => do
    let v ← l.outcome f
    let w ← r.outcome f
    applyBinary op p v w

/-- Whether a resolver takes a token alone, with the outcome `f`, where an operand ends behind
it. -/
def Takes (resolve : Resolver M) (f : Token → M Evaluated) (t : Token) : Prop :=
  ∀ index rest last, Stops 0 rest → resolve index ⟨t :: rest, last⟩ = (do
    let v ← f t
    return (v, ⟨rest, last⟩))

variable {f : Token → M Evaluated}

/-- Whether the tokens `front` before `rest` are climbed with the outcome of an expression, and
what follows is left to `extend` with the budget `m`. -/
def Climbs (resolve : Resolver M) (f : Token → M Evaluated) (last : Position) (n level : Nat)
    (front : List Token) (m : Nat) (e : Tree) (rest : List Token) : Prop :=
  climb resolve n level ⟨front ++ rest, last⟩ = (do
    let v ← e.outcome f
    extend resolve m level v ⟨rest, last⟩)

variable [LawfulMonad M]

namespace Climbs

variable {n m level : Nat} {t : Token} {ts rest : List Token}

theorem literal {k : LiteralKind} (hKind : t.kind = .literal k) :
    Climbs resolve f last (n + 2) level [t] (n + 1) (.literal t) rest := by
  unfold Climbs
  rw [climb, List.singleton_append, operand_literal hKind]
  simp [Tree.outcome]

theorem operand (hStarts : StartsOperand t) (hTakes : Takes resolve f t) (hStops : Stops 0 rest) :
    Climbs resolve f last (n + 2) level [t] (n + 1) (.operand t) rest := by
  unfold Climbs
  rw [climb, List.singleton_append, operand_word hStarts, hTakes _ _ _ hStops]
  simp [Tree.outcome]

theorem unary {e : Tree} {op : UnaryOperator} (hOp : WritesUnary t op)
    (h : Climbs resolve f last n 0 ts (m + 1) e rest) (hStops : Stops 0 rest) :
    Climbs resolve f last (n + 2) level (t :: ts) (n + 1) (.unary op t.position e) rest := by
  unfold Climbs at h ⊢
  rw [climb, List.cons_append, operand_unary (unaryOperator?_eq_some.mpr hOp), h]
  simp only [extend_of_stops hStops, Tree.outcome, bind_assoc, pure_bind]

theorem binary {l r : Tree} {op : BinaryOperator} {ls rs : List Token} {k : Nat}
    (hOp : binaryOperator? t = some op) (hLevel : op.precedence < level)
    (hLeft : Climbs resolve f last n level ls (m + 1) l (t :: (rs ++ rest)))
    (hRight : Climbs resolve f last m op.precedence rs (k + 1) r rest)
    (hStops : Stops op.precedence rest) :
    Climbs resolve f last n level (ls ++ t :: rs) m (.binary op t.position l r) rest := by
  unfold Climbs at hLeft hRight ⊢
  have hExtend : ∀ v, extend resolve (m + 1) level v ⟨t :: (rs ++ rest), last⟩ = (do
      let w ← r.outcome f
      let value ← applyBinary op t.position v w
      extend resolve m level value ⟨rest, last⟩) := by
    intro v
    rw [extend_operator hOp hLevel, hRight]
    simp only [extend_of_stops hStops, bind_assoc, pure_bind]
  have hFront : ls ++ t :: rs ++ rest = ls ++ (t :: (rs ++ rest)) := by simp
  rw [hFront, hLeft]
  simp only [hExtend, Tree.outcome, bind_assoc]

theorem parentheses {e : Tree} {o c : Token} (hOpen : o.is "(") (hKind : c.kind = .separator)
    (hText : c.text = ")") (h : Climbs resolve f last n lowestPrecedence ts (m + 1) e (c :: rest)) :
    Climbs resolve f last (n + 2) level (o :: (ts ++ [c])) (n + 1) e rest := by
  have hStops : Stops lowestPrecedence (c :: rest) :=
    stops_cons.mpr (Or.inl (isTerminator_of_close hKind hText))
  have hFront : o :: (ts ++ [c]) ++ rest = o :: (ts ++ (c :: rest)) := by simp
  unfold Climbs at h ⊢
  rw [hFront, climb, operand_parentheses hOpen, h]
  simp only [extend_of_stops hStops, expect_close hKind hText, bind_assoc, pure_bind]

end Climbs

/-- An expression at the front of tokens is climbed with its outcome, and what follows is
left to `extend`. Two steps for each token are enough. -/
theorem climb_writes {level : Nat} {e : Tree} {ts : List Token} (h : Writes level e ts) :
    ∀ (level' : Nat) {n : Nat} {rest : List Token}, (∀ t ∈ e.operands, Takes resolve f t) →
      level ≤ level' - 1 → Stops level rest → 2 * (ts ++ rest).length + 2 ≤ n →
      ∃ m, 2 * rest.length + 1 ≤ m ∧ Climbs resolve f last n level' ts m e rest := by
  induction h with
  | @literal level t k hKind =>
    intro level' n rest hTakes hLe hStops hBudget
    obtain ⟨n, rfl⟩ : ∃ m, n = m + 2 := ⟨n - 2, by omega⟩
    exact ⟨n + 1, by simp at hBudget; omega, .literal hKind⟩
  | @operand level t hStarts =>
    intro level' n rest hTakes hLe hStops hBudget
    obtain ⟨n, rfl⟩ : ∃ m, n = m + 2 := ⟨n - 2, by omega⟩
    have hTaken : Takes resolve f t := hTakes t List.mem_cons_self
    exact ⟨n + 1, by simp at hBudget; omega,
      .operand hStarts hTaken (hStops.mono (Nat.zero_le _))⟩
  | @unary level t op e ts hOp hInner ih =>
    intro level' n rest hTakes hLe hStops hBudget
    obtain ⟨n, rfl⟩ : ∃ m, n = m + 2 := ⟨n - 2, by omega⟩
    simp only [List.cons_append, List.length_cons] at hBudget
    obtain ⟨m, hm, hClimbs⟩ :=
      ih 0 (n := n) hTakes (Nat.le_refl 0) (hStops.mono (by omega)) (by omega)
    obtain ⟨m, rfl⟩ : ∃ b, m = b + 1 := ⟨m - 1, by omega⟩
    have hLength : rest.length ≤ (ts ++ rest).length := by simp
    exact ⟨n + 1, by omega, .unary hOp hClimbs (hStops.mono (by omega))⟩
  | @binary level k t op l r ls rs hOp hLevel hLeft hRight ihLeft ihRight =>
    intro level' n rest hTakes hLe hStops hBudget
    have hPrecedence : op.precedence = k + 1 := hOp.precedence
    have hTakesLeft : ∀ t ∈ l.operands, Takes resolve f t :=
      fun t ht => hTakes t (List.mem_append_left _ ht)
    have hTakesRight : ∀ t ∈ r.operands, Takes resolve f t :=
      fun t ht => hTakes t (List.mem_append_right _ ht)
    have hLeftStops : Stops (k + 1) (t :: (rs ++ rest)) :=
      stops_cons.mpr (Or.inr ⟨op, hOp.eq_some, by omega⟩)
    simp only [List.append_assoc, List.cons_append] at hBudget
    obtain ⟨m, hm, hClimbs⟩ := ihLeft level' hTakesLeft (by omega) hLeftStops hBudget
    obtain ⟨m, rfl⟩ : ∃ b, m = b + 1 := ⟨m - 1, by omega⟩
    simp only [List.length_cons] at hm
    obtain ⟨i, hi, hClimbsRight⟩ := ihRight op.precedence (n := m) hTakesRight
      (by omega) (hStops.mono (by omega)) (by omega)
    obtain ⟨i, rfl⟩ : ∃ b, i = b + 1 := ⟨i - 1, by omega⟩
    have hLength : rest.length ≤ (rs ++ rest).length := by simp
    exact ⟨m, by omega,
      .binary hOp.eq_some (by omega) hClimbs hClimbsRight (hStops.mono (by omega))⟩
  | @parentheses level o c e ts hOpen hKind hText hInner ih =>
    intro level' n rest hTakes hLe hStops hBudget
    obtain ⟨n, rfl⟩ : ∃ m, n = m + 2 := ⟨n - 2, by omega⟩
    have hClose : Stops binaryLevels.length (c :: rest) :=
      stops_cons.mpr (Or.inl (isTerminator_of_close hKind hText))
    simp only [List.append_assoc, List.cons_append, List.nil_append, List.length_cons] at hBudget
    obtain ⟨m, hm, hClimbs⟩ := ih lowestPrecedence (n := n) hTakes (by decide) hClose
      (by omega)
    obtain ⟨m, rfl⟩ : ∃ b, m = b + 1 := ⟨m - 1, by omega⟩
    have hLength : rest.length ≤ (ts ++ c :: rest).length := by
      simp only [List.length_append, List.length_cons]
      omega
    exact ⟨n + 1, by omega, .parentheses hOpen hKind hText hClimbs⟩

/-- A rendering has the outcome of its tree if the resolver takes the operands alone. -/
theorem evaluate_writes {e : Tree} {ts : List Token} (h : Renders e ts)
    (hTakes : ∀ t ∈ e.operands, Takes resolve f t) : evaluate resolve ts = e.outcome f := by
  have hEmpty : ts.isEmpty = false := by simpa using h.ne_nil
  have hBudget : 2 * (ts ++ []).length + 2 ≤ budgetFor ts := by
    simp only [List.append_nil, budgetFor]
    omega
  have hClimbs : ∃ m, 2 * ([] : List Token).length + 1 ≤ m ∧ Climbs resolve f
      (Tokens.ofList ts).last (budgetFor ts) lowestPrecedence ts m e [] :=
    climb_writes h _ hTakes (by decide) (Stops.nil _) hBudget
  obtain ⟨m, hm, hClimb⟩ := hClimbs
  obtain ⟨m, rfl⟩ : ∃ b, m = b + 1 := ⟨m - 1, by simp at hm; omega⟩
  rw [Climbs, List.append_nil] at hClimb
  have hTokens : Tokens.ofList ts = ⟨ts, (Tokens.ofList ts).last⟩ := rfl
  unfold evaluate evaluateAt
  rw [hTokens, hClimb]
  simp [hEmpty, extend_of_stops (Stops.nil _)]

end Steps

/-! ## Values -/

variable {f : Token → Except Fault Evaluated}

theorem value_unary (op : UnaryOperator) (p : Position) (e : Tree) :
    (Tree.unary op p e).value f = e.value f >>= applyUnary op p := by
  rw [Tree.value]
  cases e.value f with
  | error fault => rfl
  | ok v => cases v <;> rfl

theorem value_binary (op : BinaryOperator) (p : Position) (l r : Tree) :
    (Tree.binary op p l r).value f = (do
      let v ← l.value f
      let w ← r.value f
      applyBinary op p v w) := by
  rw [Tree.value]
  cases l.value f with
  | error fault => rfl
  | ok v =>
    cases r.value f with
    | error fault => rfl
    | ok w => cases v <;> cases w <;> rfl

/-- Without a state the outcome of a tree is its value. -/
theorem outcome_eq_value (e : Tree) : e.outcome f = e.value f := by
  induction e with
  | literal t =>
    rw [Tree.outcome, Tree.value]
    cases Constant.ofLiteral t <;> rfl
  | operand t => rfl
  | unary op p e ih => rw [Tree.outcome, ih, value_unary]
  | binary op p l r ihLeft ihRight => rw [Tree.outcome, ihLeft, ihRight, value_binary]

theorem takes_oneToken (t : Token) : Takes (oneToken f) f t := fun _ _ _ _ => rfl

/-! ## What is evaluated is a rendering -/

/-- What an evaluation has consumed is a rendering, of operators of the first levels, of a tree with
the value `v`. -/
def Reads (f : Token → Except Fault Evaluated) (level : Nat) (consumed : List Token)
    (v : Evaluated) : Prop :=
  ∃ e, Writes level e consumed ∧ e.value f = .ok v

namespace Reads

variable {level k : Nat} {t : Token} {ts ls rs : List Token} {v w x : Evaluated}

theorem mono {level' : Nat} (h : Reads f level ts v) (hLe : level ≤ level') :
    Reads f level' ts v := by
  obtain ⟨e, hWrites, hValue⟩ := h
  exact ⟨e, hWrites.mono hLe, hValue⟩

theorem unary (op : UnaryOperator) (hOp : WritesUnary t op) (h : Reads f 0 ts v)
    (hApply : applyUnary op t.position v = (.ok w : Except Fault Evaluated)) :
    Reads f level (t :: ts) w := by
  obtain ⟨e, hWrites, hValue⟩ := h
  refine ⟨_, .unary hOp hWrites, ?_⟩
  rw [value_unary, hValue]
  exact hApply

theorem binary (op : BinaryOperator) (hOp : WritesBinary k t op) (hLevel : k < level)
    (hLeft : Reads f (k + 1) ls v) (hRight : Reads f k rs w)
    (hApply : applyBinary op t.position v w = (.ok x : Except Fault Evaluated)) :
    Reads f level (ls ++ t :: rs) x := by
  obtain ⟨l, hLeft, hLeftValue⟩ := hLeft
  obtain ⟨r, hRight, hRightValue⟩ := hRight
  refine ⟨_, .binary hOp hLevel hLeft hRight, ?_⟩
  rw [value_binary, hLeftValue, hRightValue]
  exact hApply

end Reads

/-- Operators in front of which a tree of the level `level` may stand unparenthesized. -/
def Admits (level : Nat) (rest : List Token) : Prop :=
  ∀ t ∈ rest.head?, ∀ op, binaryOperator? t = some op → level ≤ op.precedence

theorem Stops.admits {level : Nat} {rest : List Token} (h : Stops level rest) :
    Admits level rest := by
  intro t ht op hOp
  rcases h t ht with hEnd | ⟨q, hq, hLevel⟩
  · rw [not_isTerminator_of_binaryOperator? hOp] at hEnd
    cases hEnd
  · rw [hOp] at hq
    cases hq
    omega

theorem expect_eq_ok {ts ts' : Tokens} {text : String}
    (h : (ts.expect text : Except Fault Tokens) = .ok ts') :
    ∃ c, ts.rest = c :: ts'.rest ∧ c.is text = true ∧ ts'.last = ts.last := by
  obtain ⟨rest, last⟩ := ts
  cases rest with
  | nil => cases h
  | cons c rest =>
    simp only [Tokens.expect, Tokens.eat?] at h
    split at h
    · rename_i hSome
      split at hSome
      · rename_i hIs
        cases hSome
        cases h
        exact ⟨c, rfl, hIs, rfl⟩
      · cases hSome
    · cases h

/-- What the three parts of an evaluation consume when they succeed with the budget `n`. -/
structure Reading (f : Token → Except Fault Evaluated) (n : Nat) : Prop where
  operand : ∀ {ts ts' : Tokens} {v : Evaluated},
    Expression.operand (oneToken f) n ts = .ok (v, ts') →
      ∃ xs, ts.rest = xs ++ ts'.rest ∧ Reads f 0 xs v
  climb : ∀ {level : Nat} {ts ts' : Tokens} {v : Evaluated},
    Expression.climb (oneToken f) n level ts = .ok (v, ts') →
      ∃ xs, ts.rest = xs ++ ts'.rest ∧ Reads f (level - 1) xs v ∧ Stops level ts'.rest
  extend : ∀ {level k : Nat} {ts ts' : Tokens} {v w : Evaluated} {ls : List Token},
    Expression.extend (oneToken f) n level v ts = .ok (w, ts') →
      k ≤ level - 1 → Admits k ts.rest → Reads f k ls v →
      ∃ xs, ts.rest = xs ++ ts'.rest ∧ Reads f (level - 1) (ls ++ xs) w ∧ Stops level ts'.rest

theorem reading_operand {n : Nat} (ih : Reading f n) {ts ts' : Tokens} {v : Evaluated}
    (h : operand (oneToken f) (n + 1) ts = .ok (v, ts')) :
    ∃ xs, ts.rest = xs ++ ts'.rest ∧ Reads f 0 xs v := by
  obtain ⟨rest, last⟩ := ts
  cases rest with
  | nil => cases h
  | cons t rest =>
    by_cases hOpen : t.is "(" = true
    · rw [operand_parentheses hOpen, bind_eq_ok] at h
      obtain ⟨⟨w, inner⟩, hClimb, h⟩ := h
      rw [bind_eq_ok] at h
      obtain ⟨after, hExpect, h⟩ := h
      cases h
      obtain ⟨xs, hInner, ⟨e, hWrites, hValue⟩, hStops⟩ := ih.climb hClimb
      obtain ⟨c, hClose, hIs, -⟩ := expect_eq_ok hExpect
      rw [hClose] at hStops hInner
      have hEnd : isTerminator c = true := by
        rcases stops_cons.mp hStops with hEnd | ⟨op, hOp, hLevel⟩
        · exact hEnd
        · cases op <;> simp [lowestPrecedence, BinaryOperator.precedence] at hLevel
      obtain ⟨hKind, hText⟩ := close_of_is hEnd hIs
      refine ⟨t :: (xs ++ [c]), ?_, e, .parentheses hOpen hKind hText hWrites.renders, hValue⟩
      change t :: rest = t :: (xs ++ [c]) ++ ts'.rest
      have hRest : rest = xs ++ c :: ts'.rest := hInner
      simp [hRest]
    · cases hUnary : unaryOperator? t with
      | some op =>
        rw [operand_unary hUnary, bind_eq_ok] at h
        obtain ⟨⟨w, inner⟩, hClimb, h⟩ := h
        rw [bind_eq_ok] at h
        obtain ⟨result, hApply, h⟩ := h
        cases h
        obtain ⟨xs, hInner, hReads, -⟩ := ih.climb hClimb
        exact ⟨t :: xs, congrArg (t :: ·) hInner,
          hReads.unary _ (unaryOperator?_eq_some.mp hUnary) hApply⟩
      | none =>
        by_cases hStarts : StartsOperand t
        · rw [operand_word hStarts] at h
          obtain ⟨w, hValue, h⟩ := bind_eq_ok.mp h
          cases h
          exact ⟨[t], rfl, _, .operand hStarts, hValue⟩
        · cases hKind : t.kind with
          | literal k =>
            rw [operand_literal hKind, bind_eq_ok] at h
            obtain ⟨c, hLiteral, h⟩ := h
            cases h
            refine ⟨[t], rfl, _, .literal hKind, ?_⟩
            rw [← outcome_eq_value, Tree.outcome, hLiteral]
            rfl
          | identifier => exact absurd ⟨hOpen, Or.inl hKind⟩ hStarts
          | keyword => exact absurd ⟨hOpen, Or.inr (Or.inl hKind)⟩ hStarts
          | _ =>
            have hColons : ¬ t.is "::" = true := fun hIs =>
              hStarts ⟨hOpen, Or.inr (Or.inr hIs)⟩
            rw [operand] at h
            simp only [hUnary, hKind, if_neg hOpen, if_neg hColons] at h
            cases h

theorem reading_extend {n : Nat} (ih : Reading f n) {level k : Nat} {ts ts' : Tokens}
    {v w : Evaluated} {ls : List Token}
    (h : extend (oneToken f) (n + 1) level v ts = .ok (w, ts')) (hLe : k ≤ level - 1)
    (hAdmits : Admits k ts.rest) (hReads : Reads f k ls v) :
    ∃ xs, ts.rest = xs ++ ts'.rest ∧ Reads f (level - 1) (ls ++ xs) w ∧ Stops level ts'.rest := by
  obtain ⟨rest, last⟩ := ts
  have hDone : Stops level rest →
      ∃ xs, rest = xs ++ ts'.rest ∧ Reads f (level - 1) (ls ++ xs) w ∧ Stops level ts'.rest := by
    intro hStops
    rw [extend_of_stops hStops] at h
    cases h
    exact ⟨[], rfl, by simpa using hReads.mono hLe, hStops⟩
  cases rest with
  | nil => exact hDone (Stops.nil level)
  | cons t rest =>
    by_cases hEnd : isTerminator t = true
    · exact hDone (stops_cons.mpr (Or.inl hEnd))
    · cases hOp : binaryOperator? t with
      | none =>
        rw [extend] at h
        simp only [hOp, if_neg hEnd] at h
        cases h
      | some op =>
        by_cases hLevel : level ≤ op.precedence
        · exact hDone (stops_cons.mpr (Or.inr ⟨op, hOp, hLevel⟩))
        · rw [extend_operator hOp (by omega), bind_eq_ok] at h
          obtain ⟨⟨x, inner⟩, hClimb, h⟩ := h
          rw [bind_eq_ok] at h
          obtain ⟨y, hApply, h⟩ := h
          obtain ⟨rs, hInner, hRight, hStops⟩ := ih.climb hClimb
          obtain ⟨i, hSign, hPrecedence⟩ := exists_writesBinary hOp
          have hLeft : Reads f (i + 1) ls v := hPrecedence ▸ hReads.mono (hAdmits t rfl op hOp)
          have hTree : Reads f op.precedence (ls ++ t :: rs) y :=
            hLeft.binary _ hSign (by omega) (hRight.mono (by omega)) hApply
          obtain ⟨xs, hRest, hResult, hLast⟩ := ih.extend h (by omega) hStops.admits hTree
          refine ⟨t :: rs ++ xs, ?_, by simpa using hResult, hLast⟩
          have hInner : rest = rs ++ inner.rest := hInner
          simp [hInner, hRest]

/-- What a successful evaluation consumes is a rendering of a tree with its value. -/
theorem reads (f : Token → Except Fault Evaluated) (n : Nat) : Reading f n := by
  induction n with
  | zero =>
    constructor
    · intro ts ts' v h
      cases h
    · intro level ts ts' v h
      cases h
    · intro level k ts ts' v w ls h
      cases h
  | succ n ih =>
    constructor
    · intro ts ts' v h
      exact reading_operand ih h
    · intro level ts ts' v h
      rw [climb, bind_eq_ok] at h
      obtain ⟨⟨w, inner⟩, hOperand, h⟩ := h
      obtain ⟨xs, hFront, hReads⟩ := ih.operand hOperand
      have hAdmits : Admits 0 inner.rest := by
        intro t ht op hOp
        exact Nat.zero_le _
      obtain ⟨ys, hRest, hResult, hStops⟩ := ih.extend h (Nat.zero_le _) hAdmits hReads
      exact ⟨xs ++ ys, by rw [hFront, hRest, List.append_assoc], hResult, hStops⟩
    · intro level k ts ts' v w ls h hLe hAdmits hReads
      exact reading_extend ih h hLe hAdmits hReads

/-! ## The grammar -/

theorem evaluate_of_writes {e : Tree} {ts : List Token} (h : Renders e ts) :
    evaluate (oneToken f) ts = e.value f := by
  rw [evaluate_writes h fun t _ => takes_oneToken t, outcome_eq_value]

theorem writes_of_evaluate {ts : List Token} {v : Evaluated}
    (h : evaluate (oneToken f) ts = .ok v) : ∃ e, Renders e ts ∧ e.value f = .ok v := by
  unfold evaluate evaluateAt at h
  cases ts with
  | nil => cases h
  | cons t ts =>
    obtain ⟨⟨w, rest⟩, hEvaluate, h⟩ := bind_eq_ok.mp h
    obtain ⟨⟨x, after⟩, hClimb, hResult⟩ := bind_eq_ok.mp hEvaluate
    cases hResult
    obtain ⟨xs, hFront, hReads, -⟩ := (reads f _).climb hClimb
    cases hAfter : after.rest with
    | cons c rest =>
      rw [hAfter] at h
      cases h
    | nil =>
      rw [hAfter] at h hFront
      cases h
      have hAll : t :: ts = xs := by simpa [Tokens.ofList] using hFront
      obtain ⟨e, hWrites, hValue⟩ := hReads
      exact ⟨e, hAll ▸ hWrites.renders, hValue⟩

theorem isDynamic_value {e : Tree} {v : Evaluated} (h : e.value f = .ok v) :
    v.isDynamic = true ↔ ∃ t ∈ e.operands, ∃ w, f t = .ok w ∧ w.isDynamic = true := by
  induction e generalizing v with
  | literal t =>
    obtain ⟨c, -, hc⟩ := bind_eq_ok.mp h
    cases hc
    simp [Tree.operands, Evaluated.isDynamic]
  | operand t =>
    have hValue : f t = .ok v := h
    simp [Tree.operands, hValue]
  | unary op p e ih =>
    rw [value_unary, bind_eq_ok] at h
    obtain ⟨w, hInner, h⟩ := h
    rw [Tree.operands, ← ih hInner]
    cases w with
    | dynamic =>
      cases h
      rfl
    | known a =>
      obtain ⟨c, -, hc⟩ := bind_eq_ok.mp h
      cases hc
      rfl
  | binary op p l r ihLeft ihRight =>
    rw [value_binary, bind_eq_ok] at h
    obtain ⟨x, hLeft, h⟩ := h
    obtain ⟨y, hRight, h⟩ := bind_eq_ok.mp h
    simp only [Tree.operands, List.mem_append, or_and_right, exists_or]
    rw [← ihLeft hLeft, ← ihRight hRight]
    cases x with
    | dynamic =>
      cases h
      simp [Evaluated.isDynamic]
    | known a =>
      cases y with
      | dynamic =>
        cases h
        simp [Evaluated.isDynamic]
      | known b =>
        obtain ⟨c, -, hc⟩ := bind_eq_ok.mp h
        cases hc
        simp [Evaluated.isDynamic]

/-- The evaluator reads the grammar of expressions. On every rendering of a tree it has the
outcome of the tree, faults included; the result is known at run time only if an operand is;
and tokens that are evaluated render a tree with that value. -/
theorem evaluate_renderings (f : Token → Except Fault Evaluated) :
    (∀ e ts, Renders e ts → evaluate (oneToken f) ts = e.value f) ∧
    (∀ e v, Tree.value f e = .ok v →
      (v.isDynamic = true ↔ ∃ t ∈ e.operands, ∃ w, f t = .ok w ∧ w.isDynamic = true)) ∧
    (∀ ts v, evaluate (oneToken f) ts = .ok v → ∃ e, Renders e ts ∧ e.value f = .ok v) :=
  ⟨fun _ _ hWrites => evaluate_of_writes hWrites, fun _ _ hValue => isDynamic_value hValue,
    fun _ _ hEvaluate => writes_of_evaluate hEvaluate⟩

/-- Levels in `a - b - a * -b << a != ~b && a < b || !a`: the left difference is taken first, the
product before the right one, then come the shift and the comparisons, `&&` and `||`. -/
theorem evaluate_renderings_mixed :
    let token (kind : TokenKind) (text : String) := Token.point kind text Position.start 0
    let a := token .identifier "a"
    let b := token .identifier "b"
    let sign := token .operator
    let f (t : Token) : Except Fault Evaluated :=
      .ok (.known (Constant.ofInt .int32 (if t.text = "a" then 1 else 2)))
    evaluate (oneToken f) [a, sign "-", b, sign "-", a, sign "*", sign "-", b, sign "<<", a, sign "!=",
        sign "~", b, sign "&&", a, sign "<", b, sign "||", sign "!", a] =
      .ok (.known (Constant.ofBool true)) := by
  intro token a b sign f
  let value (n : Int) : Evaluated := .known (Constant.ofInt .int32 n)
  have hA {level : Nat} : Reads f level [a] (value 1) := ⟨.operand a, .operand (by decide), rfl⟩
  have hB {level : Nat} : Reads f level [b] (value 2) := ⟨.operand b, .operand (by decide), rfl⟩
  have hProduct : Reads f 1 ([a] ++ sign "*" :: sign "-" :: [b]) (value (-2)) :=
    .binary (k := 0) .mul (by decide) (by decide) hA
      (hB.unary (w := value (-2)) .minus (by decide) rfl) rfl
  have hLeft : Reads f 2 ([a] ++ sign "-" :: [b]) (value (-1)) :=
    .binary (k := 1) .sub (by decide) (by decide) hA hB rfl
  have hDifference : Reads f 3 (_ ++ sign "-" :: _) (value 1) :=
    .binary (k := 1) .sub (by decide) (by decide) hLeft hProduct rfl
  have hShift : Reads f 5 (_ ++ sign "<<" :: [a]) (value 2) :=
    .binary (k := 2) .shl (by decide) (by decide) hDifference hA rfl
  have hOther : Reads f 9 (_ ++ sign "!=" :: sign "~" :: [b]) (.known (Constant.ofBool true)) :=
    .binary (k := 4) .ne (by decide) (by decide) hShift
      (hB.unary (w := value (-3)) .bitNot (by decide) rfl) rfl
  have hLess : Reads f 8 ([a] ++ sign "<" :: [b]) (.known (Constant.ofBool true)) :=
    .binary (k := 3) .lt (by decide) (by decide) hA hB rfl
  have hBoth : Reads f 10 (_ ++ sign "&&" :: _) (.known (Constant.ofBool true)) :=
    .binary (k := 8) .and (by decide) (by decide) hOther hLess rfl
  obtain ⟨e, hWrites, hValue⟩ : Reads f 10 (_ ++ sign "||" :: sign "!" :: [a])
      (.known (Constant.ofBool true)) :=
    .binary (k := 9) .or (by decide) (by decide) hBoth
      (hA.unary (w := .known (Constant.ofBool false)) .not (by decide) rfl) rfl
  exact ((evaluate_renderings f).1 e _ hWrites).trans hValue

end IdlReader.Expression
