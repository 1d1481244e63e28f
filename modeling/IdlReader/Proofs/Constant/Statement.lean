import IdlReader.Entity.Tree
import IdlReader.Proofs.Constant.Order
import IdlReader.Proofs.Grammar.Session

/-!
# Constants as they are written

A module of constants is written as `module M { const T n = e; … };` with integral types, names
that differ in more than their case, and assignments that name constants of the same module.

The statement of a constant is `const T n[s]… = v;`. It is read up to its end whatever is assigned,
as long as brackets match there (`Grouped`). The sizes in it are literal expressions.

* `WrittenConstant.assigned`: what the value of a constant depends on.
* `WrittenModule.tokens`: the tokens of a module.
* `WrittenModule.closed_body`, `WrittenModule.operand_mem`: the names in assignments.
* `Expression.Writes.grouped`: expressions.
* `ConstStatement.unfinished`: the tokens of a statement.
* `LiteralExpression`, `WrittenSize`: what stands in dimensions and as elements.
-/

/-! ## Modules -/

namespace IdlReader

/-- What names have in common that are the same in an environment. -/
def Environment.fold (env : Environment) (name : String) : String :=
  (Tree.initial (env.enables .caseSensitiveNames)).key name

/-- Whether tokens write the name `text` of a base type. -/
inductive WritesBase : List Token → String → Prop where
  | word {t : Token} (hKeyword : t.isKeyword = true) (hLong : t.text ≠ "long")
      (hUnsigned : t.text ≠ "unsigned") : WritesBase [t] t.text
  | long {t : Token} (hKeyword : t.isKeyword = true) (hText : t.text = "long") :
      WritesBase [t] "long"
  | longLong {t u : Token} (hKeyword : t.isKeyword = true) (hText : t.text = "long")
      (hLong : u.is "long" = true) : WritesBase [t, u] "long long"
  | unsignedShort {t u : Token} (hKeyword : t.isKeyword = true) (hText : t.text = "unsigned")
      (hShort : u.is "short" = true) : WritesBase [t, u] "unsigned short"
  | unsignedLong {t u : Token} (hKeyword : t.isKeyword = true) (hText : t.text = "unsigned")
      (hLong : u.is "long" = true) : WritesBase [t, u] "unsigned long"
  | unsignedLongLong {t u v : Token} (hKeyword : t.isKeyword = true)
      (hText : t.text = "unsigned") (hLong : u.is "long" = true) (hLonger : v.is "long" = true) :
      WritesBase [t, u, v] "unsigned long long"

/-- Whether the name `text` of a base type does not go on with the token behind it. -/
structure EndsBase (text : String) (u : Token) : Prop where
  long : text = "long" → u.isOneOf ["long", "double"] = false
  unsignedLong : text = "unsigned long" → u.is "long" = false

/-- A constant `const T n = e;` of an integral type. -/
structure WrittenConstant (env : Environment) where
  keyword : Token
  type : List Token
  typeText : String
  base : BaseType
  kind : IntegerKind
  name : Token
  sign : Token
  assignment : List Token
  expression : Expression.Tree
  terminator : Token
  hKeyword : keyword.is "const" = true
  hType : WritesBase type typeText
  hBase : BaseType.ofText? env typeText = some base
  hKind : base.kind? = some (.integer kind)
  /-- Enumerations have integral values, but are not named by a keyword alone. -/
  hPlain : base ≠ .enum
  hName : name.isIdentifier = true ∨
    name.isKeyword = true ∧ env.enables .contextDependentNames = true
  hSeparate : EndsBase typeText name
  hSign : sign.is "=" = true
  hAssignment : Expression.Renders expression assignment
  hOperands : ∀ t ∈ expression.operands, t.isWord = true
  hTerminator : terminator.is ";" = true

namespace WrittenConstant

variable {env : Environment}

/-- The tokens of a constant. -/
def tokens (c : WrittenConstant env) : List Token :=
  c.keyword :: (c.type ++ c.name :: c.sign :: (c.assignment ++ [c.terminator]))

/-- The type of a constant. -/
def declaredType (c : WrittenConstant env) : DeclaredType := { base := c.base, text := c.typeText }

/-- What is known about a constant before it is evaluated. -/
def declaration (c : WrittenConstant env) : Declaration :=
  { type := c.declaredType, assignment := c.assignment, readonly := true }

/-- What its value depends on, wherever it is written. -/
def assigned (c : WrittenConstant env) : Assigned :=
  ⟨env.fold c.name.text, .integer c.kind, c.expression.unplaced⟩

end WrittenConstant

/-- A module `module M { … };` of constants. -/
structure WrittenModule (env : Environment) where
  keyword : Token
  name : Token
  opening : Token
  constants : List (WrittenConstant env)
  closing : Token
  terminator : Token
  hKeyword : keyword.isKeyword = true ∧ keyword.text = "module"
  hName : name.isIdentifier = true
  hOpening : opening.is "\x7b" = true ∧ opening.isIdentifier = false
  hClosing : closing.is "\x7d" = true
  hTerminator : terminator.is ";" = true
  distinct : (constants.map fun c => c.assigned.key).Nodup
  /-- The names in assignments are those of constants of the module. -/
  closed : ∀ c ∈ constants, ∀ t ∈ c.expression.operands, ∃ b ∈ constants,
    env.fold t.text = b.assigned.key

namespace WrittenModule

variable {env : Environment}

/-- The tokens of a module. -/
def tokens (m : WrittenModule env) : List Token :=
  m.keyword :: m.name :: m.opening ::
    (m.constants.flatMap WrittenConstant.tokens ++ [m.closing, m.terminator])

/-- What the values of the constants depend on. -/
def body (m : WrittenModule env) : List Assigned := m.constants.map WrittenConstant.assigned

end WrittenModule

/-! ## The tokens -/

namespace Expression.Writes

variable {level : Nat} {e : Tree} {ts : List Token}

/-- The operands of an expression are among its tokens. -/
theorem operands_subset (h : Writes level e ts) : e.operands ⊆ ts := by
  induction h with
  | literal hKind => exact List.nil_subset _
  | operand hStarts => exact List.Subset.refl _
  | unary hOp hInner ih => exact fun t ht => List.mem_cons_of_mem _ (ih ht)
  | binary hOp hLevel hLeft hRight ihLeft ihRight =>
    intro t ht
    rcases List.mem_append.mp ht with ht | ht
    · exact List.mem_append_left _ (ihLeft ht)
    · exact List.mem_append_right _ (List.mem_cons_of_mem _ (ihRight ht))
  | parentheses hOpen hKind hText hInner ih =>
    exact fun t ht => List.mem_cons_of_mem _ (List.mem_append_left _ (ih ht))

theorem unfinished (h : Writes level e ts) : ∀ t ∈ ts, t.isFinish = false := by
  induction h with
  | literal hKind =>
    intro t ht
    rw [List.mem_singleton.mp ht]
    exact Token.not_isFinish_of_kind hKind nofun
  | operand hStarts =>
    intro t ht
    rw [List.mem_singleton.mp ht]
    obtain ⟨-, hKind | hKind | hIs⟩ := hStarts
    · exact Token.not_isFinish_of_kind hKind nofun
    · exact Token.not_isFinish_of_kind hKind nofun
    · exact Token.not_isFinish_of_is hIs
  | @unary level t op e ts hOp hInner ih =>
    exact List.forall_mem_cons.mpr ⟨Token.not_isFinish_of_kind hOp.1 nofun, ih⟩
  | @binary level k t op l r ls rs hOp hLevel hLeft hRight ihLeft ihRight =>
    refine List.forall_mem_append.mpr ⟨ihLeft, List.forall_mem_cons.mpr ⟨?_, ihRight⟩⟩
    exact Token.not_isFinish_of_kind hOp.1 nofun
  | parentheses hOpen hKind hText hInner ih =>
    refine List.forall_mem_cons.mpr ⟨Token.not_isFinish_of_is hOpen, ?_⟩
    refine List.forall_mem_append.mpr ⟨ih, List.forall_mem_singleton.mpr ?_⟩
    exact Token.not_isFinish_of_kind hKind nofun

end Expression.Writes

theorem WritesBase.unfinished {type : List Token} {text : String} (h : WritesBase type text) :
    ∀ t ∈ type, t.isFinish = false := by
  have hNil : ∀ t ∈ ([] : List Token), t.isFinish = false := nofun
  cases h with
  | word hKeyword => exact List.forall_mem_cons.mpr ⟨Token.not_isFinish_of_isKeyword hKeyword, hNil⟩
  | long hKeyword => exact List.forall_mem_cons.mpr ⟨Token.not_isFinish_of_isKeyword hKeyword, hNil⟩
  | longLong hKeyword hText hNext | unsignedShort hKeyword hText hNext
  | unsignedLong hKeyword hText hNext =>
    exact List.forall_mem_cons.mpr ⟨Token.not_isFinish_of_isKeyword hKeyword,
      List.forall_mem_cons.mpr ⟨Token.not_isFinish_of_is hNext, hNil⟩⟩
  | unsignedLongLong hKeyword hText hNext hLonger =>
    exact List.forall_mem_cons.mpr ⟨Token.not_isFinish_of_isKeyword hKeyword,
      List.forall_mem_cons.mpr ⟨Token.not_isFinish_of_is hNext,
        List.forall_mem_cons.mpr ⟨Token.not_isFinish_of_is hLonger, hNil⟩⟩⟩

theorem WrittenConstant.unfinished {env : Environment} (c : WrittenConstant env) :
    ∀ t ∈ c.tokens, t.isFinish = false := by
  have hName : c.name.isWord = true := by
    unfold Token.isWord
    rcases c.hName with hIdentifier | ⟨hKeyword, -⟩
    · rw [hIdentifier, Bool.true_or]
    · rw [hKeyword, Bool.or_true]
  refine List.forall_mem_cons.mpr ⟨Token.not_isFinish_of_is c.hKeyword, ?_⟩
  refine List.forall_mem_append.mpr ⟨c.hType.unfinished, List.forall_mem_cons.mpr ⟨?_, ?_⟩⟩
  · exact Token.not_isFinish_of_isWord hName
  refine List.forall_mem_cons.mpr ⟨Token.not_isFinish_of_is c.hSign, ?_⟩
  refine List.forall_mem_append.mpr ⟨c.hAssignment.unfinished, List.forall_mem_singleton.mpr ?_⟩
  exact Token.not_isFinish_of_is c.hTerminator

namespace WrittenModule

variable {env : Environment} (m : WrittenModule env)

theorem unfinished : ∀ t ∈ m.tokens, t.isFinish = false := by
  have hName : m.name.isWord = true := by
    unfold Token.isWord
    rw [m.hName, Bool.true_or]
  refine List.forall_mem_cons.mpr ⟨Token.not_isFinish_of_isKeyword m.hKeyword.1, ?_⟩
  refine List.forall_mem_cons.mpr ⟨Token.not_isFinish_of_isWord hName, ?_⟩
  refine List.forall_mem_cons.mpr ⟨Token.not_isFinish_of_is m.hOpening.1, ?_⟩
  refine List.forall_mem_append.mpr ⟨fun t ht => ?_, ?_⟩
  · obtain ⟨c, -, hc⟩ := List.mem_flatMap.mp ht
    exact c.unfinished t hc
  · refine List.forall_mem_cons.mpr ⟨Token.not_isFinish_of_is m.hClosing, ?_⟩
    exact List.forall_mem_singleton.mpr (Token.not_isFinish_of_is m.hTerminator)

/-- The names in assignments are among the tokens. -/
theorem operand_mem {c : WrittenConstant env} (hc : c ∈ m.constants) {t : Token}
    (ht : t ∈ c.expression.operands) : t ∈ m.tokens := by
  have hConstant : t ∈ c.tokens :=
    List.mem_cons_of_mem _ (List.mem_append_right _ (List.mem_cons_of_mem _
      (List.mem_cons_of_mem _ (List.mem_append_left _ (c.hAssignment.operands_subset ht)))))
  have hConstants : t ∈ m.constants.flatMap WrittenConstant.tokens :=
    List.mem_flatMap.mpr ⟨c, hc, hConstant⟩
  exact List.mem_cons_of_mem _ (List.mem_cons_of_mem _ (List.mem_cons_of_mem _
    (List.mem_append_left _ hConstants)))

/-- The names in assignments are keys of constants. -/
theorem closed_body : ∀ c ∈ m.body, ∀ t ∈ c.expression.operands, ∃ b ∈ m.body,
    env.fold t.text = b.key := by
  intro a ha t ht
  obtain ⟨c, hc, rfl⟩ := List.mem_map.mp ha
  change t ∈ c.expression.unplaced.operands at ht
  rw [Expression.operands_unplaced] at ht
  obtain ⟨u, hu, rfl⟩ := List.mem_map.mp ht
  obtain ⟨b, hb, hKey⟩ := m.closed c hc u hu
  exact ⟨b.assigned, List.mem_map.mpr ⟨b, hb, rfl⟩, hKey⟩

theorem nodup_body : (m.body.map Assigned.key).Nodup := by
  unfold body
  rw [List.map_map]
  exact m.distinct

end WrittenModule

end IdlReader

/-! ## Statements -/

namespace IdlReader

/-- Lists that are not empty have an element each at least. -/
theorem length_le_flatMap {α β : Type} {f : α → List β} (hf : ∀ a, 0 < (f a).length) (l : List α) :
    l.length ≤ (l.flatMap f).length := by
  induction l with
  | nil => exact Nat.le_refl 0
  | cons a l ih =>
    rw [List.flatMap_cons, List.length_append, List.length_cons]
    have hPos := hf a
    omega

/-! ## Groups of tokens -/

/-- The marks that separate or enclose initializers and dimensions. -/
def Token.marks : List String := [";", ",", "(", ")", "[", "]", "\x7b", "\x7d"]

/-- Whether brackets match among tokens of an initializer, in which commas stand between braces
only unless `commas`. -/
inductive Grouped : (commas : Bool) → List Token → Prop where
  | nil {commas : Bool} : Grouped commas []
  | token {commas : Bool} {t : Token} (hFinish : t.isFinish = false)
      (hPlain : ∀ text ∈ Token.marks, t.is text = false) : Grouped commas [t]
  | comma {t : Token} (hComma : t.is "," = true) : Grouped true [t]
  | append {commas : Bool} {ts us : List Token} (hFirst : Grouped commas ts)
      (hSecond : Grouped commas us) : Grouped commas (ts ++ us)
  | round {commas : Bool} {o c : Token} {ts : List Token} (hOpening : o.is "(" = true)
      (hClosing : c.is ")" = true) (hInner : Grouped commas ts) :
      Grouped commas (o :: (ts ++ [c]))
  | curly {commas : Bool} {o c : Token} {ts : List Token} (hOpening : o.is "\x7b" = true)
      (hClosing : c.is "\x7d" = true) (hInner : Grouped true ts) :
      Grouped commas (o :: (ts ++ [c]))

namespace Grouped

variable {commas : Bool} {ts : List Token}

theorem cons {t : Token} (ht : Grouped commas [t]) (h : Grouped commas ts) :
    Grouped commas (t :: ts) := ht.append h

theorem unfinished (h : Grouped commas ts) : ∀ t ∈ ts, t.isFinish = false := by
  induction h with
  | nil => exact nofun
  | token hFinish hPlain => exact List.forall_mem_singleton.mpr hFinish
  | comma hComma => exact List.forall_mem_singleton.mpr (Token.not_isFinish_of_is hComma)
  | append hFirst hSecond ihFirst ihSecond => exact List.forall_mem_append.mpr ⟨ihFirst, ihSecond⟩
  | round hOpening hClosing hInner ih | curly hOpening hClosing hInner ih =>
    refine List.forall_mem_cons.mpr ⟨Token.not_isFinish_of_is hOpening, ?_⟩
    refine List.forall_mem_append.mpr ⟨ih, List.forall_mem_singleton.mpr ?_⟩
    exact Token.not_isFinish_of_is hClosing

/-- There are no semicolons and no square brackets. -/
theorem is_eq_false (h : Grouped commas ts) :
    ∀ t ∈ ts, ∀ text ∈ [";", "[", "]"], t.is text = false := by
  have hOther : ∀ {t : Token} {mark : String}, t.is mark = true → mark ∉ [";", "[", "]"] →
      ∀ text ∈ [";", "[", "]"], t.is text = false := fun hIs hMark text hText =>
    Token.not_is_of_is hIs fun hEq => hMark (hEq ▸ hText)
  induction h with
  | nil => exact nofun
  | token hFinish hPlain =>
    have hMarks : [";", "[", "]"] ⊆ Token.marks := by decide
    exact List.forall_mem_singleton.mpr fun text hText => hPlain text (hMarks hText)
  | comma hComma => exact List.forall_mem_singleton.mpr (hOther hComma (by decide))
  | append hFirst hSecond ihFirst ihSecond => exact List.forall_mem_append.mpr ⟨ihFirst, ihSecond⟩
  | round hOpening hClosing hInner ih | curly hOpening hClosing hInner ih =>
    refine List.forall_mem_cons.mpr ⟨hOther hOpening (by decide), ?_⟩
    refine List.forall_mem_append.mpr ⟨ih, List.forall_mem_singleton.mpr ?_⟩
    exact hOther hClosing (by decide)

end Grouped

theorem Token.not_is_of_text_ne {t : Token} {text : String} (h : t.text ≠ text) :
    t.is text = false := by
  unfold Token.is
  rw [beq_eq_false_iff_ne.mpr h, Bool.and_false]

theorem IsName.not_mem_marks {name : String} (h : IsName name) : name ∉ Token.marks := by
  have hMarks : ∀ text ∈ Token.marks, ¬ IsName text := by
    simp only [Token.marks, List.forall_mem_cons, List.not_mem_nil, false_implies, implies_true,
      and_true]
    decide
  exact fun hMem => hMarks name hMem h

namespace Expression

theorem not_mem_marks_of_writesUnary {t : Token} {op : UnaryOperator} (h : WritesUnary t op) :
    t.text ∉ Token.marks := by
  have hSigns : ∀ p ∈ unarySigns, p.2 ∉ Token.marks := by decide
  exact hSigns _ h.2

theorem not_mem_marks_of_writesBinary {level : Nat} {t : Token} {op : BinaryOperator}
    (h : WritesBinary level t op) : t.text ∉ Token.marks := by
  have hSigns : ∀ p ∈ binaryLevels.flatten, p.2 ∉ Token.marks := by decide
  exact hSigns _ (binaryOperator?_eq_some.mp h.eq_some).2

/-- Brackets match in expressions, and there are no commas. -/
theorem Writes.grouped {level : Nat} {e : Tree} {ts : List Token} (h : Writes level e ts)
    (hNames : ∀ t ∈ e.operands, IsName t.text) {commas : Bool} : Grouped commas ts := by
  have hToken : ∀ {t : Token}, t.isFinish = false → t.text ∉ Token.marks → Grouped commas [t] :=
    fun hFinish hText => .token hFinish fun text hMark =>
      Token.not_is_of_text_ne fun hEq => hText (hEq ▸ hMark)
  induction h with
  | @literal level t kind hKind =>
    have hWrites : Writes level (.literal t) [t] := .literal hKind
    have hFinish := hWrites.unfinished t List.mem_cons_self
    exact .token hFinish fun text _ => not_is_of_literal hKind text
  | @operand level t hStarts =>
    have hWrites : Writes level (.operand t) [t] := .operand hStarts
    have hFinish := hWrites.unfinished t List.mem_cons_self
    exact hToken hFinish (hNames t List.mem_cons_self).not_mem_marks
  | @unary level t op e ts hOp hInner ih =>
    have hWrites : Writes level (.unary op t.position e) (t :: ts) := .unary hOp hInner
    have hFinish := hWrites.unfinished t List.mem_cons_self
    exact .cons (hToken hFinish (not_mem_marks_of_writesUnary hOp)) (ih hNames)
  | @binary level k t op l r ls rs hOp hLevel hLeft hRight ihLeft ihRight =>
    have hFinish := (Writes.binary hOp hLevel hLeft hRight).unfinished t
      (List.mem_append_right ls List.mem_cons_self)
    refine .append (ihLeft fun t ht => hNames t (List.mem_append_left _ ht)) ?_
    refine .cons (hToken hFinish (not_mem_marks_of_writesBinary hOp)) ?_
    exact ihRight fun t ht => hNames t (List.mem_append_right _ ht)
  | parentheses hOpen hKind hText hInner ih =>
    exact .round hOpen (is_of_close hKind hText) (ih hNames)

end Expression

/-! ## Literal expressions -/

/-- An expression of literals and its value. -/
structure LiteralExpression where
  tokens : List Token
  expression : Expression.Tree
  constant : Constant
  hTokens : Expression.Renders expression tokens
  hLiteral : expression.operands = []
  hValue : expression.value (fun _ => .ok .dynamic) = .ok (.known constant)

namespace LiteralExpression

variable (l : LiteralExpression)

theorem grouped {commas : Bool} : Grouped commas l.tokens := by
  refine l.hTokens.grouped fun t ht => ?_
  rw [l.hLiteral] at ht
  cases ht

end LiteralExpression

/-- The size of a dimension, written between square brackets. -/
structure WrittenSize extends LiteralExpression where
  opening : Token
  closing : Token
  size : Nat
  hOpening : opening.is "[" = true
  hClosing : closing.is "]" = true
  hSize : constant.castInt .uint64 = .ok size
  hPositive : 1 ≤ size

/-- The tokens of a dimension. -/
def WrittenSize.bracketed (w : WrittenSize) : List Token := w.opening :: (w.tokens ++ [w.closing])

/-! ## Statements -/

/-- The front of the statement of a constant, `const T n`, with an integral type. -/
structure ConstHead (env : Environment) where
  keyword : Token
  type : List Token
  typeText : String
  base : BaseType
  kind : IntegerKind
  name : Token
  hKeyword : keyword.is "const" = true
  hType : WritesBase type typeText
  hBase : BaseType.ofText? env typeText = some base
  hKind : base.kind? = some (.integer kind)
  /-- Enumerations have integral values, but are not named by a keyword alone. -/
  hPlain : base ≠ .enum
  hName : name.isIdentifier = true ∨
    name.isKeyword = true ∧ env.enables .contextDependentNames = true
  hSeparate : EndsBase typeText name

/-- The statement `const T n[s]… = v;` of a constant. -/
structure ConstStatement (env : Environment) extends ConstHead env where
  sizes : List WrittenSize
  sign : Token
  assignment : List Token
  terminator : Token
  hSign : sign.is "=" = true
  hAssignment : Grouped false assignment
  hTerminator : terminator.is ";" = true

namespace ConstStatement

variable {env : Environment} (c : ConstStatement env)

/-- The tokens of a statement. -/
def tokens : List Token :=
  c.keyword :: (c.type ++ c.name ::
    (c.sizes.flatMap WrittenSize.bracketed ++ c.sign :: (c.assignment ++ [c.terminator])))

/-- The type of the constant. -/
def declaredType : DeclaredType := { base := c.base, text := c.typeText }

/-- What is known about the constant before it is evaluated. -/
def declaration : Declaration :=
  { type := c.declaredType, dimensions := c.sizes.map fun w => w.tokens
    assignment := c.assignment, readonly := true }

/-- Whether there are as many dimensions as the environment allows. -/
def Allowed : Prop := c.sizes.length ≤ 1 ∨ env.enables .multiDimArray = true

theorem unfinished : ∀ t ∈ c.tokens, t.isFinish = false := by
  have hName : c.name.isWord = true := by
    unfold Token.isWord
    rcases c.hName with hIdentifier | ⟨hKeyword, -⟩
    · rw [hIdentifier, Bool.true_or]
    · rw [hKeyword, Bool.or_true]
  refine List.forall_mem_cons.mpr ⟨Token.not_isFinish_of_is c.hKeyword, ?_⟩
  refine List.forall_mem_append.mpr ⟨c.hType.unfinished, List.forall_mem_cons.mpr ⟨?_, ?_⟩⟩
  · exact Token.not_isFinish_of_isWord hName
  refine List.forall_mem_append.mpr ⟨fun t ht => ?_, List.forall_mem_cons.mpr ⟨?_, ?_⟩⟩
  · obtain ⟨w, -, hw⟩ := List.mem_flatMap.mp ht
    rcases List.mem_cons.mp hw with rfl | hw
    · exact Token.not_isFinish_of_is w.hOpening
    rcases List.mem_append.mp hw with hw | hw
    · exact w.hTokens.unfinished t hw
    · rw [List.mem_singleton.mp hw]
      exact Token.not_isFinish_of_is w.hClosing
  · exact Token.not_isFinish_of_is c.hSign
  refine List.forall_mem_append.mpr ⟨c.hAssignment.unfinished, List.forall_mem_singleton.mpr ?_⟩
  exact Token.not_isFinish_of_is c.hTerminator

end ConstStatement

/-- The statement of a constant without dimensions. -/
def WrittenConstant.statement {env : Environment} (c : WrittenConstant env)
    (hNames : ∀ t ∈ c.expression.operands, IsName t.text) : ConstStatement env where
  keyword := c.keyword
  type := c.type
  typeText := c.typeText
  base := c.base
  kind := c.kind
  name := c.name
  sizes := []
  sign := c.sign
  assignment := c.assignment
  terminator := c.terminator
  hKeyword := c.hKeyword
  hType := c.hType
  hBase := c.hBase
  hKind := c.hKind
  hPlain := c.hPlain
  hName := c.hName
  hSeparate := c.hSeparate
  hSign := c.hSign
  hAssignment := c.hAssignment.grouped hNames
  hTerminator := c.hTerminator

end IdlReader
