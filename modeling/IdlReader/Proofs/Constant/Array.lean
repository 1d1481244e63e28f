import IdlReader.Entity.Value
import IdlReader.Proofs.Constant.Statement

/-!
# Arrays of constants as they are written

A constant with dimensions is initialized by lists in braces, nested as deep as there are dimensions.

* `NestedList`: lists of a depth, with what is at indices and whether sizes are kept.
* `WrittenArray`: the statement of a constant with dimensions.
* `WritesNested.grouped`, `WritesNested.ne_nil`: what nested lists look like as tokens.
-/

namespace IdlReader

/-! ## Nested lists -/

/-- Lists that are nested to a depth. -/
def NestedList (α : Type) : (depth : Nat) → Type
  | 0 => α
  | depth + 1 => List (NestedList α depth)

namespace NestedList

variable {α : Type}

/-- Whether no list has more elements than the size of its level. -/
def Fits : (sizes : List Nat) → NestedList α sizes.length → Prop
  | [], _ => True
  | size :: sizes, (vs : List (NestedList α sizes.length)) =>
    vs.length ≤ size ∧ ∀ v ∈ vs, Fits sizes v

/-- What stands at indices, one for each level. -/
def at? : (depth : Nat) → NestedList α depth → List Nat → Option α
  | 0, a, _ => some a
  | _ + 1, _, [] => none
  | depth + 1, (vs : List (NestedList α depth)), i :: is => vs[i]?.bind fun v => at? depth v is

/-- The nested arrays of the values of the leaves. -/
def node (f : α → Constant) : (depth : Nat) → NestedList α depth → ValueNode
  | 0, a => .ofConstant (f a)
  | depth + 1, (vs : List (NestedList α depth)) => .array (vs.map (node f depth))

/-- Nothing stands behind the sizes. -/
theorem at?_eq_none {sizes : List Nat} {v : NestedList α sizes.length} (h : v.Fits sizes)
    {bound : Nat} (hSizes : ∀ size ∈ sizes, size ≤ bound) {indices : List Nat}
    (hLength : indices.length = sizes.length) (hLarge : ∃ i ∈ indices, bound ≤ i) :
    at? sizes.length v indices = none := by
  induction sizes generalizing indices with
  | nil =>
    obtain ⟨i, hi, -⟩ := hLarge
    rw [List.eq_nil_of_length_eq_zero hLength] at hi
    cases hi
  | cons size sizes ih =>
    obtain ⟨i, is, rfl⟩ := List.exists_cons_of_length_eq_add_one hLength
    let vs : List (NestedList α sizes.length) := v
    obtain ⟨hFew, hAll⟩ : vs.length ≤ size ∧ ∀ w ∈ vs, Fits sizes w := h
    change (vs[i]?.bind fun w => at? sizes.length w is) = none
    refine Option.bind_eq_none_iff.mpr fun w hw => ?_
    obtain ⟨hLt, -⟩ := List.getElem?_eq_some_iff.mp hw
    have hSize := hSizes size List.mem_cons_self
    obtain ⟨j, hj, hBound⟩ := hLarge
    rcases List.mem_cons.mp hj with rfl | hj
    · omega
    · exact ih (hAll w (List.mem_of_getElem? hw)) (fun n hn => hSizes n (List.mem_cons_of_mem _ hn))
        (Nat.succ.inj hLength) ⟨j, hj, hBound⟩

/-- Indices lead into the nested arrays as they lead into the lists. -/
theorem navigate?_node (f : α → Constant) (caseSensitive : Bool) {depth : Nat}
    (v : NestedList α depth) {indices : List Nat} (h : indices.length = depth) :
    (node f depth v).navigate? caseSensitive (indices.map Accessor.index) =
      (at? depth v indices).map fun a => .ofConstant (f a) := by
  induction depth generalizing indices with
  | zero =>
    obtain rfl := List.eq_nil_of_length_eq_zero h
    rfl
  | succ depth ih =>
    obtain ⟨i, is, rfl⟩ := List.exists_cons_of_length_eq_add_one h
    have hLength : is.length = depth := Nat.succ.inj h
    let vs : List (NestedList α depth) := v
    have hStep : (node f (depth + 1) v).access? caseSensitive (.index i) =
        vs[i]?.map (node f depth) := List.getElem?_map
    rw [List.map_cons, ValueNode.navigate?, hStep]
    change _ = (vs[i]?.bind fun w => at? depth w is).map _
    cases vs[i]? with
    | none => rfl
    | some w => exact ih w hLength

end NestedList

/-! ## Initializers -/

/-- A literal expression that can be cast to a kind of integers. -/
structure WrittenLeaf (kind : IntegerKind) extends LiteralExpression where
  value : Constant
  hCast : constant.cast (.integer kind) = .ok value

/-- Whether tokens write elements with commas between them. Behind the last one there may be a comma
too. -/
inductive WritesElements {α : Type} (Writes : α → List Token → Prop) :
    List α → List Token → Prop where
  | nil : WritesElements Writes [] []
  | last {a : α} {ts : List Token} (h : Writes a ts) : WritesElements Writes [a] ts
  | cons {a : α} {as : List α} {ts us : List Token} {comma : Token} (h : Writes a ts)
      (hComma : comma.is "," = true) (hRest : WritesElements Writes as us) :
      WritesElements Writes (a :: as) (ts ++ comma :: us)

/-- Whether tokens write nested lists in braces. -/
def WritesNested {kind : IntegerKind} :
    (depth : Nat) → NestedList (WrittenLeaf kind) depth → List Token → Prop
  | 0, (leaf : WrittenLeaf kind), ts => ts = leaf.tokens
  | depth + 1, (vs : List (NestedList (WrittenLeaf kind) depth)), ts =>
    ∃ opening closing inner, opening.is "\x7b" = true ∧ closing.is "\x7d" = true ∧
      WritesElements (WritesNested depth) vs inner ∧ ts = opening :: (inner ++ [closing])

theorem WritesNested.braces {kind : IntegerKind} {depth : Nat}
    {vs : List (NestedList (WrittenLeaf kind) depth)} {opening closing : Token} {inner : List Token}
    (hOpening : opening.is "\x7b" = true) (hClosing : closing.is "\x7d" = true)
    (h : WritesElements (WritesNested depth) vs inner) :
    WritesNested (depth + 1) vs (opening :: (inner ++ [closing])) :=
  ⟨opening, closing, inner, hOpening, hClosing, h, rfl⟩

/-- Brackets match among elements if they match in each of them. -/
theorem WritesElements.grouped {α : Type} {Writes : α → List Token → Prop} {as : List α}
    {ts : List Token} (h : WritesElements Writes as ts)
    (hElement : ∀ a us, Writes a us → Grouped true us) : Grouped true ts := by
  induction h with
  | nil => exact .nil
  | last hLast => exact hElement _ _ hLast
  | cons hFirst hComma hRest ih =>
    exact (hElement _ _ hFirst).append (.cons (.comma hComma) ih)

theorem WritesNested.grouped {kind : IntegerKind} {depth : Nat}
    {v : NestedList (WrittenLeaf kind) depth} {ts : List Token} (h : WritesNested depth v ts)
    {commas : Bool} : Grouped commas ts := by
  induction depth generalizing ts commas with
  | zero =>
    have hLeaf : ts = LiteralExpression.tokens (WrittenLeaf.toLiteralExpression v) := h
    rw [hLeaf]
    exact LiteralExpression.grouped _
  | succ depth ih =>
    obtain ⟨opening, closing, inner, hOpening, hClosing, hElements, rfl⟩ := h
    exact .curly hOpening hClosing (hElements.grouped fun _ _ hElement => ih hElement)

theorem WritesNested.ne_nil {kind : IntegerKind} {depth : Nat}
    {v : NestedList (WrittenLeaf kind) depth} {ts : List Token} (h : WritesNested depth v ts) :
    ts ≠ [] := by
  cases depth with
  | zero =>
    have hLeaf : ts = LiteralExpression.tokens (WrittenLeaf.toLiteralExpression v) := h
    rw [hLeaf]
    exact (LiteralExpression.hTokens _).ne_nil
  | succ depth =>
    obtain ⟨opening, closing, inner, -, -, -, rfl⟩ := h
    exact List.cons_ne_nil _ _

/-! ## Statements -/

/-- The statement `const T n[s]… = {…};` of a constant with dimensions. -/
structure WrittenArray (env : Environment) extends ConstHead env where
  sizes : List WrittenSize
  sign : Token
  elements : NestedList (WrittenLeaf kind) (sizes.map WrittenSize.size).length
  assignment : List Token
  terminator : Token
  hSign : sign.is "=" = true
  hElements : WritesNested (sizes.map WrittenSize.size).length elements assignment
  hTerminator : terminator.is ";" = true

namespace WrittenArray

variable {env : Environment} (a : WrittenArray env)

/-- What is read of it. -/
def statement : ConstStatement env where
  toConstHead := a.toConstHead
  sizes := a.sizes
  sign := a.sign
  assignment := a.assignment
  terminator := a.terminator
  hSign := a.hSign
  hAssignment := a.hElements.grouped
  hTerminator := a.hTerminator

/-- The tokens of the statement. -/
def tokens : List Token :=
  a.keyword :: (a.type ++ a.name ::
    (a.sizes.flatMap WrittenSize.bracketed ++ a.sign :: (a.assignment ++ [a.terminator])))

/-- Whether no list has more elements than the size of its level. -/
def Fits : Prop := a.elements.Fits (a.sizes.map WrittenSize.size)

/-- Its value. -/
def value : ValueNode := NestedList.node WrittenLeaf.value _ a.elements

end WrittenArray

end IdlReader
