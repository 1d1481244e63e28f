import IdlReader.Grammar.Evaluation
import IdlReader.Proofs.Trace.Session

/-!
# Faults of evaluations

Evaluations read no tokens. The tokens of their expressions were read before, often long before,
so their faults are found where these tokens stand.

* `traces_evaluate`: expressions whose operands are at fault where they stand.
* `traces_evaluateDeclaration`: declarations.
-/

namespace IdlReader

/-! ## Tokens of expressions -/

/-- Whether the tokens of an expression were read. -/
structure Expression.Tokens.Placed (S : Stream) (read : List Delivery) (ts : Tokens) : Prop where
  rest : S.Holds read ts.rest
  last : S.Places read ts.last

variable {S : Stream} {τ τ' : Trace}

namespace Expression.Tokens

variable {ts us : Tokens}

theorem Placed.mono (h : ts.Placed S τ.read) (hLater : τ.Extends τ') : ts.Placed S τ'.read :=
  ⟨h.rest.mono hLater, h.last.mono hLater⟩

theorem Placed.position (h : ts.Placed S τ.read) : S.Places τ.read ts.position := by
  obtain ⟨rest, last⟩ := ts
  cases rest with
  | nil => exact h.last
  | cons t rest => exact h.rest t List.mem_cons_self

theorem Placed.advance (h : ts.Placed S τ.read) : ts.advance.Placed S τ.read :=
  ⟨fun t ht => h.rest t (List.mem_of_mem_tail ht), h.last⟩

theorem Placed.head (h : ts.Placed S τ.read) {t : Token} {rest : List Token}
    (hRest : ts.rest = t :: rest) : S.Places τ.read t.position :=
  h.rest t (hRest ▸ List.mem_cons_self)

theorem Placed.eat? (h : ts.Placed S τ.read) {text : String} (hEat : ts.eat? text = some us) :
    us.Placed S τ.read := by
  unfold Tokens.eat? at hEat
  split at hEat
  · split at hEat
    · cases hEat
      exact h.advance
    · cases hEat
  · cases hEat

theorem placed_ofList {first : Token} {rest : List Token} (h : S.Holds τ.read (first :: rest)) :
    (ofList (first :: rest)).Placed S τ.read := by
  refine ⟨h, ?_⟩
  unfold ofList
  cases hLast : (first :: rest).getLast? with
  | none => exact absurd (List.getLast?_eq_none_iff.mp hLast) (List.cons_ne_nil _ _)
  | some t => exact h t (List.mem_of_getLast? hLast)

end Expression.Tokens

namespace Parsing

variable {α β : Type} {reading : Prop}

/-! ## Lists -/

theorem Traces.mapM {f : α → Parsing β} {P : Trace → α → Prop} {l : List α}
    (hP : ∀ {τ τ' a}, P τ a → τ.Extends τ' → P τ' a)
    (hf : ∀ {τ} a, P τ a → Traces S reading τ (f a) fun _ _ => True)
    (hl : ∀ a ∈ l, P τ a) : Traces S reading τ (l.mapM f) fun _ _ => True := by
  induction l generalizing τ with
  | nil => exact Traces.pure trivial
  | cons a l ih =>
    rw [List.mapM_cons]
    refine (hf a (hl a List.mem_cons_self)).bind fun τ₁ b hLater _ => ?_
    refine (ih fun c hc => hP (hl c (List.mem_cons_of_mem a hc)) hLater).bind
      fun _ _ _ _ => Traces.pure trivial

theorem Traces.forM {f : α → Parsing Unit}
    (hf : ∀ {τ} a, Traces S reading τ (f a) fun _ _ => True) (l : List α) :
    Traces S reading τ (l.forM f) fun _ _ => True := by
  induction l generalizing τ with
  | nil => exact Traces.pure trivial
  | cons a l ih => exact (hf a).bind fun _ _ _ _ => ih

/-! ## Expressions -/

section Expressions

open Expression

theorem traces_expect {ts : Tokens} (h : ts.Placed S τ.read) (text : String) :
    Traces S reading τ (ts.expect text) fun τ' us => us.Placed S τ'.read := by
  unfold Tokens.expect
  split
  · rename_i us hEat
    exact Traces.pure (h.eat? hEat)
  · exact traces_failAt _ h.position

theorem traces_applyUnary (op : UnaryOperator) {p : Position} (hp : S.Places τ.read p)
    (a : Evaluated) : Traces S reading τ (applyUnary op p a) fun _ _ => True := by
  cases a with
  | known c => exact (traces_orFailAt hp _).bind fun _ _ _ _ => Traces.pure trivial
  | dynamic => exact Traces.pure trivial

theorem traces_applyBinary (op : BinaryOperator) {p : Position} (hp : S.Places τ.read p)
    (a b : Evaluated) : Traces S reading τ (applyBinary op p a b) fun _ _ => True := by
  unfold applyBinary
  split
  · exact (traces_orFailAt hp _).bind fun _ _ _ _ => Traces.pure trivial
  · exact Traces.pure trivial

/-- Whether an action on the tokens of an expression is at fault where these stand. -/
def TracesTokens (S : Stream) (x : Tokens → Parsing (Evaluated × Tokens)) : Prop :=
  ∀ {τ : Trace} {ts : Tokens}, ts.Placed S τ.read →
    Traces S False τ (x ts) fun τ' r => r.2.Placed S τ'.read

/-- Whether operands are at fault where they stand if the expressions inside of them are. -/
def TracesOperands (S : Stream) (resolve : Resolver Parsing) : Prop :=
  ∀ index, TracesTokens S index → TracesTokens S (resolve index)

variable {resolve : Resolver Parsing}

theorem traces_steps (hResolve : TracesOperands S resolve) (n : Nat) :
    TracesTokens S (operand resolve n) ∧ (∀ level, TracesTokens S (climb resolve n level)) ∧
      ∀ level lhs, TracesTokens S (extend resolve n level lhs) := by
  induction n with
  | zero =>
    refine ⟨fun _ => ?_, fun level _ _ _ => ?_, fun level lhs _ _ _ => ?_⟩
    · rw [operand]
      exact traces_fail _
    · rw [climb]
      exact traces_fail _
    · rw [extend]
      exact traces_fail _
  | succ n ih =>
    obtain ⟨ihOperand, ihClimb, ihExtend⟩ := ih
    refine ⟨?_, ?_, ?_⟩
    · intro τ ts h
      have hResolved := hResolve _ (ihClimb lowestPrecedence) h
      rw [operand]
      split
      · exact traces_failAt _ h.position
      · rename_i t rest hRest
        have ht := h.head hRest
        refine Traces.ite (fun _ => ?_) fun _ => ?_
        · refine (ihClimb _ h.advance).bind ?_
          rintro τ₁ ⟨inner, us⟩ _ hus
          exact (traces_expect hus ")").bind fun _ vs _ hvs => Traces.pure hvs
        · split
          · refine (ihClimb _ h.advance).bind ?_
            rintro τ₁ ⟨inner, us⟩ hLater hus
            exact (traces_applyUnary _ (ht.mono hLater) inner).bind fun _ _ hLater' _ =>
              Traces.pure (hus.mono hLater')
          · split
            · exact (traces_ofLiteral ht).bind fun _ _ hLater _ =>
                Traces.pure (h.advance.mono hLater)
            · exact hResolved
            · exact hResolved
            · exact Traces.ite (fun _ => hResolved) fun _ => traces_failAt _ ht
    · intro level τ ts h
      rw [climb]
      refine (ihOperand h).bind ?_
      rintro τ₁ ⟨lhs, us⟩ _ hus
      exact ihExtend level lhs hus
    · intro level lhs τ ts h
      rw [extend]
      split
      · exact Traces.pure h
      · rename_i t rest hRest
        have ht := h.head hRest
        refine Traces.ite (fun _ => Traces.pure h) fun _ => ?_
        split
        · exact traces_failAt _ ht
        · refine Traces.ite (fun _ => Traces.pure h) fun _ => ?_
          refine (ihClimb _ h.advance).bind ?_
          rintro τ₁ ⟨rhs, us⟩ hLater hus
          exact (traces_applyBinary _ (ht.mono hLater) lhs rhs).bind fun _ value hLater' _ =>
            ihExtend level value (hus.mono hLater')

/-- Expressions are at fault where their tokens stand. -/
theorem traces_evaluate (hResolve : TracesOperands S resolve) {tokens : List Token}
    (hTokens : S.Holds τ.read tokens) :
    Traces S False τ (evaluate resolve tokens) fun _ _ => True := by
  unfold evaluate
  cases tokens with
  | nil => exact (traces_fail (Q := fun _ _ => False) _).bind fun _ _ _ h => h.elim
  | cons first rest =>
    have hClimb := (traces_steps hResolve (budgetFor (first :: rest))).2.1 lowestPrecedence
      (Tokens.placed_ofList hTokens)
    unfold evaluateAt
    simp only [List.isEmpty_cons, Bool.false_eq_true, if_false, bind_assoc, pure_bind]
    refine hClimb.bind ?_
    rintro τ₁ ⟨value, us⟩ _ hus
    split
    · exact Traces.pure trivial
    · rename_i t rest' hRest
      exact traces_failAt _ (hus.head hRest)

end Expressions

/-! ## Operands -/

open Expression (Tokens)

theorem traces_scopedNameTail {place : Position} (hPlace : S.Places τ.read place) (n : Nat)
    (name : String) {ts : Tokens} (h : ts.Placed S τ.read) :
    Traces S False τ (scopedNameTail place n name ts) fun τ' r => r.2.Placed S τ'.read := by
  induction n generalizing name ts with
  | zero => exact traces_fail _
  | succ n ih =>
    unfold scopedNameTail
    dsimp only
    split
    · exact Traces.pure h
    · rename_i us hNext
      have hus : us.Placed S τ.read := by
        split at hNext
        · cases hNext
          exact h
        · exact h.eat? hNext
      split
      · exact traces_failAt _ hPlace
      · rename_i t rest hRest
        exact Traces.ite (fun _ => ih _ hus.advance) fun _ =>
          traces_failAtToken _ (hus.head hRest)

theorem traces_accessorTail {index : Tokens → Parsing (Evaluated × Tokens)}
    (hIndex : TracesTokens S index) {place : Position} (hPlace : S.Places τ.read place) (n : Nat)
    {ts : Tokens} (h : ts.Placed S τ.read) :
    Traces S False τ (accessorTail index place n ts) fun τ' r => r.2.2.Placed S τ'.read := by
  induction n generalizing τ ts with
  | zero => exact traces_fail _
  | succ n ih =>
    unfold accessorTail
    refine Traces.ite (fun _ => ?_) fun _ => ?_
    · dsimp only
      split
      · refine Traces.ite (fun _ => ?_) fun _ => traces_failAt _ hPlace
        refine (ih hPlace h.advance.advance).bind ?_
        rintro τ₁ ⟨as, dynamic, us⟩ _ hus
        exact Traces.pure hus
      · exact traces_failAt _ hPlace
    · split
      · exact Traces.pure h
      · rename_i us hEat
        refine (hIndex (h.eat? hEat)).bind ?_
        rintro τ₁ ⟨i, vs⟩ hLater₁ hvs
        refine (traces_expect hvs "]").bind fun τ₂ ws hLater₂ hws => ?_
        have hPlace₂ := hPlace.mono (hLater₁.trans hLater₂)
        cases i with
        | dynamic =>
          refine (ih hPlace₂ hws).bind ?_
          rintro τ₃ ⟨as, dynamic, xs⟩ _ hxs
          exact Traces.pure hxs
        | known c =>
          refine (traces_orFailAt hPlace₂ _).bind fun τ₃ i hLater₃ _ => ?_
          refine (ih (hPlace₂.mono hLater₃) (hws.mono hLater₃)).bind ?_
          rintro τ₄ ⟨as, dynamic, xs⟩ _ hxs
          exact Traces.pure hxs

section Evaluate

variable {evaluate : EntityId → Parsing Unit}
  (hEvaluate : ∀ {τ : Trace} (id : EntityId),
    Traces S False τ (evaluate id) fun _ _ => True)

include hEvaluate

/-- The value of a constant that a name stands for. -/
theorem traces_namedValue {place : Position} (hPlace : S.Places τ.read place) (name : String)
    (id : EntityId) (accessors : List Accessor) :
    Traces S False τ (do
      orAt place (evaluate id)
      let t ← tree
      let value := (t.get id).declaration?.bind fun d =>
        d.value.navigate? t.caseSensitive accessors
      match value with
      | some (.simple v) => return v
      | some _ => failAt (.valueUnusable name) place
      | none => failAt (.undefinedName name) place : Parsing Evaluated) fun _ _ => True := by
  refine ((hEvaluate id).orAt hPlace).bind fun τ₁ _ hLater₁ _ => ?_
  refine traces_tree.bind fun τ₂ t hLater₂ _ => ?_
  have hPlace₂ := hPlace.mono (hLater₁.trans hLater₂)
  dsimp only
  split
  · exact Traces.pure trivial
  · exact traces_failAt _ hPlace₂
  · exact traces_failAt _ hPlace₂

theorem traces_operandValue {place : Position} (hPlace : S.Places τ.read place) (name : String)
    (id : EntityId) (accessors : List Accessor) (dynamic : Bool) :
    Traces S False τ (operandValue evaluate place name id accessors dynamic)
      fun _ _ => True := by
  unfold operandValue
  refine (traces_entity id).bind fun τ₁ e hLater _ => ?_
  have hPlace₁ := hPlace.mono hLater
  have hNamed := traces_namedValue hEvaluate hPlace₁ name id accessors
  cases e.kind with
  | field | attr | parameter | caseEntry => exact Traces.pure trivial
  | const | enumEntry =>
    exact Traces.ite (fun _ => Traces.pure trivial) fun _ => hNamed
  | _ => exact traces_failAt _ hPlace₁

theorem traces_resolver (scope : EntityId) : TracesOperands S (resolver evaluate scope) := by
  intro index hIndex τ ts h
  unfold resolver
  dsimp only
  split
  · exact traces_failAt _ h.position
  · rename_i first rest hRest
    refine (traces_scopedNameTail h.position _ _ h.advance).bind ?_
    rintro τ₁ ⟨name, us⟩ hLater₁ hus
    refine (traces_accessorTail hIndex (h.position.mono hLater₁) _ hus).bind ?_
    rintro τ₂ ⟨accessors, dynamic, vs⟩ hLater₂ hvs
    refine traces_tree.bind fun τ₃ t hLater₃ _ => ?_
    have hPlace := h.position.mono (hLater₁.trans (hLater₂.trans hLater₃))
    dsimp only
    split
    · exact traces_failAt _ hPlace
    · exact (traces_operandValue hEvaluate hPlace _ _ _ _).bind fun _ _ hLater₄ _ =>
        Traces.pure (hvs.mono (hLater₃.trans hLater₄))

theorem traces_evaluateIn (scope : EntityId) {tokens : List Token} (h : S.Holds τ.read tokens) :
    Traces S False τ (evaluateIn evaluate scope tokens) fun _ _ => True :=
  traces_evaluate (traces_resolver hEvaluate scope) h

/-! ## Parts of declarations -/

theorem traces_arraySize (scope : EntityId) {dimension : List Token}
    (h : S.Holds τ.read dimension) :
    Traces S False τ (arraySize evaluate scope dimension) fun _ _ => True := by
  cases dimension with
  | nil => exact Traces.pure trivial
  | cons first rest =>
    unfold arraySize
    refine (traces_evaluateIn hEvaluate scope h).bind fun τ₁ v hLater₁ _ => ?_
    have hFirst := (Stream.holds_cons.mp h).1.mono hLater₁
    cases v with
    | dynamic => exact Traces.pure trivial
    | known c =>
      refine (traces_orFailAt hFirst _).bind fun τ₂ size hLater₂ _ => ?_
      exact Traces.ite (fun _ => traces_failAtToken_bind _ (hFirst.mono hLater₂)) fun _ =>
        Traces.pure trivial

theorem traces_nextEntryValue (id scope : EntityId) :
    Traces S False τ (nextEntryValue evaluate id scope) fun _ _ => True := by
  unfold nextEntryValue
  refine traces_tree.bind fun τ₁ t _ _ => ?_
  dsimp only
  split
  · exact Traces.pure trivial
  · exact (hEvaluate _).bind fun _ _ _ _ => (traces_entity _).bind fun _ _ _ _ =>
      (traces_orFail _).bind fun _ _ _ _ => (traces_orFail _).mono fun _ _ _ _ => trivial

theorem traces_entryValue (id : EntityId) {d : Declaration} (h : S.Holds τ.read d.assignment)
    (scope : EntityId) : Traces S False τ (entryValue evaluate id d scope) fun _ _ => True := by
  unfold entryValue
  split
  · exact (traces_nextEntryValue hEvaluate id scope).bind fun _ _ _ _ => Traces.pure trivial
  · rename_i first rest hAssignment
    refine (traces_evaluateIn hEvaluate scope h).bind fun τ₁ v hLater₁ _ => ?_
    have hFirst : S.Places τ₁.read first.position :=
      (h first (hAssignment ▸ List.mem_cons_self)).mono hLater₁
    cases v with
    | dynamic => exact traces_failAtToken _ hFirst
    | known c => exact (traces_orFailAt hFirst _).bind fun _ _ _ _ => Traces.pure trivial

theorem traces_labelValues (union : EntityId) (switchKind : Option Kind)
    {labels : List (List Token)} (h : ∀ ts ∈ labels, S.Holds τ.read ts) :
    Traces S False τ (labelValues evaluate union switchKind labels) fun _ _ => True := by
  induction labels generalizing τ with
  | nil => exact Traces.pure trivial
  | cons label labels ih =>
    have hRest := fun ts hts => h ts (List.mem_cons_of_mem label hts)
    have hLabel := h label List.mem_cons_self
    cases label with
    | nil =>
      rw [labelValues]
      exact ih hRest
    | cons first rest =>
      rw [labelValues]
      refine (traces_evaluateIn hEvaluate union hLabel).bind fun τ₁ v hLater₁ _ => ?_
      have hFirst := (Stream.holds_cons.mp hLabel).1.mono hLater₁
      cases v with
      | dynamic => exact traces_failAtToken _ hFirst
      | known c =>
        have hValues : ∀ {τ₂ : Trace}, τ₁.Extends τ₂ → ∀ c : Constant,
            Traces S False τ₂ (do
              let cs ← labelValues evaluate union switchKind labels
              return c :: cs) fun _ _ => True := fun hLater₂ c =>
          (ih fun ts hts => (hRest ts hts).mono (hLater₁.trans hLater₂)).bind
            fun _ _ _ _ => Traces.pure trivial
        cases switchKind with
        | none => exact hValues (.refl _) c
        | some k => exact (traces_orFailAt hFirst _).bind fun _ c hLater₂ _ => hValues hLater₂ c

end Evaluate

/-! ## Initializers -/

theorem traces_splitElements (depth : Nat) {element tokens : List Token}
    (hElement : S.Holds τ.read element) (hTokens : S.Holds τ.read tokens) :
    Traces S reading τ (splitElements depth element tokens) fun τ' elements =>
      ∀ ts ∈ elements, S.Holds τ'.read ts := by
  induction tokens generalizing depth element with
  | nil =>
    unfold splitElements
    refine Traces.pure ?_
    split
    · exact fun _ h => absurd h List.not_mem_nil
    · exact fun ts hts => by
        rw [List.mem_singleton.mp hts]
        exact fun t ht => hElement t (List.mem_reverse.mp ht)
  | cons t tokens ih =>
    obtain ⟨ht, hRest⟩ := Stream.holds_cons.mp hTokens
    unfold splitElements
    refine Traces.ite (fun _ => ?_) fun _ => ih _ (Stream.holds_cons.mpr ⟨ht, hElement⟩) hRest
    refine Traces.ite (fun _ => traces_failAtToken _ ht) fun _ => ?_
    refine (ih depth Stream.holds_nil hRest).bind fun τ₁ elements hLater hElements =>
      Traces.pure ?_
    exact List.forall_mem_cons.mpr
      ⟨fun t ht => (hElement t (List.mem_reverse.mp ht)).mono hLater, hElements⟩

theorem traces_splitInitializer {tokens : List Token} (h : S.Holds τ.read tokens) :
    Traces S reading τ (splitInitializer tokens) fun τ' elements =>
      ∀ ts ∈ elements, S.Holds τ'.read ts := by
  unfold splitInitializer
  split
  · exact Traces.pure fun _ h => absurd h List.not_mem_nil
  · rename_i first rest
    obtain ⟨hFirst, hRest⟩ := Stream.holds_cons.mp h
    refine Traces.ite (fun _ => traces_splitElements 0 Stream.holds_nil fun t ht => ?_) fun _ =>
      traces_failAtToken _ hFirst
    exact hRest t (List.dropLast_subset rest ht)

theorem traces_textElements (type : DeclaredType) (size : Option Nat) {t : Token}
    (ht : S.Places τ.read t.position) :
    Traces S reading τ (textElements type size t) fun _ _ => True := by
  unfold textElements
  refine (traces_ofLiteral ht).bind fun τ₁ c hLater₁ _ => ?_
  have ht₁ := ht.mono hLater₁
  refine Traces.ite (fun _ => traces_failAtToken_bind _ ht₁) fun _ => ?_
  refine Traces.bind (Q := fun _ _ => True) ?_ fun _ _ _ _ => Traces.pure trivial
  refine Traces.mapM (P := fun τ _ => S.Places τ.read t.position) (fun h hLater => h.mono hLater)
    (fun d hd => ?_) fun _ _ => ht₁
  exact (traces_orFailAt hd _).bind fun _ _ _ _ => Traces.pure trivial

section Values

variable {evaluate : EntityId → Parsing Unit}
  (hEvaluate : ∀ {τ : Trace} (id : EntityId),
    Traces S False τ (evaluate id) fun _ _ => True)

include hEvaluate

theorem traces_scalarValue (scope : EntityId) (type : DeclaredType) (constant : Bool)
    {first : Token} (hFirst : S.Places τ.read first.position) {tokens : List Token}
    (h : S.Holds τ.read tokens) :
    Traces S False τ (scalarValue evaluate scope type constant first tokens)
      fun _ _ => True := by
  unfold scalarValue
  refine (traces_evaluateIn hEvaluate scope h).bind fun τ₁ v hLater _ => ?_
  have hFirst₁ := hFirst.mono hLater
  cases v with
  | dynamic =>
    exact Traces.ite (fun _ => traces_failAtToken _ hFirst₁) fun _ => Traces.pure trivial
  | known c =>
    dsimp only
    split
    · exact traces_failAtToken _ hFirst₁
    · exact (traces_orFailAt hFirst₁ _).bind fun _ _ _ _ => Traces.pure trivial

/-- Whether what tokens write is at fault where these stand. -/
def TracesBuilder (S : Stream) (build : Builder) : Prop :=
  ∀ {τ : Trace} (type : DeclaredType) (sizes : List (Option Nat)) {tokens : List Token},
    S.Holds τ.read tokens → Traces S False τ (build type sizes tokens) fun _ _ => True

theorem traces_buildMembers {build : Builder} (hBuild : TracesBuilder S build)
    (members : List EntityId) {elements : List (List Token)}
    (h : ∀ ts ∈ elements, S.Holds τ.read ts) :
    Traces S False τ (buildMembers evaluate build members elements) fun _ _ => True := by
  induction members generalizing τ elements with
  | nil => exact Traces.pure trivial
  | cons m members ih =>
    rw [buildMembers]
    refine (hEvaluate m).bind fun τ₁ _ hLater₁ _ => ?_
    refine (traces_entity m).bind fun τ₂ e hLater₂ _ => ?_
    have hElements : ∀ ts ∈ elements, S.Holds τ₂.read ts :=
      fun ts hts => (h ts hts).mono (hLater₁.trans hLater₂)
    have hTail : ∀ ts ∈ elements.tail, S.Holds τ₂.read ts :=
      fun ts hts => hElements ts (List.mem_of_mem_tail hts)
    split
    · exact ih hTail
    · rename_i d _
      have hRest : ∀ {τ₃ : Trace}, τ₂.Extends τ₃ → ∀ v : ValueNode,
          Traces S False τ₃ (do
            let vs ← buildMembers evaluate build members elements.tail
            return (e.name, v) :: vs) fun _ _ => True := fun hLater₃ v =>
        (ih fun ts hts => (hTail ts hts).mono hLater₃).bind fun _ _ _ _ => Traces.pure trivial
      cases elements with
      | nil => exact hRest (.refl _) _
      | cons tokens rest =>
        exact (hBuild d.type d.sizes (hElements tokens List.mem_cons_self)).bind
          fun _ v hLater₃ _ => hRest hLater₃ v

theorem traces_buildValue (scope : EntityId) (constant : Bool) (n : Nat) :
    TracesBuilder S (buildValue evaluate scope constant n) := by
  induction n with
  | zero =>
    intro τ type sizes tokens h
    rw [buildValue]
    exact traces_fail _
  | succ n ih =>
    intro τ type sizes tokens h
    cases tokens with
    | nil =>
      rw [buildValue]
      exact Traces.pure trivial
    | cons first rest =>
      have hFirst := (Stream.holds_cons.mp h).1
      cases sizes with
      | cons size inner =>
        rw [buildValue]
        refine Traces.ite (fun _ => traces_textElements type size hFirst) fun _ => ?_
        refine (traces_splitInitializer h).bind fun τ₁ elements hLater hElements => ?_
        refine Traces.ite (fun _ => traces_failAtToken_bind _ (hFirst.mono hLater)) fun _ => ?_
        refine Traces.bind (Q := fun _ _ => True) ?_ fun _ _ _ _ => Traces.pure trivial
        exact Traces.mapM (P := fun τ ts => S.Holds τ.read ts) (fun h hLater => h.mono hLater)
          (fun ts hts => ih type inner hts) hElements
      | nil =>
        rw [buildValue]
        refine traces_tree.bind fun τ₁ t hLater₁ _ => ?_
        split
        · exact traces_scalarValue hEvaluate scope type constant (hFirst.mono hLater₁)
            (h.mono hLater₁)
        · rename_i definition _
          refine (traces_splitInitializer (h.mono hLater₁)).bind
            fun τ₂ elements hLater₂ hElements => ?_
          refine Traces.ite (fun _ => traces_failAtToken_bind _
            (hFirst.mono (hLater₁.trans hLater₂))) fun _ => ?_
          exact (traces_buildMembers hEvaluate (fun type sizes _ => ih type sizes) _ hElements).bind
            fun _ _ _ _ => Traces.pure trivial

/-! ## Declarations -/

theorem traces_declaredValue (id : EntityId) (kind : EntityKind) {d : Declaration}
    (h : d.Placed S τ.read) (sizes : List (Option Nat)) (scope : EntityId) :
    Traces S False τ (declaredValue evaluate id kind d sizes scope) fun _ _ => True := by
  have hBuild : ∀ constant, Traces S False τ (do
      let v ← buildValue evaluate scope constant (d.assignment.length + 1) d.type sizes
        d.assignment
      return (v, [])) fun _ (_ : ValueNode × List Constant) => True := fun constant =>
    (traces_buildValue hEvaluate scope constant _ d.type sizes h.assignment).bind
      fun _ _ _ _ => Traces.pure trivial
  unfold declaredValue
  split
  · exact (traces_entryValue hEvaluate id h.assignment scope).bind
      fun _ _ _ _ => Traces.pure trivial
  · refine traces_tree.bind fun τ₁ t hLater _ => ?_
    exact (traces_labelValues hEvaluate scope _ fun ts hts => (h.labels ts hts).mono hLater).bind
      fun _ _ _ _ => Traces.pure trivial
  · exact hBuild _
  · exact hBuild _
  · exact Traces.pure trivial

end Values

theorem traces_evaluateWithin (n : Nat) {τ : Trace} (id : EntityId) :
    Traces S False τ (evaluateWithin n id) fun _ _ => True := by
  induction n generalizing τ id with
  | zero => exact traces_fail _
  | succ n ih =>
    unfold evaluateWithin
    refine (traces_entity id).bind fun τ₁ e _ he => ?_
    split
    · exact Traces.pure trivial
    · rename_i d hd
      have hPlaced := (he d hd).2
      split
      · exact Traces.pure trivial
      · exact traces_fail _
      · refine Traces.bind (traces_modifyDeclaration id fun d hd =>
          ⟨hd.dimensions, hd.assignment, hd.labels⟩) fun τ₂ _ hLater₂ _ => ?_
        have hPlaced₂ := hPlaced.mono hLater₂
        refine (Traces.mapM (P := fun τ ts => S.Holds τ.read ts) (fun h hLater => h.mono hLater)
          (fun ts hts => traces_arraySize (fun id => ih id) _ hts) hPlaced₂.dimensions).bind
          fun τ₃ sizes hLater₃ _ => ?_
        refine (traces_declaredValue (fun id => ih id) id e.kind (hPlaced₂.mono hLater₃) sizes
          _).bind ?_
        rintro τ₄ ⟨value, caseValues⟩ _ _
        exact traces_modifyDeclaration id fun d hd => ⟨hd.dimensions, hd.assignment, hd.labels⟩

/-- Evaluating a declaration is at fault at tokens that were read. -/
theorem traces_evaluateDeclaration (id : EntityId) :
    Traces S False τ (evaluateDeclaration id) fun _ _ => True :=
  traces_tree.bind fun _ _ _ _ => traces_evaluateWithin _ id

end Parsing

end IdlReader
