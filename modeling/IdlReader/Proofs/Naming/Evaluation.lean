import IdlReader.Grammar.Content
import IdlReader.Proofs.Constant.Cause
import IdlReader.Proofs.Grammar.Ending

/-!
# Evaluations give no names

Evaluations look names up and never give any, so that none of their faults is about names that
clash.

* `Peaceful.bind`, `Peaceful.orAt`: actions one after the other, and faults that get a place.
* `peaceful_evaluate`: expressions.
* `peaceful_evaluateDeclaration`, `peaceful_evaluateMembers`: declarations, and the members of an
  entity.
-/

namespace IdlReader

theorem Constant.reasoned_castInt (c : Constant) (k : IntegerKind) : Reasoned (c.castInt k) := by
  unfold castInt
  refine (reasoned_cast c _).bind fun d => ?_
  split
  · exact .ok _
  · exact .error trivial

namespace Parsing

variable {α β : Type}

/-- Whether no fault of an action is about names that clash. -/
def Peaceful (x : Parsing α) : Prop :=
  ∀ s, Ends x s (fun _ _ => True) fun f => f.cause.category ≠ .duplicate

namespace Peaceful

theorem pure (a : α) : Peaceful (pure a) := fun _ => Ends.pure trivial

theorem throw {f : Fault} (h : f.cause.category ≠ .duplicate) :
    Peaceful (throwThe Fault f : Parsing α) := fun _ => Ends.throw h

theorem exhausted : Peaceful (IdlReader.fail .inputExhausted : Parsing α) := throw nofun

theorem fail {cause : Cause} (h : cause.Plain) : Peaceful (IdlReader.fail cause : Parsing α) :=
  throw h.category_ne

theorem failAt {cause : Cause} {p : Position} (h : cause.Plain) :
    Peaceful (IdlReader.failAt cause p : Parsing α) := throw h.category_ne

theorem failAtToken {cause : Cause} {t : Token} (h : cause.Plain) :
    Peaceful (Parsing.failAtToken cause t : Parsing α) := failAt h

/-- A fault that is raised in front of further actions. -/
theorem fail_bind {cause : Cause} {f : β → Parsing α} (h : cause.Plain) :
    Peaceful (IdlReader.fail cause >>= f) := fun _ => h.category_ne

theorem failAt_bind {cause : Cause} {p : Position} {f : β → Parsing α} (h : cause.Plain) :
    Peaceful (IdlReader.failAt cause p >>= f) := fun _ => h.category_ne

theorem failAtToken_bind {cause : Cause} {t : Token} {f : β → Parsing α} (h : cause.Plain) :
    Peaceful (Parsing.failAtToken cause t >>= f) := failAt_bind h

theorem bind {x : Parsing α} {f : α → Parsing β} (hx : Peaceful x) (hf : ∀ a, Peaceful (f a)) :
    Peaceful (x >>= f) := fun s => (hx s).bind fun a s' _ => hf a s'

theorem ite {c : Prop} [Decidable c] {x y : Parsing α} (hx : Peaceful x) (hy : Peaceful y) :
    Peaceful (if c then x else y) := by
  split
  · exact hx
  · exact hy

theorem tree {f : Tree → Parsing α} (h : ∀ t, Peaceful (f t)) : Peaceful (tree >>= f) :=
  fun s => Ends.tree (h s.tree s)

theorem entity {f : Entity → Parsing α} {id : EntityId} (h : ∀ e, Peaceful (f e)) :
    Peaceful (entity id >>= f) := fun s => Ends.entity (h (s.tree.get id) s)

theorem modifyDeclaration (id : EntityId) (f : Declaration → Declaration) :
    Peaceful (modifyDeclaration id f) := fun _ => trivial

theorem orFail {x : Except Cause α} (h : Reasoned x) : Peaceful (orFail x) :=
  fun _ => Ends.orFail (fun _ _ => trivial) fun cause hx => (h cause hx).category_ne

theorem orFailAt (p : Position) {x : Except Cause α} (h : Reasoned x) :
    Peaceful (Expression.orFailAt p x : Parsing α) :=
  fun _ => Ends.orFailAt (fun _ _ => trivial) fun cause hx => (h cause hx).category_ne

theorem ofLiteral (t : Token) :
    Peaceful (Expression.orThrow (Constant.ofLiteral t) : Parsing Constant) :=
  fun _ => Ends.orThrow (fun _ _ => trivial) fun _ hf =>
    (Constant.reasoned_ofLiteral hf).category_ne

theorem orAt {x : Parsing α} (h : Peaceful x) (p : Position) : Peaceful (orAt p x) :=
  fun s => (h s).orAt fun _ hf => hf

theorem mapM {f : α → Parsing β} (h : ∀ a, Peaceful (f a)) (l : List α) :
    Peaceful (l.mapM f) := by
  induction l with
  | nil => exact pure _
  | cons a l ih =>
    rw [List.mapM_cons]
    exact (h a).bind fun _ => ih.bind fun _ => pure _

theorem forM {f : α → Parsing Unit} (h : ∀ a, Peaceful (f a)) (l : List α) :
    Peaceful (l.forM f) := by
  induction l with
  | nil => exact pure _
  | cons a l ih => exact (h a).bind fun _ => ih

end Peaceful

/-! ## Expressions -/

section Expressions

open Expression

theorem peaceful_expect (ts : Tokens) (text : String) :
    Peaceful (ts.expect text : Parsing Tokens) := by
  unfold Tokens.expect
  split
  · exact .pure _
  · exact .failAt trivial

theorem peaceful_applyUnary (op : UnaryOperator) (p : Position) (a : Evaluated) :
    Peaceful (applyUnary op p a : Parsing Evaluated) := by
  cases a with
  | known c => exact (Peaceful.orFailAt p (Constant.reasoned_unary op c)).bind fun _ => .pure _
  | dynamic => exact .pure _

theorem peaceful_applyBinary (op : BinaryOperator) (p : Position) (a b : Evaluated) :
    Peaceful (applyBinary op p a b : Parsing Evaluated) := by
  unfold applyBinary
  split
  · rename_i c d
    exact (Peaceful.orFailAt p (Constant.reasoned_binary op c d)).bind fun _ => .pure _
  · exact .pure _

/-- Whether no fault of operands is about names that clash if none of the expressions inside of
them is. -/
def PeacefulOperands (resolve : Resolver Parsing) : Prop :=
  ∀ index, (∀ ts, Peaceful (index ts)) → ∀ ts, Peaceful (resolve index ts)

variable {resolve : Resolver Parsing}

theorem peaceful_steps (hResolve : PeacefulOperands resolve) (n : Nat) :
    (∀ ts, Peaceful (operand resolve n ts)) ∧ (∀ level ts, Peaceful (climb resolve n level ts)) ∧
      ∀ level lhs ts, Peaceful (extend resolve n level lhs ts) := by
  induction n with
  | zero =>
    refine ⟨fun ts => ?_, fun level ts => ?_, fun level lhs ts => ?_⟩
    · rw [operand]
      exact .exhausted
    · rw [climb]
      exact .exhausted
    · rw [extend]
      exact .exhausted
  | succ n ih =>
    obtain ⟨ihOperand, ihClimb, ihExtend⟩ := ih
    refine ⟨fun ts => ?_, fun level ts => ?_, fun level lhs ts => ?_⟩
    · have hResolved := hResolve _ (ihClimb lowestPrecedence) ts
      rw [operand]
      split
      · exact .failAt trivial
      · refine .ite ?_ ?_
        · exact (ihClimb _ _).bind fun _ => (peaceful_expect _ _).bind fun _ => .pure _
        · split
          · exact (ihClimb _ _).bind fun _ => (peaceful_applyUnary _ _ _).bind fun _ => .pure _
          · split
            · exact (Peaceful.ofLiteral _).bind fun _ => .pure _
            · exact hResolved
            · exact hResolved
            · exact .ite hResolved (.failAt trivial)
    · rw [climb]
      exact (ihOperand ts).bind fun _ => ihExtend _ _ _
    · rw [extend]
      split
      · exact .pure _
      · refine .ite (.pure _) ?_
        split
        · exact .failAt trivial
        · refine .ite (.pure _) ((ihClimb _ _).bind fun _ => ?_)
          exact (peaceful_applyBinary _ _ _ _).bind fun _ => ihExtend _ _ _

/-- Expressions fail for other reasons than names that clash. -/
theorem peaceful_evaluate (hResolve : PeacefulOperands resolve) (tokens : List Token) :
    Peaceful (evaluate resolve tokens) := by
  unfold evaluate
  dsimp only
  split
  · exact .fail_bind trivial
  · refine Peaceful.bind (((peaceful_steps hResolve _).2.1 _ _).bind fun _ => .pure _) ?_
    rintro ⟨value, rest⟩
    dsimp only
    split
    · exact .pure _
    · exact .failAt trivial

end Expressions

/-! ## Operands -/

theorem peaceful_scopedNameTail (place : Position) (n : Nat) (name : String)
    (ts : Expression.Tokens) : Peaceful (scopedNameTail place n name ts) := by
  induction n generalizing name ts with
  | zero => exact .exhausted
  | succ n ih =>
    unfold scopedNameTail
    dsimp only
    split
    · exact .pure _
    · split
      · exact .failAt trivial
      · exact .ite (ih _ _) (.failAtToken trivial)

theorem peaceful_accessorTail
    {index : Expression.Tokens → Parsing (Evaluated × Expression.Tokens)}
    (hIndex : ∀ ts, Peaceful (index ts)) (place : Position) (n : Nat) (ts : Expression.Tokens) :
    Peaceful (accessorTail index place n ts) := by
  induction n generalizing ts with
  | zero => exact .exhausted
  | succ n ih =>
    unfold accessorTail
    refine .ite ?_ ?_
    · dsimp only
      split
      · exact .ite ((ih _).bind fun _ => .pure _) (.failAt trivial)
      · exact .failAt trivial
    · split
      · exact .pure _
      · refine (hIndex _).bind ?_
        rintro ⟨i, ts⟩
        refine (peaceful_expect _ _).bind fun ts => ?_
        cases i with
        | dynamic => exact (ih _).bind fun _ => .pure _
        | known c =>
          refine (Peaceful.orFailAt _ (Constant.reasoned_castInt c _)).bind fun _ => ?_
          exact (ih _).bind fun _ => .pure _

section Evaluate

variable {evaluate : EntityId → Parsing Unit} (hEvaluate : ∀ id, Peaceful (evaluate id))

include hEvaluate

theorem peaceful_operandValue (place : Position) (name : String) (id : EntityId)
    (accessors : List Accessor) (dynamic : Bool) :
    Peaceful (operandValue evaluate place name id accessors dynamic) := by
  unfold operandValue
  refine .entity fun e => ?_
  cases e.kind with
  | field | attr | parameter | caseEntry => exact .pure _
  | const | enumEntry =>
    refine .ite (.pure _) (((hEvaluate id).orAt place).bind fun _ => .tree fun t => ?_)
    dsimp only
    split
    · exact .pure _
    · exact .failAt trivial
    · exact .failAt trivial
  | _ => exact .failAt trivial

theorem peaceful_resolver (scope : EntityId) : PeacefulOperands (resolver evaluate scope) := by
  intro index hIndex ts
  unfold resolver
  dsimp only
  split
  · exact .failAt trivial
  · refine (peaceful_scopedNameTail _ _ _ _).bind ?_
    rintro ⟨name, us⟩
    refine (peaceful_accessorTail hIndex _ _ _).bind ?_
    rintro ⟨accessors, dynamic, vs⟩
    refine .tree fun t => ?_
    dsimp only
    split
    · exact .failAt trivial
    · exact (peaceful_operandValue hEvaluate _ _ _ _ _).bind fun _ => .pure _

theorem peaceful_evaluateIn (scope : EntityId) (tokens : List Token) :
    Peaceful (evaluateIn evaluate scope tokens) :=
  peaceful_evaluate (peaceful_resolver hEvaluate scope) tokens

/-! ## Parts of declarations -/

theorem peaceful_arraySize (scope : EntityId) (dimension : List Token) :
    Peaceful (arraySize evaluate scope dimension) := by
  cases dimension with
  | nil => exact .pure _
  | cons first rest =>
    unfold arraySize
    refine (peaceful_evaluateIn hEvaluate scope _).bind fun v => ?_
    cases v with
    | dynamic => exact .pure _
    | known c =>
      refine (Peaceful.orFailAt _ (Constant.reasoned_castInt c _)).bind fun _ => ?_
      exact .ite (.failAtToken_bind trivial) (.pure _)

theorem peaceful_nextEntryValue (id scope : EntityId) :
    Peaceful (nextEntryValue evaluate id scope) := by
  unfold nextEntryValue
  refine .tree fun t => ?_
  dsimp only
  split
  · exact .pure _
  · refine (hEvaluate _).bind fun _ => .entity fun e => ?_
    exact (Peaceful.orFail (Constant.reasoned_binary _ _ _)).bind fun sum =>
      .orFail (Constant.reasoned_cast sum _)

theorem peaceful_entryValue (id : EntityId) (d : Declaration) (scope : EntityId) :
    Peaceful (entryValue evaluate id d scope) := by
  unfold entryValue
  split
  · exact (peaceful_nextEntryValue hEvaluate id scope).bind fun _ => .pure _
  · refine (peaceful_evaluateIn hEvaluate scope _).bind fun v => ?_
    cases v with
    | dynamic => exact .failAtToken trivial
    | known c => exact (Peaceful.orFailAt _ (Constant.reasoned_cast c _)).bind fun _ => .pure _

theorem peaceful_labelValues (union : EntityId) (switchKind : Option Kind)
    (labels : List (List Token)) :
    Peaceful (labelValues evaluate union switchKind labels) := by
  induction labels with
  | nil => exact .pure _
  | cons label labels ih =>
    cases label with
    | nil =>
      rw [labelValues]
      exact ih
    | cons first rest =>
      rw [labelValues]
      refine (peaceful_evaluateIn hEvaluate union _).bind fun v => ?_
      cases v with
      | dynamic => exact .failAtToken trivial
      | known c =>
        cases switchKind with
        | none => exact ih.bind fun _ => .pure _
        | some k =>
          exact (Peaceful.orFailAt _ (Constant.reasoned_cast c k)).bind fun _ =>
            ih.bind fun _ => .pure _

end Evaluate

/-! ## Initializers -/

theorem peaceful_splitElements (depth : Nat) (element tokens : List Token) :
    Peaceful (splitElements depth element tokens) := by
  induction tokens generalizing depth element with
  | nil => exact .pure _
  | cons t tokens ih =>
    unfold splitElements
    exact .ite (.ite (.failAtToken trivial) ((ih _ _).bind fun _ => .pure _)) (ih _ _)

theorem peaceful_splitInitializer (tokens : List Token) : Peaceful (splitInitializer tokens) := by
  unfold splitInitializer
  split
  · exact .pure _
  · exact .ite (peaceful_splitElements _ _ _) (.failAtToken trivial)

theorem peaceful_textElements (type : DeclaredType) (size : Option Nat) (t : Token) :
    Peaceful (textElements type size t) := by
  unfold textElements
  refine (Peaceful.ofLiteral t).bind fun c => .ite (.failAtToken_bind trivial) ?_
  exact (Peaceful.mapM (fun _ => (Peaceful.orFailAt _ (Constant.reasoned_cast _ _)).bind
    fun _ => .pure _) _).bind fun _ => .pure _

section Values

variable {evaluate : EntityId → Parsing Unit} (hEvaluate : ∀ id, Peaceful (evaluate id))

include hEvaluate

theorem peaceful_scalarValue (scope : EntityId) (type : DeclaredType) (constant : Bool)
    (first : Token) (tokens : List Token) :
    Peaceful (scalarValue evaluate scope type constant first tokens) := by
  unfold scalarValue
  refine (peaceful_evaluateIn hEvaluate scope _).bind fun v => ?_
  cases v with
  | dynamic => exact .ite (.failAtToken trivial) (.pure _)
  | known c =>
    dsimp only
    split
    · exact .failAtToken trivial
    · exact (Peaceful.orFailAt _ (Constant.reasoned_cast c _)).bind fun _ => .pure _

theorem peaceful_buildMembers {build : Builder}
    (hBuild : ∀ type sizes tokens, Peaceful (build type sizes tokens)) (members : List EntityId)
    (elements : List (List Token)) : Peaceful (buildMembers evaluate build members elements) := by
  induction members generalizing elements with
  | nil => exact .pure _
  | cons m members ih =>
    rw [buildMembers]
    refine (hEvaluate m).bind fun _ => .entity fun e => ?_
    split
    · exact ih _
    · cases elements with
      | nil => exact (ih _).bind fun _ => .pure _
      | cons tokens rest => exact (hBuild _ _ _).bind fun _ => (ih _).bind fun _ => .pure _

theorem peaceful_buildValue (scope : EntityId) (constant : Bool) (n : Nat) (type : DeclaredType)
    (sizes : List (Option Nat)) (tokens : List Token) :
    Peaceful (buildValue evaluate scope constant n type sizes tokens) := by
  induction n generalizing type sizes tokens with
  | zero =>
    rw [buildValue]
    exact .exhausted
  | succ n ih =>
    cases tokens with
    | nil =>
      rw [buildValue]
      exact .pure _
    | cons first rest =>
      cases sizes with
      | cons size inner =>
        rw [buildValue]
        refine .ite (peaceful_textElements _ _ _) ?_
        refine (peaceful_splitInitializer _).bind fun elements =>
          .ite (.failAtToken_bind trivial) ?_
        exact (Peaceful.mapM (ih type inner) elements).bind fun _ => .pure _
      | nil =>
        rw [buildValue]
        refine .tree fun t => ?_
        split
        · exact peaceful_scalarValue hEvaluate _ _ _ _ _
        · refine (peaceful_splitInitializer _).bind fun elements =>
            .ite (.failAtToken_bind trivial) ?_
          exact (peaceful_buildMembers hEvaluate ih _ elements).bind fun _ => .pure _

/-! ## Declarations -/

theorem peaceful_declaredValue (id : EntityId) (kind : EntityKind) (d : Declaration)
    (sizes : List (Option Nat)) (scope : EntityId) :
    Peaceful (declaredValue evaluate id kind d sizes scope) := by
  unfold declaredValue
  split
  · exact (peaceful_entryValue hEvaluate id d scope).bind fun _ => .pure _
  · exact .tree fun t => (peaceful_labelValues hEvaluate scope _ _).bind fun _ => .pure _
  · exact (peaceful_buildValue hEvaluate _ _ _ _ _ _).bind fun _ => .pure _
  · exact (peaceful_buildValue hEvaluate _ _ _ _ _ _).bind fun _ => .pure _
  · exact .pure _

end Values

theorem peaceful_evaluateWithin (n : Nat) (id : EntityId) : Peaceful (evaluateWithin n id) := by
  induction n generalizing id with
  | zero => exact .exhausted
  | succ n ih =>
    unfold evaluateWithin
    refine .entity fun e => ?_
    split
    · exact .pure _
    · split
      · exact .pure _
      · exact .fail trivial
      · refine (Peaceful.modifyDeclaration id _).bind fun _ => ?_
        refine (Peaceful.mapM (peaceful_arraySize ih _) _).bind fun sizes => ?_
        refine (peaceful_declaredValue ih _ _ _ _ _).bind ?_
        rintro ⟨value, caseValues⟩
        exact .modifyDeclaration id _

/-- Evaluating a declaration fails for other reasons than names that clash. -/
theorem peaceful_evaluateDeclaration (id : EntityId) : Peaceful (evaluateDeclaration id) :=
  .tree fun _ => peaceful_evaluateWithin _ id

/-! ## Members -/

theorem peaceful_checkEntries (seen : List Constant) (ids : List EntityId) :
    Peaceful (checkEntries seen ids) := by
  induction ids generalizing seen with
  | nil => exact .pure _
  | cons id ids ih =>
    unfold checkEntries
    refine (peaceful_evaluateDeclaration id).bind fun _ => .entity fun e => ?_
    split
    · exact .fail trivial
    · exact .ite (.failAt trivial) (ih _)

theorem peaceful_checkLabels (p : Position) (seen cs : List Constant) :
    Peaceful (checkCases.checkLabels p seen cs) := by
  induction cs generalizing seen with
  | nil => exact .pure _
  | cons c cs ih =>
    unfold checkCases.checkLabels
    exact .ite (.failAt trivial) (ih _)

theorem peaceful_checkCases (hasDefault : Bool) (seen : List Constant) (ids : List EntityId) :
    Peaceful (checkCases hasDefault seen ids) := by
  induction ids generalizing hasDefault seen with
  | nil => exact .pure _
  | cons id ids ih =>
    unfold checkCases
    refine (peaceful_evaluateDeclaration id).bind fun _ => .entity fun e => ?_
    split
    · exact ih _ _
    · exact .ite (.failAt_bind trivial) ((peaceful_checkLabels _ _ _).bind fun _ => ih _ _)

theorem peaceful_childrenOfKinds (kinds : List EntityKind) (ids : List EntityId) :
    Peaceful (childrenOfKinds kinds ids) := .tree fun _ => .pure _

theorem peaceful_evaluateType (id : EntityId) : Peaceful (evaluateType id) := by
  unfold evaluateType
  refine .entity fun e => .ite (.ite (.pure _) ?_) (peaceful_evaluateDeclaration id)
  exact (peaceful_childrenOfKinds _ _).bind fun _ => peaceful_checkCases _ _ _

theorem peaceful_evaluateWithParameters (id : EntityId) :
    Peaceful (evaluateWithParameters id) :=
  (peaceful_evaluateDeclaration id).bind fun _ => .tree fun _ =>
    .forM peaceful_evaluateDeclaration _

/-- Evaluating the members of an entity fails for other reasons than names that clash. -/
theorem peaceful_evaluateMembers (owner : EntityId) : Peaceful (evaluateMembers owner) := by
  unfold evaluateMembers
  refine .entity fun e => (peaceful_childrenOfKinds _ _).bind fun _ => ?_
  refine (Peaceful.forM peaceful_evaluateType _).bind fun _ => ?_
  refine (peaceful_childrenOfKinds _ _).bind fun _ => ?_
  refine (Peaceful.forM peaceful_evaluateDeclaration _).bind fun _ => ?_
  refine (peaceful_childrenOfKinds _ _).bind fun _ => ?_
  refine (Peaceful.forM peaceful_evaluateWithParameters _).bind fun _ => ?_
  exact (peaceful_childrenOfKinds _ _).bind fun _ =>
    .forM peaceful_evaluateDeclaration _

end Parsing

end IdlReader
