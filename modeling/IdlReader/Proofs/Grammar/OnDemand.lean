import IdlReader.Proofs.Constant.Agenda
import IdlReader.Proofs.Constant.Cause
import IdlReader.Proofs.Grammar.Operand
import IdlReader.Proofs.Grammar.ReadConstant
import IdlReader.Proofs.Tree.Outline

/-!
# Evaluating the constants of a module

A constant is evaluated when it is its turn, or earlier when the assignment of another constant
mentions it. The tree and an `Agenda` keep step with each other: a constant that is being evaluated
again leads back to itself, and one that was evaluated has the value of the agenda.

* `ends_outcome`: expressions.
* `ends_evaluateWithin`: one constant, with those that it leads to.
* `ends_evaluateMembers`: all constants of a module.
-/

namespace IdlReader

open IdlReader.Tree

/-- A constant of a module with its entity. -/
structure PlacedConstant (env : Environment) where
  constant : WrittenConstant env
  id : EntityId

namespace PlacedConstant

variable {env : Environment} (x : PlacedConstant env)

/-- The key of its name. -/
def key : String := x.constant.assigned.key

/-- What is known about a constant when an evaluation has come to a certain point. -/
def declaration (a : Agenda) : Declaration :=
  if x.key ∈ a.started then x.constant.declaration.started
  else if x.key ∈ a.keys then
    x.constant.declaration.finished [] (.ofConstant (a.values x.key)) []
  else x.constant.declaration

/-- The constant in the tree. -/
def member (a : Agenda) : ConstMember := ⟨x.id, x.constant.name.text, x.declaration a⟩

variable {x} {a a' : Agenda}

theorem declaration_started (h : x.key ∈ a.started) :
    x.declaration a = x.constant.declaration.started := if_pos h

theorem declaration_done (hStarted : x.key ∉ a.started) (hDone : x.key ∈ a.keys) :
    x.declaration a =
      x.constant.declaration.finished [] (.ofConstant (a.values x.key)) [] := by
  unfold declaration
  rw [if_neg hStarted, if_pos hDone]

theorem declaration_pending (hStarted : x.key ∉ a.started) (hDone : x.key ∉ a.keys) :
    x.declaration a = x.constant.declaration := by
  unfold declaration
  rw [if_neg hStarted, if_neg hDone]

theorem declaration_congr (hStarted : x.key ∈ a'.started ↔ x.key ∈ a.started)
    (hKeys : x.key ∈ a'.keys ↔ x.key ∈ a.keys) (hValue : a'.values x.key = a.values x.key) :
    x.declaration a' = x.declaration a := by
  unfold declaration
  rw [hValue]
  simp only [hStarted, hKeys]

end PlacedConstant

/-- A module whose constants were read. -/
structure PlacedModule (env : Environment) where
  owner : EntityId
  name : String
  placed : List (PlacedConstant env)
  distinct : (placed.map PlacedConstant.key).Nodup
  names : ∀ x ∈ placed, ∀ t ∈ x.constant.expression.operands, IsName t.text
  closed : ∀ x ∈ placed, ∀ t ∈ x.constant.expression.operands, ∃ y ∈ placed,
    env.fold t.text = y.key

namespace PlacedModule

variable {env : Environment} (m : PlacedModule env)

/-- What the values of the constants depend on. -/
def body : List Assigned := m.placed.map fun x => x.constant.assigned

/-- Whether a fault is the consequence of an assignment that has no value. -/
abbrev Refuses : Fault → Prop := Assigned.Refuted env.fold m.body

/-- Whether an assignment mentions a constant of the module. -/
def Leads : Assigned → Assigned → Prop :=
  Relation.TransGen fun a b => a ∈ m.body ∧ b ∈ m.body ∧ Assigned.Mentions env.fold a b

variable {m} {x y : PlacedConstant env}

theorem assigned_mem (hx : x ∈ m.placed) : x.constant.assigned ∈ m.body :=
  List.mem_map.mpr ⟨x, hx, rfl⟩

theorem keys_body : m.body.map Assigned.key = m.placed.map PlacedConstant.key := List.map_map

theorem eq_of_key_eq (hx : x ∈ m.placed) (hy : y ∈ m.placed) (h : x.key = y.key) : x = y :=
  List.inj_on_of_nodup_map m.distinct hx hy h

theorem Refuses.orAt {f : Fault} (h : m.Refuses f) (p : Position) : m.Refuses (f.orAt p) := h

end PlacedModule

/-- Whether the tree of a session holds a module whose constants are evaluated as far as an agenda
says. -/
structure Session.Keeps {env : Environment} (s : Session) (m : PlacedModule env) (ts : List Token)
    (a : Agenda) : Prop where
  awaits : s.Awaits env ts fun t =>
    t.Holds (env.enables .caseSensitiveNames) m.owner m.name (m.placed.map (·.member a))
  sound : a.Sound env.fold m.body

/-- Whether all constants of a module were evaluated, and the tree of a session holds it. -/
structure Session.Completes {env : Environment} (s : Session) (m : PlacedModule env)
    (ts : List Token) (a : Agenda) : Prop extends s.Keeps m ts a where
  started : a.started = []
  all : ∀ x ∈ m.placed, x.key ∈ a.keys

theorem Session.Keeps.stands {env : Environment} {s : Session} {m : PlacedModule env}
    {ts : List Token} {a : Agenda} (h : s.Keeps m ts a) {y : PlacedConstant env}
    (hy : y ∈ m.placed) : ConstMember.Stands (y.member a) s.tree m.owner :=
  h.awaits.tree.stands _ (List.mem_map.mpr ⟨y, hy, rfl⟩)

namespace WrittenConstant

variable {env : Environment} (c : WrittenConstant env)

/-- A constant has a value where its assignment has one that can be cast. -/
theorem evaluate_assigned (values : String → Constant) :
    c.assigned.evaluate env.fold (fun key => some (values key)) =
      match (c.expression.value (Agenda.outcomes env.fold values)).toOption with
      | some (.known a) => (a.cast (.integer c.kind)).toOption
      | _ => none := by
  unfold Assigned.evaluate
  have hOperand : ∀ t : Token, (Agenda.outcomes env.fold values t.unplaced).toOption =
      (Agenda.outcomes env.fold values t).toOption := fun _ => rfl
  have hValue : c.assigned.expression.value (Agenda.outcomes env.fold values) =
      c.expression.unplaced.value (Agenda.outcomes env.fold values) := rfl
  rw [hValue, Expression.value_unplaced hOperand]
  rfl

/-- In a solution the assignment has a value. -/
theorem valued {body : List Assigned} (h : c.assigned ∈ body) :
    Assigned.Valued env.fold body c.expression := by
  intro w hSolves
  have hEvaluate := hSolves c.assigned h
  rw [evaluate_assigned] at hEvaluate
  cases hValue : c.expression.value (Agenda.outcomes env.fold w) with
  | ok v => exact ⟨v, rfl⟩
  | error f =>
    rw [hValue] at hEvaluate
    cases hEvaluate

end WrittenConstant

namespace Parsing

variable {env : Environment} {m : PlacedModule env} {ts : List Token} {a a' : Agenda}
  {s s' : Session} {x y : PlacedConstant env} {evaluate : EntityId → Parsing Unit}

/-! ## Expressions -/

section Expressions

open Expression

theorem ends_applyUnary (op : UnaryOperator) (p : Position) (v : Evaluated) :
    Ends (applyUnary op p v) s
      (fun w s' => s' = s ∧ (applyUnary op p v : Except Fault Evaluated) = .ok w)
      (fun f => f.cause ≠ .inputExhausted ∧
        (applyUnary op p v : Except Fault Evaluated) = .error f) := by
  cases v with
  | dynamic => exact Ends.pure ⟨rfl, rfl⟩
  | known c =>
    have hReason := Constant.reasoned_unary op c
    unfold applyUnary
    dsimp only
    cases hValue : Constant.unary op c with
    | ok d => exact ⟨rfl, rfl⟩
    | error cause => exact ⟨(hReason cause hValue).ne_inputExhausted, rfl⟩

theorem ends_applyBinary (op : BinaryOperator) (p : Position) (v w : Evaluated) :
    Ends (applyBinary op p v w) s
      (fun u s' => s' = s ∧ (applyBinary op p v w : Except Fault Evaluated) = .ok u)
      (fun f => f.cause ≠ .inputExhausted ∧
        (applyBinary op p v w : Except Fault Evaluated) = .error f) := by
  cases v with
  | dynamic => exact Ends.pure ⟨rfl, rfl⟩
  | known c =>
    cases w with
    | dynamic => exact Ends.pure ⟨rfl, rfl⟩
    | known d =>
      have hReason := Constant.reasoned_binary op c d
      unfold applyBinary
      dsimp only
      cases hValue : Constant.binary op c d with
      | ok e => exact ⟨rfl, rfl⟩
      | error cause => exact ⟨(hReason cause hValue).ne_inputExhausted, rfl⟩

/-- The outcome of a name in an expression. -/
def namedOperand (evaluate : EntityId → Parsing Unit) (scope : EntityId) (t : Token) :
    Parsing Evaluated := do
  let tr ← tree
  match tr.find scope t.text true with
  | none => failAt (.undefinedName t.text) t.position
  | some id => operandValue evaluate t.position t.text id [] false

theorem closes_of_stops {rest : List Token} (h : Stops 0 rest) : Closes rest := by
  intro t ht
  rcases h t ht with hEnd | ⟨op, hOp, -⟩
  · simp only [isTerminator, Bool.and_eq_true, beq_iff_eq, List.contains_eq_mem,
      decide_eq_true_eq, List.mem_cons, List.not_mem_nil, or_false] at hEnd
    obtain ⟨hKind, hText⟩ := hEnd
    refine ⟨Token.not_is_of_text_ne ?_, Token.not_is_of_text_ne ?_, fun hPoint => ?_⟩
    · rcases hText with h | h | h | h | h <;> rw [h] <;> decide
    · rcases hText with h | h | h | h | h <;> rw [h] <;> decide
    · rw [hKind] at hPoint
      cases hPoint.1
  · have hText : ∀ text, BinaryOperator.ofSign? text = none → t.text ≠ text := by
      rintro text hNone rfl
      unfold binaryOperator? at hOp
      split at hOp
      · rw [hNone] at hOp
        cases hOp
      · cases hOp
    exact ⟨Token.not_is_of_text_ne (hText _ rfl), Token.not_is_of_text_ne (hText _ rfl),
      fun hPoint => hText "." rfl hPoint.2⟩

/-- A name is an operand of its own. -/
theorem takes_name {t : Token} (hName : IsName t.text) (scope : EntityId) :
    Takes (resolver evaluate scope) (namedOperand evaluate scope) t := by
  intro index rest last hStops
  have hCloses := closes_of_stops hStops
  have hLast := getLast?_append_name hName ""
  rw [String.empty_append] at hLast
  unfold resolver namedOperand
  simp only [Tokens.advance, List.tail_cons, Tokens.position, List.head?_cons, Option.map_some,
    Option.getD_some]
  rw [scopedNameTail_closes hCloses.unmarked hLast, pure_bind]
  dsimp only
  rw [accessorTail_closes hCloses, pure_bind]
  simp only [bind_assoc]
  congr 1
  funext tr
  cases tr.find scope t.text true <;> rfl

/-- Whether evaluating a constant on demand succeeds or shows that there is no solution, while the
constants with certain keys are being evaluated. -/
def Supplies (m : PlacedModule env) (ts : List Token) (evaluate : EntityId → Parsing Unit)
    (started : List String) (y : PlacedConstant env) : Prop :=
  ∀ s a, s.Keeps m ts a → a.started = started →
    Ends (evaluate y.id) s (fun _ s' => ∃ a', a.Before a' ∧ y.key ∈ a'.keys ∧ s'.Keeps m ts a')
      m.Refuses

/-- The name of a constant leads to it. -/
theorem find_keeps (h : s.Keeps m ts a) (hy : y ∈ m.placed) {t : Token} (hName : IsName t.text)
    (hKey : env.fold t.text = y.key) : s.tree.find m.owner t.text true = some y.id := by
  have hTree := h.awaits.tree
  have hFold : ∀ written, s.tree.key written = env.fold written := fun written =>
    InModule.key_eq hTree written
  refine hTree.find ?_ (List.mem_map.mpr ⟨y, hy, rfl⟩) hName ?_
  · rw [List.map_map]
    refine (congrArg List.Nodup (List.map_congr_left fun x _ => ?_)).mpr m.distinct
    exact hFold x.constant.name.text
  · rw [hFold, hKey]
    exact (hFold y.constant.name.text).symm

/-- A name in an expression has the value of its constant, which is evaluated first. -/
theorem ends_namedOperand {started : List String} (hSupplies : Supplies m ts evaluate started y)
    (hy : y ∈ m.placed) {t : Token} (hName : IsName t.text) (hKey : env.fold t.text = y.key)
    (h : s.Keeps m ts a) (hStarted : a.started = started) :
    Ends (namedOperand evaluate m.owner t) s (fun v s' => ∃ a', a.Before a' ∧
      a'.Has env.fold (.operand t) v ∧ s'.Keeps m ts a') m.Refuses := by
  unfold namedOperand
  refine Ends.tree ?_
  rw [find_keeps h hy hName hKey]
  dsimp only
  unfold operandValue
  refine Ends.entity ?_
  have hKind : (s.tree.get y.id).kind = .const := (h.stands hy).kind
  rw [hKind]
  dsimp only
  rw [if_neg (by decide)]
  refine (Ends.orAt (hSupplies s a h hStarted) fun f hf => hf.orAt _).bind ?_
  rintro _ s' ⟨a', hBefore, hDone, h'⟩
  refine Ends.tree ?_
  have hDeclaration : (s'.tree.get y.id).declaration? = some (y.declaration a') :=
    (h'.stands hy).declaration
  have hStartedNot : y.key ∉ a'.started := fun hOpen => h'.sound.disjoint _ hOpen hDone
  rw [hDeclaration, PlacedConstant.declaration_done hStartedNot hDone]
  refine Ends.pure ⟨a', hBefore, ?_, h'⟩
  have hHas : a'.Has env.fold (.operand t) (.known (a'.values (env.fold t.text))) :=
    .operand (hKey ▸ hDone)
  rw [hKey] at hHas
  exact hHas

/-- An expression is evaluated with the constants that it mentions, or shows that there is no
solution. -/
theorem ends_outcome {started : List String} (e : Expression.Tree)
    (hSupplies : ∀ t ∈ e.operands, ∀ y ∈ m.placed, env.fold t.text = y.key →
      Supplies m ts evaluate started y)
    (hClosed : ∀ t ∈ e.operands, ∃ y ∈ m.placed, env.fold t.text = y.key)
    (hNames : ∀ t ∈ e.operands, IsName t.text) (hValued : Assigned.Valued env.fold m.body e)
    (h : s.Keeps m ts a) (hStarted : a.started = started) :
    Ends (e.outcome (namedOperand evaluate m.owner)) s (fun v s' => ∃ a', a.Before a' ∧
      a'.Has env.fold e v ∧ s'.Keeps m ts a') m.Refuses := by
  induction e generalizing s a with
  | literal t =>
    unfold Tree.outcome
    refine (Ends.orThrow (P := fun c s' => s' = s ∧ Constant.ofLiteral t = .ok c)
      (fun c hc => ⟨rfl, hc⟩) fun f hf => ?_).bind ?_
    · have hNone : ∀ u ∈ (Tree.literal t).operands, env.fold u.text ∈ a.keys :=
        fun u hu => absurd hu List.not_mem_nil
      refine ⟨(Constant.reasoned_ofLiteral hf).ne_inputExhausted,
        h.sound.not_solvable hValued hNone (f := f) ?_⟩
      rw [Tree.value, hf]
      rfl
    · rintro c s' ⟨rfl, hc⟩
      exact Ends.pure ⟨a, .refl a, .literal hc, h⟩
  | operand t =>
    obtain ⟨y, hy, hKey⟩ := hClosed t List.mem_cons_self
    exact ends_namedOperand (hSupplies t List.mem_cons_self y hy hKey) hy
      (hNames t List.mem_cons_self) hKey h hStarted
  | unary op p e ih =>
    unfold Tree.outcome
    refine (ih hSupplies hClosed hNames hValued.inner h hStarted).bind ?_
    rintro v s' ⟨a', hBefore, hHas, h'⟩
    refine ((ends_applyUnary op p v).faults ?_).mono ?_
    · rintro f ⟨hCause, hError⟩
      exact ⟨hCause, h'.sound.not_solvable hValued hHas.operands
        ((hHas.value_unary op).trans hError)⟩
    · rintro w s'' ⟨rfl, hValue⟩
      exact ⟨a', hBefore, ⟨hHas.operands, (hHas.value_unary op).trans hValue⟩, h'⟩
  | binary op p l r ihLeft ihRight =>
    unfold Tree.outcome
    refine (ihLeft (fun t ht => hSupplies t (List.mem_append_left _ ht))
      (fun t ht => hClosed t (List.mem_append_left _ ht))
      (fun t ht => hNames t (List.mem_append_left _ ht)) hValued.left h hStarted).bind ?_
    rintro v s₁ ⟨a₁, hBefore₁, hLeft, h₁⟩
    refine (ihRight (fun t ht => hSupplies t (List.mem_append_right _ ht))
      (fun t ht => hClosed t (List.mem_append_right _ ht))
      (fun t ht => hNames t (List.mem_append_right _ ht)) hValued.right h₁
      (hBefore₁.started.trans hStarted)).bind ?_
    rintro w s₂ ⟨a₂, hBefore₂, hRight, h₂⟩
    have hLater := hLeft.later h₁.sound h₂.sound hBefore₂
    have hOperands := hLater.operands_binary (p := p) hRight op
    refine ((ends_applyBinary op p v w).faults ?_).mono ?_
    · rintro f ⟨hCause, hError⟩
      exact ⟨hCause, h₂.sound.not_solvable hValued hOperands
        ((hLater.value_binary hRight op).trans hError)⟩
    · rintro u s₃ ⟨rfl, hValue⟩
      exact ⟨a₂, hBefore₁.trans hBefore₂,
        ⟨hOperands, (hLater.value_binary hRight op).trans hValue⟩, h₂⟩

end Expressions

/-! ## Constants -/

/-- What is known about one constant changes as the agenda does. -/
theorem ends_modifyDeclaration {E : Fault → Prop} (h : s.Keeps m ts a) (hx : x ∈ m.placed)
    (hSound : a'.Sound env.fold m.body) {f : Declaration → Declaration}
    (hSelf : f (x.declaration a) = x.declaration a')
    (hOthers : ∀ y ∈ m.placed, y.key ≠ x.key → y.declaration a' = y.declaration a) :
    Ends (modifyDeclaration x.id f) s (fun _ s' => s'.Keeps m ts a') E := by
  refine (ends_modifyEntity h.awaits fun hTree => ?_).mono fun _ _ hAwaits => ⟨hAwaits, hSound⟩
  have hIds := hTree.nodup
  rw [List.map_map] at hIds
  have hModify := hTree.modify x.id f
  rw [List.map_map] at hModify
  have hMembers : (m.placed.map fun y => if (y.member a).id = x.id then
      { y.member a with declaration := f (y.member a).declaration } else y.member a) =
        m.placed.map (·.member a') := by
    refine List.map_congr_left fun y hy => ?_
    change (if y.id = x.id then _ else _) = _
    by_cases hId : y.id = x.id
    · have hEq : y = x := List.inj_on_of_nodup_map hIds hy hx hId
      rw [if_pos hId, hEq]
      exact congrArg (ConstMember.mk x.id x.constant.name.text) hSelf
    · rw [if_neg hId]
      refine congrArg (ConstMember.mk y.id y.constant.name.text) (hOthers y hy fun hKey => ?_).symm
      exact hId (congrArg PlacedConstant.id (PlacedModule.eq_of_key_eq hy hx hKey))
  rw [← hMembers]
  exact hModify

theorem ends_start {E : Fault → Prop} (h : s.Keeps m ts a) (hx : x ∈ m.placed)
    (hStarted : x.key ∉ a.started) (hDone : x.key ∉ a.keys) :
    Ends (modifyDeclaration x.id Declaration.started) s
      (fun _ s' => s'.Keeps m ts (a.start x.key)) E := by
  refine ends_modifyDeclaration h hx
    (h.sound.start (PlacedModule.assigned_mem hx) hStarted hDone) ?_ fun y hy hKey => ?_
  · have hOpen : x.key ∈ (a.start x.key).started := List.mem_cons_self
    rw [PlacedConstant.declaration_pending hStarted hDone]
    exact (PlacedConstant.declaration_started hOpen).symm
  · refine PlacedConstant.declaration_congr ?_ .rfl rfl
    exact List.mem_cons.trans (or_iff_right hKey)

theorem ends_finish {E : Fault → Prop} (h : s.Keeps m ts a) (hx : x ∈ m.placed)
    {started : List String} (hStarted : a.started = x.key :: started)
    (hOperands : ∀ t ∈ x.constant.expression.operands, env.fold t.text ∈ a.keys) {v : Constant}
    (hValue : x.constant.assigned.evaluate env.fold (fun key => some (a.values key)) = some v) :
    Ends (modifyDeclaration x.id (Declaration.finished [] (.ofConstant v) [])) s
      (fun _ s' => s'.Keeps m ts (a.finish started x.constant.assigned v)) E := by
  have hSound : (a.finish started x.constant.assigned v).Sound env.fold m.body := by
    refine h.sound.finish (PlacedModule.assigned_mem hx) hStarted ?_ hValue
    intro t ht
    change t ∈ x.constant.expression.unplaced.operands at ht
    rw [Expression.operands_unplaced] at ht
    obtain ⟨u, hu, rfl⟩ := List.mem_map.mp ht
    exact hOperands u hu
  have hDone : x.key ∈ (a.finish started x.constant.assigned v).keys :=
    List.mem_map.mpr ⟨_, List.mem_append_right _ List.mem_cons_self, rfl⟩
  have hClosed : x.key ∉ started := by
    have hNodup := h.sound.startedNodup
    rw [hStarted, List.nodup_cons] at hNodup
    exact hNodup.1
  refine ends_modifyDeclaration h hx hSound ?_ fun y hy hKey => ?_
  · have hOpen : x.key ∈ a.started := hStarted ▸ List.mem_cons_self
    have hLast : (a.finish started x.constant.assigned v).values x.key = v :=
      Function.update_self _ _ _
    rw [PlacedConstant.declaration_started hOpen, PlacedConstant.declaration_done hClosed hDone,
      hLast]
    rfl
  · have hSame : (a.finish started x.constant.assigned v).values y.key = a.values y.key :=
      Function.update_of_ne hKey _ _
    have hKeys : y.key ∈ (a.finish started x.constant.assigned v).keys ↔ y.key ∈ a.keys := by
      unfold Agenda.finish Agenda.keys
      rw [List.map_append, List.mem_append]
      exact or_iff_left fun hLast => hKey (List.mem_singleton.mp hLast)
    have hOpen : y.key ∈ started ↔ y.key ∈ a.started := by
      rw [hStarted, List.mem_cons]
      exact (or_iff_right hKey).symm
    exact PlacedConstant.declaration_congr hOpen hKeys hSame

/-- The assignment of a constant is evaluated and gives a value of its kind, or shows that there is
no solution. -/
theorem ends_declaredValue {started : List String} (hx : x ∈ m.placed)
    (hSupplies : ∀ t ∈ x.constant.expression.operands, ∀ y ∈ m.placed,
      env.fold t.text = y.key → Supplies m ts evaluate started y)
    (h : s.Keeps m ts a) (hStarted : a.started = started) :
    Ends (declaredValue evaluate x.id .const x.constant.declaration [] m.owner) s
      (fun r s' => ∃ a' v, r = (.ofConstant v, []) ∧ a.Before a' ∧
        (∀ t ∈ x.constant.expression.operands, env.fold t.text ∈ a'.keys) ∧
        x.constant.assigned.evaluate env.fold (fun key => some (a'.values key)) = some v ∧
        s'.Keeps m ts a') m.Refuses := by
  let c := x.constant
  have hMem := PlacedModule.assigned_mem hx
  have hOutcome := ends_outcome c.expression hSupplies (m.closed x hx) (m.names x hx)
    (c.valued hMem) h hStarted
  have hEvaluate : evaluateIn evaluate m.owner c.assignment =
      c.expression.outcome (namedOperand evaluate m.owner) :=
    Expression.evaluate_writes c.hAssignment fun t ht => takes_name (m.names x hx t ht) _
  obtain ⟨first, rest, hAssignment⟩ := List.exists_cons_of_ne_nil c.hAssignment.ne_nil
  have hKind : c.declaredType.kind? = some (.integer c.kind) := c.hKind
  -- What is known of a value in the end is known in every solution.
  have hNot : ∀ {a' : Agenda} {v : Evaluated}, a'.Sound env.fold m.body →
      a'.Has env.fold c.expression v →
      c.assigned.evaluate env.fold (fun key => some (a'.values key)) = none →
      ¬ Assigned.Solvable env.fold m.body := by
    rintro a' v hSound hHas hNone ⟨order, w, -, hSolves⟩
    have hSame := hSound.value_eq hHas.operands fun b hb => hSolves b (hSound.subset hb)
    have hSome := hSolves c.assigned hMem
    rw [WrittenConstant.evaluate_assigned] at hNone hSome
    rw [hSame, hNone] at hSome
    cases hSome
  unfold declaredValue
  dsimp only
  change Ends ((buildValue evaluate m.owner true (c.assignment.length + 1) c.declaredType []
    c.assignment) >>= fun v => pure (v, [])) s _ _
  rw [hAssignment]
  unfold buildValue
  simp only [bind_assoc]
  refine Ends.tree ?_
  have hDefinition : compoundDefinition? s.tree c.declaredType = none := rfl
  rw [hDefinition]
  dsimp only
  unfold scalarValue
  rw [← hAssignment, hEvaluate]
  simp only [bind_assoc]
  refine hOutcome.bind ?_
  rintro v s' ⟨a', hBefore, hHas, h'⟩
  have hValue := c.evaluate_assigned a'.values
  rw [hHas.value] at hValue
  cases v with
  | dynamic => exact ⟨nofun, hNot h'.sound hHas hValue⟩
  | known b =>
    dsimp only
    rw [hKind]
    simp only [bind_assoc, pure_bind]
    cases hCast : b.cast (.integer c.kind) with
    | ok v =>
      refine Ends.pure ⟨a', v, rfl, hBefore, hHas.operands, ?_, h'⟩
      rw [hValue]
      dsimp only [Except.toOption]
      rw [hCast]
    | error cause =>
      refine ⟨(Constant.reasoned_cast _ _ cause hCast).ne_inputExhausted, hNot h'.sound hHas ?_⟩
      rw [hValue]
      dsimp only [Except.toOption]
      rw [hCast]

/-- A constant is evaluated with those that it leads to, or shows that there is no solution. The
constants that are being evaluated lead to it, so that none of them can be met again in an order;
each takes a step of the budget. -/
theorem ends_evaluateWithin (n : Nat) (hx : x ∈ m.placed) (h : s.Keeps m ts a)
    (hBudget : m.placed.length < n + a.started.length)
    (hLeads : ∀ key ∈ a.started, ∃ y ∈ m.placed, y.key = key ∧
      m.Leads y.constant.assigned x.constant.assigned) :
    Ends (evaluateWithin n x.id) s (fun _ s' => ∃ a', a.Before a' ∧ x.key ∈ a'.keys ∧
      s'.Keeps m ts a') m.Refuses := by
  induction n generalizing x s a with
  | zero =>
    have hLength := h.sound.length_started_le
    rw [PlacedModule.body, List.length_map] at hLength
    omega
  | succ n ih =>
    have hStands := h.stands hx
    have hDeclaration : (s.tree.get x.id).declaration? = some (x.declaration a) :=
      hStands.declaration
    unfold evaluateWithin
    refine Ends.entity ?_
    rw [hDeclaration]
    dsimp only
    by_cases hOpen : x.key ∈ a.started
    · -- The constant leads back to itself.
      obtain ⟨y, hy, hKey, hPath⟩ := hLeads x.key hOpen
      rw [PlacedModule.eq_of_key_eq hy hx hKey] at hPath
      rw [PlacedConstant.declaration_started hOpen]
      refine ⟨by decide, ?_⟩
      rintro ⟨order, v, hOrder, -⟩
      have hKeys : (m.body.map Assigned.key).Nodup := by
        rw [PlacedModule.keys_body]
        exact m.distinct
      exact Assigned.acyclic_of_topological hOrder hKeys _ hPath
    · by_cases hDone : x.key ∈ a.keys
      · rw [PlacedConstant.declaration_done hOpen hDone]
        exact Ends.pure ⟨a, .refl a, hDone, h⟩
      · have hParent : (s.tree.get x.id).parent = some m.owner := hStands.parent
        have hKind : (s.tree.get x.id).kind = .const := hStands.kind
        rw [PlacedConstant.declaration_pending hOpen hDone, hParent, hKind]
        refine (ends_start h hx hOpen hDone).bind fun _ s₁ h₁ => ?_
        -- What the assignment mentions is reached from all that is being evaluated now.
        have hSupplies : ∀ t ∈ x.constant.expression.operands, ∀ y ∈ m.placed,
            env.fold t.text = y.key →
            Supplies m ts (evaluateWithin n) (a.start x.key).started y := by
          intro t ht y hy hKey s' a' h' hStarted
          have hEdge : m.Leads x.constant.assigned y.constant.assigned := by
            refine .single ⟨PlacedModule.assigned_mem hx, PlacedModule.assigned_mem hy,
              t.unplaced, ?_, hKey⟩
            change t.unplaced ∈ x.constant.expression.unplaced.operands
            rw [Expression.operands_unplaced]
            exact List.mem_map.mpr ⟨t, ht, rfl⟩
          refine ih hy h' ?_ ?_
          · rw [hStarted]
            change m.placed.length < n + (a.started.length + 1)
            omega
          · intro key hKey
            rw [hStarted] at hKey
            rcases List.mem_cons.mp hKey with rfl | hKey
            · exact ⟨x, hx, rfl, hEdge⟩
            · obtain ⟨z, hz, hSame, hPath⟩ := hLeads key hKey
              exact ⟨z, hz, hSame, hPath.trans hEdge⟩
        have hSizes : x.constant.declaration.dimensions.mapM
            (arraySize (evaluateWithin n) m.owner) = pure [] := rfl
        change Ends (x.constant.declaration.dimensions.mapM
          (arraySize (evaluateWithin n) m.owner) >>= _) s₁ _ _
        rw [hSizes, pure_bind]
        refine (ends_declaredValue hx hSupplies h₁ rfl).bind ?_
        rintro r s₂ ⟨a₂, v, rfl, hBefore, hOperands, hValue, h₂⟩
        refine (ends_finish h₂ hx hBefore.started hOperands hValue).mono fun _ s₃ h₃ => ?_
        have hLater : a.Before (a₂.finish a.started x.constant.assigned v) :=
          ⟨rfl, fun c hc => List.mem_append_left _ (hBefore.done hc)⟩
        refine ⟨_, hLater, ?_, h₃⟩
        exact List.mem_map.mpr ⟨_, List.mem_append_right _ List.mem_cons_self, rfl⟩

/-! ## Modules -/

theorem ends_evaluateDeclaration (hx : x ∈ m.placed) (h : s.Keeps m ts a)
    (hStarted : a.started = []) :
    Ends (evaluateDeclaration x.id) s (fun _ s' => ∃ a', a.Before a' ∧ x.key ∈ a'.keys ∧
      s'.Keeps m ts a') m.Refuses := by
  -- The constants are entities of the tree.
  have hLength : m.placed.length ≤ s.tree.size := by
    have hIds := h.awaits.tree.nodup
    have hSubset : (m.placed.map (·.member a)).map ConstMember.id ⊆ List.range s.tree.size := by
      intro id hId
      obtain ⟨z, hz, rfl⟩ := List.mem_map.mp hId
      exact List.mem_range.mpr (h.awaits.tree.stands z hz).lt
    simpa using (hIds.subperm hSubset).length_le
  unfold evaluateDeclaration
  refine Ends.tree ?_
  refine ends_evaluateWithin _ hx h ?_ ?_
  · rw [hStarted]
    exact Nat.lt_succ_of_le hLength
  · rw [hStarted]
    exact nofun

theorem ends_childrenOfKinds {E : Fault → Prop} (h : s.Keeps m ts a) (kinds : List EntityKind) :
    Ends (childrenOfKinds kinds (m.placed.map PlacedConstant.id)) s (fun ids s' => s' = s ∧
      ids = if kinds.contains .const then m.placed.map PlacedConstant.id else []) E := by
  unfold childrenOfKinds
  refine Ends.tree (Ends.pure ⟨rfl, ?_⟩)
  have hKind : ∀ id ∈ m.placed.map PlacedConstant.id, (s.tree.get id).kind = .const := by
    intro id hId
    obtain ⟨y, hy, rfl⟩ := List.mem_map.mp hId
    exact (h.stands hy).kind
  split
  · rename_i hConst
    refine List.filter_eq_self.mpr fun id hId => ?_
    rw [hKind id hId]
    exact hConst
  · rename_i hConst
    refine List.filter_eq_nil_iff.mpr fun id hId => ?_
    rw [hKind id hId]
    exact hConst

/-- Constants of a module are evaluated one after the other. -/
theorem ends_forM_evaluateDeclaration {xs : List (PlacedConstant env)} (hSubset : xs ⊆ m.placed)
    (h : s.Keeps m ts a) (hStarted : a.started = []) :
    Ends ((xs.map PlacedConstant.id).forM evaluateDeclaration) s (fun _ s' => ∃ a', a.Before a' ∧
      (∀ x ∈ xs, x.key ∈ a'.keys) ∧ s'.Keeps m ts a') m.Refuses := by
  induction xs generalizing s a with
  | nil =>
    rw [List.map_nil, List.forM]
    exact Ends.pure ⟨a, .refl a, fun x hx => absurd hx List.not_mem_nil, h⟩
  | cons x xs ih =>
    rw [List.map_cons, List.forM]
    refine (ends_evaluateDeclaration (hSubset List.mem_cons_self) h hStarted).bind ?_
    rintro _ s₁ ⟨a₁, hBefore₁, hDone, h₁⟩
    refine (ih (fun y hy => hSubset (List.mem_cons_of_mem x hy)) h₁
      (hBefore₁.started.trans hStarted)).mono ?_
    rintro _ s₂ ⟨a₂, hBefore₂, hAll, h₂⟩
    refine ⟨a₂, hBefore₁.trans hBefore₂, fun y hy => ?_, h₂⟩
    rcases List.mem_cons.mp hy with rfl | hy
    · exact hBefore₂.keys hDone
    · exact hAll y hy

/-- All constants of a module are evaluated, or there is no solution. -/
theorem ends_evaluateMembers (h : s.Keeps m ts a) (hStarted : a.started = []) :
    Ends (evaluateMembers m.owner) s (fun _ s' => ∃ a', s'.Completes m ts a') m.Refuses := by
  have hChildren : (s.tree.get m.owner).children = m.placed.map PlacedConstant.id := by
    rw [h.awaits.tree.children, List.map_map]
    rfl
  unfold evaluateMembers
  refine Ends.entity ?_
  rw [hChildren]
  refine (ends_childrenOfKinds h _).bind ?_
  rintro types s₁ ⟨hSame, rfl⟩
  rw [if_neg (by decide), List.forM, pure_bind]
  subst hSame
  refine (ends_childrenOfKinds h _).bind ?_
  rintro consts s₁ ⟨hSame, rfl⟩
  rw [if_pos (by decide)]
  subst hSame
  refine (ends_forM_evaluateDeclaration (List.Subset.refl _) h hStarted).bind ?_
  rintro _ s₂ ⟨a', hBefore, hAll, h₂⟩
  refine (ends_childrenOfKinds h₂ _).bind ?_
  rintro operations s₃ ⟨hSame, rfl⟩
  rw [if_neg (by decide), List.forM, pure_bind]
  subst hSame
  refine (ends_childrenOfKinds h₂ _).bind ?_
  rintro fields s₃ ⟨hSame, rfl⟩
  rw [if_neg (by decide), List.forM]
  subst hSame
  exact Ends.pure ⟨a', h₂, hBefore.started.trans hStarted, hAll⟩

end Parsing

end IdlReader
