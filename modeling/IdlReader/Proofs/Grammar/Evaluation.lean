import IdlReader.Proofs.Grammar.Replay
import IdlReader.Proofs.Grammar.Session

/-!
# Evaluation and the tree

Evaluating expressions and declarations adds no entities and gives no names: it settles
declarations, and it can be replayed where these are done.

* `replays_evaluate`: expressions whose operands can be replayed.
* `replays_declaredValue`: the parts of declarations.
* `asks_evaluateDeclaration`: declarations; each that becomes done is justified.
* `Gives.bind`, `Gives.of_replays`: what a replayed evaluation gives, one part after the other.
-/

namespace IdlReader

open IdlReader.Tree

namespace Parsing

variable {u : Session} {R : Tree → Tree → Prop} [Refining R]

/-! ## Expressions -/

section Expressions

open Expression

theorem replays_expect (ts : Tokens) (text : String) :
    Replays R u (ts.expect text) (ts.expect text) := by
  unfold Tokens.expect
  split
  · exact Replays.pure _
  · exact Replays.failAt _ _

theorem replays_applyUnary (op : UnaryOperator) (p : Position) (a : Evaluated) :
    Replays R u (applyUnary op p a) (applyUnary op p a) := by
  cases a with
  | known c => exact (Replays.orFailAt _ _).bind fun _ => Replays.pure _
  | dynamic => exact Replays.pure _

theorem replays_applyBinary (op : BinaryOperator) (p : Position) (a b : Evaluated) :
    Replays R u (applyBinary op p a b) (applyBinary op p a b) := by
  unfold applyBinary
  split
  · exact (Replays.orFailAt _ _).bind fun _ => Replays.pure _
  · exact Replays.pure _

/-- Whether operands can be replayed if the expressions inside of them can. -/
def ReplaysOperands (R : Tree → Tree → Prop) (u : Session) (resolve resolve' : Resolver Parsing) : Prop :=
  ∀ index index', (∀ ts, Replays R u (index ts) (index' ts)) →
    ∀ ts, Replays R u (resolve index ts) (resolve' index' ts)

variable {resolve resolve' : Resolver Parsing}

theorem replays_steps (h : ReplaysOperands R u resolve resolve') (n : Nat) :
    (∀ ts, Replays R u (operand resolve n ts) (operand resolve' n ts)) ∧
      (∀ level ts, Replays R u (climb resolve n level ts) (climb resolve' n level ts)) ∧
      ∀ level lhs ts,
        Replays R u (extend resolve n level lhs ts) (extend resolve' n level lhs ts) := by
  induction n with
  | zero =>
    refine ⟨fun ts => ?_, fun level ts => ?_, fun level lhs ts => ?_⟩
    · rw [operand]
      exact Replays.fail _
    · rw [climb]
      exact Replays.fail _
    · rw [extend]
      exact Replays.fail _
  | succ n ih =>
    obtain ⟨ihOperand, ihClimb, ihExtend⟩ := ih
    refine ⟨fun ts => ?_, fun level ts => ?_, fun level lhs ts => ?_⟩
    · rw [operand, operand]
      split
      · exact Replays.failAt _ _
      · split
        · exact (ihClimb _ _).bind fun _ => (replays_expect _ _).bind fun _ => Replays.pure _
        · split
          · exact (ihClimb _ _).bind fun _ => (replays_applyUnary _ _ _).bind fun _ =>
              Replays.pure _
          · split
            · exact (Replays.orThrow _).bind fun _ => Replays.pure _
            · exact h _ _ (ihClimb lowestPrecedence) _
            · exact h _ _ (ihClimb lowestPrecedence) _
            · split
              · exact h _ _ (ihClimb lowestPrecedence) _
              · exact Replays.failAt _ _
    · rw [climb, climb]
      exact (ihOperand ts).bind fun _ => ihExtend _ _ _
    · rw [extend, extend]
      split
      · exact Replays.pure _
      · split
        · exact Replays.pure _
        · split
          · exact Replays.failAt _ _
          · split
            · exact Replays.pure _
            · exact (ihClimb _ _).bind fun _ => (replays_applyBinary _ _ _ _).bind fun _ =>
                ihExtend _ _ _

theorem replays_evaluate (h : ReplaysOperands R u resolve resolve') (tokens : List Token) :
    Replays R u (evaluate resolve tokens) (evaluate resolve' tokens) := by
  unfold evaluate
  dsimp only
  split
  · exact Replays.fail_bind _
  · refine Replays.bind ?_ ?_
    · exact ((replays_steps h _).2.1 _ _).bind fun _ => Replays.pure _
    · rintro ⟨value, rest⟩
      dsimp only
      split
      · exact Replays.pure _
      · exact Replays.failAt _ _

end Expressions

/-! ## Operands -/

theorem replays_scopedNameTail (place : Position) (n : Nat) (name : String)
    (ts : Expression.Tokens) :
    Replays R u (scopedNameTail place n name ts) (scopedNameTail place n name ts) := by
  induction n generalizing name ts with
  | zero => exact Replays.fail _
  | succ n ih =>
    unfold scopedNameTail
    dsimp only
    split
    · exact Replays.pure _
    · split
      · exact Replays.failAt _ _
      · split
        · exact ih _ _
        · exact Replays.failAtToken _ _

theorem replays_accessorTail
    {index index' : Expression.Tokens → Parsing (Evaluated × Expression.Tokens)}
    (hIndex : ∀ ts, Replays R u (index ts) (index' ts)) (place : Position) (n : Nat)
    (ts : Expression.Tokens) :
    Replays R u (accessorTail index place n ts) (accessorTail index' place n ts) := by
  induction n generalizing ts with
  | zero => exact Replays.fail _
  | succ n ih =>
    unfold accessorTail
    dsimp only
    split
    · split
      · split
        · exact (ih _).bind fun _ => Replays.pure _
        · exact Replays.failAt _ _
      · exact Replays.failAt _ _
    · split
      · exact Replays.pure _
      · refine (hIndex _).bind ?_
        rintro ⟨i, ts⟩
        refine (replays_expect _ _).bind ?_
        intro ts
        dsimp only
        split
        · exact (ih _).bind fun _ => Replays.pure _
        · exact (Replays.orFailAt _ _).bind fun _ => (ih _).bind fun _ => Replays.pure _

/-- Placing faults leaves what succeeds as it is. -/
theorem orAt_eq_ok {α : Type} {p : Position} {x : Parsing α} {s s' : Session} {a : α} :
    orAt p x s = .ok a s' ↔ x s = .ok a s' := by
  unfold orAt
  simp only [tryCatchThe, MonadExceptOf.tryCatch]
  delta EStateM.tryCatch
  cases x s with
  | ok b s₁ => exact Iff.rfl
  | error f s₁ => exact ⟨nofun, nofun⟩

section Declarations

variable {evaluate evaluate' : EntityId → Parsing Unit} (hAsks : Asks R evaluate)
  (hIdle : ∀ id, u.tree.Finished id → evaluate' id u = .ok () u)

include hAsks hIdle

theorem replays_operandValue (place : Position) (name : String) (id : EntityId)
    (accessors : List Accessor) (dynamic : Bool) :
    Replays R u (operandValue evaluate place name id accessors dynamic)
      (operandValue evaluate' place name id accessors dynamic) := by
  have hAsksAt : Asks R fun id => orAt place (evaluate id) :=
    ⟨fun id s a s' h => hAsks.1 id s a s' (orAt_eq_ok.mp h),
      fun id s a s' h => hAsks.2 id s a s' (orAt_eq_ok.mp h)⟩
  have hIdleAt : ∀ id, u.tree.Finished id → orAt place (evaluate' id) u = .ok () u :=
    fun id hFinished => orAt_eq_ok.mpr (hIdle id hFinished)
  unfold operandValue
  refine Replays.entity ?_
  intro t t' hRefines
  rw [kind_congr hRefines.outline]
  dsimp only
  split
  -- The value of a constant or an enumerator.
  case h_5 | h_6 =>
    split
    · exact Replays.pure _
    · refine Replays.asked hAsksAt hIdleAt ?_
      intro t t' hRefines hFinished
      rw [hRefines.declaration? hFinished, caseSensitive_congr hRefines.outline]
      split
      · exact Replays.pure _
      · exact Replays.failAt _ _
      · exact Replays.failAt _ _
  case h_7 => exact Replays.failAt _ _
  all_goals exact Replays.pure _

theorem replaysOperands_resolver (scope : EntityId) :
    ReplaysOperands R u (resolver evaluate scope) (resolver evaluate' scope) := by
  intro index index' hIndex ts
  unfold resolver
  dsimp only
  split
  · exact Replays.failAt _ _
  · refine (replays_scopedNameTail _ _ _ _).bind ?_
    rintro ⟨name, ts⟩
    refine (replays_accessorTail hIndex _ _ _).bind ?_
    rintro ⟨accessors, dynamic, ts⟩
    refine Replays.tree ?_
    intro t t' hRefines
    dsimp only
    rw [find_congr hRefines.outline]
    split
    · exact Replays.failAt _ _
    · exact (replays_operandValue hAsks hIdle _ _ _ _ _).bind fun _ => Replays.pure _

theorem replays_evaluateIn (scope : EntityId) (tokens : List Token) :
    Replays R u (evaluateIn evaluate scope tokens) (evaluateIn evaluate' scope tokens) :=
  replays_evaluate (replaysOperands_resolver hAsks hIdle scope) tokens

/-! ## Parts of declarations -/

theorem replays_arraySize (scope : EntityId) (dimension : List Token) :
    Replays R u (arraySize evaluate scope dimension) (arraySize evaluate' scope dimension) := by
  unfold arraySize
  split
  · exact Replays.pure _
  · refine (replays_evaluateIn hAsks hIdle _ _).bind ?_
    intro v
    split
    · exact Replays.pure _
    · refine (Replays.orFailAt _ _).bind ?_
      intro size
      dsimp only
      split
      · exact Replays.failAtToken_bind _ _
      · exact Replays.pure _

theorem replays_nextEntryValue (id scope : EntityId) :
    Replays R u (nextEntryValue evaluate id scope) (nextEntryValue evaluate' id scope) := by
  unfold nextEntryValue
  refine Replays.tree ?_
  intro t t' hRefines
  dsimp only
  rw [children_congr hRefines.outline]
  simp only [kind_congr hRefines.outline]
  split
  · exact Replays.pure _
  · refine Replays.asked_entity hAsks hIdle ?_
    intro t t' hRefines hFinished
    rw [hRefines.declaration? hFinished]
    exact (Replays.orFail _).bind fun _ => Replays.orFail _

theorem replays_entryValue (id : EntityId) (d : Declaration) (scope : EntityId) :
    Replays R u (entryValue evaluate id d scope) (entryValue evaluate' id d scope) := by
  unfold entryValue
  split
  · exact (replays_nextEntryValue hAsks hIdle _ _).bind fun _ => Replays.pure _
  · refine (replays_evaluateIn hAsks hIdle _ _).bind ?_
    intro v
    split
    · exact Replays.failAtToken _ _
    · exact (Replays.orFailAt _ _).bind fun _ => Replays.pure _

theorem replays_labelValues (union : EntityId) (switchKind : Option Kind)
    (labels : List (List Token)) :
    Replays R u (labelValues evaluate union switchKind labels)
      (labelValues evaluate' union switchKind labels) := by
  fun_induction labelValues evaluate union switchKind labels with
  | case1 => exact Replays.pure _
  | case2 labels ih =>
    rw [labelValues]
    exact ih
  | case3 first rest labels ih =>
    rw [labelValues]
    refine (replays_evaluateIn hAsks hIdle _ _).bind ?_
    intro v
    split
    · exact Replays.failAtToken _ _
    · split
      · exact (Replays.orFailAt _ _).bind fun _ => ih.bind fun _ => Replays.pure _
      · exact (Replays.pure _).bind fun _ => ih.bind fun _ => Replays.pure _

end Declarations

/-! ## Initializers -/

theorem replays_splitElements (depth : Nat) (element tokens : List Token) :
    Replays R u (splitElements depth element tokens) (splitElements depth element tokens) := by
  induction tokens generalizing depth element with
  | nil => exact Replays.pure _
  | cons t ts ih =>
    unfold splitElements
    split
    · split
      · exact Replays.failAtToken _ _
      · exact (ih _ _).bind fun _ => Replays.pure _
    · exact ih _ _

theorem replays_splitInitializer (tokens : List Token) :
    Replays R u (splitInitializer tokens) (splitInitializer tokens) := by
  unfold splitInitializer
  split
  · exact Replays.pure _
  · dsimp only
    split
    · exact replays_splitElements _ _ _
    · exact Replays.failAtToken _ _

theorem replays_textElements (type : DeclaredType) (size : Option Nat) (t : Token) :
    Replays R u (textElements type size t) (textElements type size t) := by
  unfold textElements
  refine (Replays.orThrow _).bind ?_
  intro c
  dsimp only
  split
  · exact Replays.failAtToken_bind _ _
  · refine (Replays.mapM ?_ _).bind fun _ => Replays.pure _
    exact fun d => (Replays.orFailAt _ _).bind fun _ => Replays.pure _

theorem compoundDefinition?_congr {t t' : Tree} (h : t'.outline = t.outline)
    (type : DeclaredType) : compoundDefinition? t' type = compoundDefinition? t type := by
  unfold compoundDefinition?
  simp only [resolved_congr h, kind_congr h]

section Values

variable {evaluate evaluate' : EntityId → Parsing Unit} (hAsks : Asks R evaluate)
  (hIdle : ∀ id, u.tree.Finished id → evaluate' id u = .ok () u)

include hAsks hIdle

theorem replays_scalarValue (scope : EntityId) (type : DeclaredType) (constant : Bool)
    (first : Token) (tokens : List Token) :
    Replays R u (scalarValue evaluate scope type constant first tokens)
      (scalarValue evaluate' scope type constant first tokens) := by
  unfold scalarValue
  refine (replays_evaluateIn hAsks hIdle _ _).bind ?_
  intro v
  split
  · split
    · exact Replays.failAtToken _ _
    · exact Replays.pure _
  · split
    · exact Replays.failAtToken _ _
    · exact (Replays.orFailAt _ _).bind fun _ => Replays.pure _

theorem replays_buildMembers {build build' : Builder}
    (hBuild : ∀ type sizes tokens, Replays R u (build type sizes tokens) (build' type sizes tokens))
    (members : List EntityId) (elements : List (List Token)) :
    Replays R u (buildMembers evaluate build members elements)
      (buildMembers evaluate' build' members elements) := by
  induction members generalizing elements with
  | nil => exact Replays.pure _
  | cons m ms ih =>
    unfold buildMembers
    refine Replays.asked_entity hAsks hIdle ?_
    intro t t' hRefines hFinished
    rw [hRefines.declaration? hFinished, name_congr hRefines.outline]
    split
    · exact ih _
    · split
      · exact (Replays.pure _).bind fun _ => (ih _).bind fun _ => Replays.pure _
      · exact (hBuild _ _ _).bind fun _ => (ih _).bind fun _ => Replays.pure _

theorem replays_buildValue (scope : EntityId) (constant : Bool) (n : Nat) (type : DeclaredType)
    (sizes : List (Option Nat)) (tokens : List Token) :
    Replays R u (buildValue evaluate scope constant n type sizes tokens)
      (buildValue evaluate' scope constant n type sizes tokens) := by
  induction n generalizing type sizes tokens with
  | zero => exact Replays.fail _
  | succ n ih =>
    cases tokens with
    | nil =>
      unfold buildValue
      exact Replays.pure _
    | cons first rest =>
      cases sizes with
      | nil =>
        unfold buildValue
        refine Replays.tree ?_
        intro t t' hRefines
        rw [compoundDefinition?_congr hRefines.outline]
        simp only [children_congr hRefines.outline, kind_congr hRefines.outline]
        split
        · exact replays_scalarValue hAsks hIdle _ _ _ _ _
        · refine (replays_splitInitializer _).bind ?_
          intro elements
          split
          · exact Replays.failAtToken_bind _ _
          · exact (replays_buildMembers hAsks hIdle ih _ _).bind fun _ => Replays.pure _
      | cons size inner =>
        unfold buildValue
        split
        · exact replays_textElements _ _ _
        · refine (replays_splitInitializer _).bind ?_
          intro elements
          dsimp only
          split
          · exact Replays.failAtToken_bind _ _
          · exact (Replays.mapM (fun _ => ih _ _ _) _).bind fun _ => Replays.pure _

theorem replays_declaredValue (id : EntityId) (kind : EntityKind) (d : Declaration)
    (sizes : List (Option Nat)) (scope : EntityId) :
    Replays R u (declaredValue evaluate id kind d sizes scope)
      (declaredValue evaluate' id kind d sizes scope) := by
  unfold declaredValue
  split
  · exact (replays_entryValue hAsks hIdle _ _ _).bind fun _ => Replays.pure _
  · refine Replays.tree ?_
    intro t t' hRefines
    rw [definition?_congr hRefines.outline]
    exact (replays_labelValues hAsks hIdle _ _ _).bind fun _ => Replays.pure _
  · exact (replays_buildValue hAsks hIdle _ _ _ _ _ _).bind fun _ => Replays.pure _
  · exact (replays_buildValue hAsks hIdle _ _ _ _ _ _).bind fun _ => Replays.pure _
  · exact Replays.pure _

end Values

/-! ## Declarations -/

/-- The value of a declaration depends on nothing that its evaluation gives. -/
theorem declaredValue_congr (evaluate : EntityId → Parsing Unit) (id : EntityId)
    (kind : EntityKind) {d d' : Declaration} (h : d'.outline = d.outline)
    (sizes : List (Option Nat)) (scope : EntityId) :
    declaredValue evaluate id kind d' sizes scope = declaredValue evaluate id kind d sizes scope := by
  have hParts : d'.type = d.type ∧ d'.assignment = d.assignment ∧ d'.labels = d.labels := by
    have hType := congrArg Declaration.type h
    have hAssignment := congrArg Declaration.assignment h
    have hLabels := congrArg Declaration.labels h
    exact ⟨hType, hAssignment, hLabels⟩
  unfold declaredValue entryValue
  rw [hParts.1, hParts.2.1, hParts.2.2]

/-- A declaration becomes done when its parts were evaluated, and is justified by them. -/
theorem settles_finish {t t₂ t₃ : Tree} {id : EntityId} {d : Declaration}
    {sizes : List (Option Nat)} {value : ValueNode} {caseValues : List Constant}
    (hd : (t.get id).declaration? = some d) (hPending : d.progress = .pending)
    (h₂ : Settles (t.modify id (Entity.mapDeclaration Declaration.started)) t₂)
    (h₃ : Settles t₂ t₃)
    (hSizes : ∀ u : Session, Refines t₂ u.tree →
      d.dimensions.mapM (arraySize consult ((t.get id).parent.getD root)) u = .ok sizes u)
    (hValue : ∀ u : Session, Refines t₃ u.tree →
      declaredValue consult id (t.get id).kind d sizes ((t.get id).parent.getD root) u =
        .ok (value, caseValues) u)
    {t' : Tree}
    (hLast : t' = t₃.modify id (Entity.mapDeclaration (Declaration.finished sizes value caseValues))) :
    Settles t t' ∧ t'.Finished id := by
  have hLt : id < t.size := lt_of_declaration? hd
  generalize hFirst : t.modify id (Entity.mapDeclaration Declaration.started) = t₁ at h₂
  have hOutline₁ : t₁.outline = t.outline := by
    rw [← hFirst]
    exact outline_mapDeclaration Declaration.outline_started t
  have hSettles := h₂.trans h₃
  have hOutline₃ : t₃.outline = t.outline := hSettles.outline.trans hOutline₁
  have hLt₃ : id < t₃.size := by
    rw [size_congr hOutline₃]
    exact hLt
  have hOther₁ : ∀ i, i ≠ id → t₁.get i = t.get i := by
    intro i hi
    rw [← hFirst, get_modify_of_ne hi]
  have hSelf₃ : (t₃.get id).declaration? = some d.started := by
    refine hSettles.kept id _ ?_ nofun
    rw [← hFirst, get_modify_self hLt, Entity.declaration?_mapDeclaration, hd]
    rfl
  have hOutline' : t'.outline = t₃.outline := by
    rw [hLast]
    exact outline_mapDeclaration (Declaration.outline_finished sizes value caseValues) t₃
  have hOther' : ∀ i, i ≠ id → t'.get i = t₃.get i := by
    intro i hi
    rw [hLast, get_modify_of_ne hi]
  have hSelf' : (t'.get id).declaration? = some (d.started.finished sizes value caseValues) := by
    rw [hLast, get_modify_self hLt₃, Entity.declaration?_mapDeclaration, hSelf₃]
    rfl
  have hRefines : Refines t₃ t' := by
    refine ⟨hOutline', fun i d' hd' hDone => ?_⟩
    by_cases hi : i = id
    · rw [hi, hSelf₃] at hd'
      cases hd'
      cases hDone
    · rw [hOther' i hi]
      exact hd'
  refine ⟨⟨?_, hOutline'.trans hOutline₃, ?_, ?_, ?_⟩, ?_⟩
  · have hStart : Step t t₁ := by
      rw [← hFirst]
      exact .start
    have hFinish : Step t₃ t' := by
      rw [hLast]
      exact .finish
    exact (Relation.ReflTransGen.head hStart hSettles.steps).tail hFinish
  · intro i d' hd' hNot
    by_cases hi : i = id
    · rw [hi, hd] at hd'
      cases hd'
      exact absurd hPending hNot
    · rw [hOther' i hi]
      refine hSettles.kept i d' ?_ hNot
      rw [hOther₁ i hi]
      exact hd'
  · intro i d' hd' hNot
    by_cases hi : i = id
    · rw [hi, hSelf'] at hd'
      cases hd'
      exact absurd rfl hNot
    · rw [hOther' i hi] at hd'
      rw [← hOther₁ i hi]
      exact hSettles.waiting i d' hd' hNot
  · intro i d' hd' hDone
    by_cases hi : i = id
    · -- The parts of the declaration can be replayed in what follows.
      rw [hi] at hd' ⊢
      rw [hSelf'] at hd'
      cases hd'
      refine Or.inr fun u hu => ?_
      have hOutline : t'.outline = t.outline := hOutline'.trans hOutline₃
      have hOutlined : (d.started.finished sizes value caseValues).outline = d.outline := rfl
      rw [kind_congr hOutline, parent_congr hOutline]
      refine ⟨hSizes u ((h₃.refines.trans hRefines).trans hu), ?_⟩
      rw [declaredValue_congr consult id _ hOutlined]
      exact hValue u (hRefines.trans hu)
    · rw [hOther' i hi] at hd'
      rcases hSettles.settled i d' hd' hDone with hOld | hNew
      · rw [hOther₁ i hi] at hOld
        exact Or.inl hOld
      · exact Or.inr (hNew.refines hRefines)
  · intro d' hd'
    rw [hSelf'] at hd'
    cases hd'
    rfl

theorem asks_evaluateWithin (n : Nat) : Asks Settles (evaluateWithin n) := by
  suffices h : ∀ id s a s', evaluateWithin n id s = .ok a s' →
      s' = { s with tree := s'.tree } ∧ Settles s.tree s'.tree ∧ s'.tree.Finished id from
    ⟨fun id s a s' hRun => ⟨(h id s a s' hRun).1, (h id s a s' hRun).2.1⟩,
      fun id s a s' hRun => (h id s a s' hRun).2.2⟩
  induction n with
  | zero =>
    intro id s a s' h
    cases h
  | succ n ih =>
    intro id s a s' h
    have hAsks : Asks Settles (evaluateWithin n) :=
      ⟨fun id s a s' hRun => ⟨(ih id s a s' hRun).1, (ih id s a s' hRun).2.1⟩,
        fun id s a s' hRun => (ih id s a s' hRun).2.2⟩
    have hIdle : ∀ u : Session, ∀ id, u.tree.Finished id → consult id u = .ok () u :=
      fun u id hFinished => consult_finished hFinished
    unfold evaluateWithin at h
    rw [entity_bind] at h
    cases hd : (s.tree.get id).declaration? with
    | none =>
      rw [hd] at h
      cases h
      exact ⟨rfl, Settles.refl _, fun d hSome => by rw [hd] at hSome; cases hSome⟩
    | some d =>
      rw [hd] at h
      dsimp only at h
      cases hProgress : d.progress with
      | done =>
        rw [hProgress] at h
        cases h
        refine ⟨rfl, Settles.refl _, fun d' hSome => ?_⟩
        rw [hd] at hSome
        cases hSome
        exact hProgress
      | processing =>
        rw [hProgress] at h
        cases h
      | pending =>
        rw [hProgress] at h
        dsimp only at h
        obtain ⟨_, s₁, hStart, hParts⟩ := bind_eq_ok.mp h
        obtain ⟨sizes, s₂, hSizes, hBehind⟩ := bind_eq_ok.mp hParts
        obtain ⟨⟨value, caseValues⟩, s₃, hValue, hEnd⟩ := bind_eq_ok.mp hBehind
        cases hStart
        cases hEnd
        have hReplaySizes (u : Session) := Replays.mapM
          (replays_arraySize hAsks (hIdle u) ((s.tree.get id).parent.getD root)) d.dimensions
          _ _ _ hSizes
        have hReplayValue (u : Session) := replays_declaredValue hAsks (hIdle u) id
          (s.tree.get id).kind d sizes ((s.tree.get id).parent.getD root) _ _ _ hValue
        refine ⟨?_, settles_finish hd hProgress (hReplaySizes s).2.1 (hReplayValue s).2.1
          (fun u => (hReplaySizes u).2.2) (fun u => (hReplayValue u).2.2) rfl⟩
        rw [(hReplayValue s).1, (hReplaySizes s).1]

/-- An evaluation settles declarations, its own one included. -/
theorem asks_evaluateDeclaration : Asks Settles evaluateDeclaration :=
  ⟨fun id s a s' h => (asks_evaluateWithin _).1 id s a s' h,
    fun id s a s' h => (asks_evaluateWithin _).2 id s a s' h⟩

end Parsing

/-! ## Results of replayed evaluations

A replayed evaluation changes nothing, so that what it gives can be described part by part, all in
one session. -/

namespace Parsing

variable {α β : Type} {u : Session}

/-- A session with a tree and nothing to read. -/
def sessionOf (t : Tree) : Session := { env := {}, tree := t, stream := Stream.empty }

/-- Whether an action, if it succeeds in the session `u`, leaves it as it is and gives what has a
property. -/
def Gives (u : Session) (x : Parsing α) (P : α → Prop) : Prop :=
  ∀ a u', x u = .ok a u' → u' = u ∧ P a

namespace Gives

theorem pure {P : α → Prop} {a : α} (h : P a) : Gives u (pure a) P := by
  intro b u' hRun
  cases hRun
  exact ⟨rfl, h⟩

theorem throw (f : Fault) {P : α → Prop} : Gives u (throwThe Fault f) P := by
  intro a u' hRun
  cases hRun

theorem fail (cause : Cause) {P : α → Prop} : Gives u (IdlReader.fail cause) P := throw _

theorem failAt (cause : Cause) (p : Position) {P : α → Prop} :
    Gives u (IdlReader.failAt cause p) P := throw _

theorem failAtToken (cause : Cause) (t : Token) {P : α → Prop} :
    Gives u (Parsing.failAtToken cause t) P := throw _

theorem bind {x : Parsing α} {f : α → Parsing β} {P : α → Prop} {Q : β → Prop}
    (hx : Gives u x P) (hf : ∀ a, P a → Gives u (f a) Q) : Gives u (x >>= f) Q := by
  intro b u' hRun
  obtain ⟨a, u₁, ha, hb⟩ := bind_eq_ok.mp hRun
  obtain ⟨rfl, hP⟩ := hx a u₁ ha
  exact hf a hP b u' hb

theorem failAtToken_bind (cause : Cause) (t : Token) {f : α → Parsing β} {P : β → Prop} :
    Gives u (Parsing.failAtToken cause t >>= f) P :=
  (failAtToken (P := fun _ => False) cause t).bind fun _ hFalse => hFalse.elim

theorem mono {x : Parsing α} {P Q : α → Prop} (h : Gives u x P) (hPQ : ∀ a, P a → Q a) :
    Gives u x Q := fun a u' hRun => ⟨(h a u' hRun).1, hPQ a (h a u' hRun).2⟩

theorem tree {f : Tree → Parsing β} {P : β → Prop} (h : Gives u (f u.tree) P) :
    Gives u (tree >>= f) P := h

theorem entity {f : Entity → Parsing β} {id : EntityId} {P : β → Prop}
    (h : Gives u (f (u.tree.get id)) P) : Gives u (entity id >>= f) P := h

theorem orFail (x : Except Cause α) : Gives u (orFail x) fun a => x = .ok a := by
  cases x with
  | ok a => exact pure rfl
  | error cause => exact fail cause

theorem orThrow (x : Except Fault α) : Gives u (Expression.orThrow x) fun a => x = .ok a := by
  cases x with
  | ok a => exact pure rfl
  | error f => exact throw f

theorem orFailAt (p : Position) (x : Except Cause α) :
    Gives u (Expression.orFailAt p x) fun a => x = .ok a := by
  cases x with
  | ok a => exact pure rfl
  | error cause => exact failAt cause p

theorem mapM {f : α → Parsing β} {P : α → β → Prop} {l : List α}
    (h : ∀ a ∈ l, Gives u (f a) (P a)) :
    Gives u (l.mapM f) fun bs => bs.length = l.length ∧ ∀ b ∈ bs, ∃ a ∈ l, P a b := by
  induction l with
  | nil => exact pure ⟨rfl, nofun⟩
  | cons a l ih =>
    rw [List.mapM_cons]
    refine (h a List.mem_cons_self).bind fun b hb => ?_
    refine (ih fun c hc => h c (List.mem_cons_of_mem a hc)).bind ?_
    rintro bs ⟨hLength, hEach⟩
    refine pure ⟨congrArg (· + 1) hLength, fun c hc => ?_⟩
    rcases List.mem_cons.mp hc with rfl | hc
    · exact ⟨a, List.mem_cons_self, hb⟩
    · obtain ⟨a', ha', hP⟩ := hEach c hc
      exact ⟨a', List.mem_cons_of_mem a ha', hP⟩

theorem consult (id : EntityId) : Gives u (consult id) fun _ => u.tree.Finished id :=
  fun _ _ hRun => consult_eq_ok hRun

/-- What is replayed without a change of the tree changes nothing. -/
theorem of_replays {x y : Parsing α} (h : Replays Eq u x y) : Gives u x fun _ => True := by
  intro a u' hRun
  obtain ⟨hSession, hTree, -⟩ := h u a u' hRun
  refine ⟨?_, trivial⟩
  rw [hSession, ← hTree]

end Gives

theorem consult_idle (id : EntityId) (h : u.tree.Finished id) : consult id u = .ok () u :=
  consult_finished h

theorem gives_evaluateIn (scope : EntityId) (tokens : List Token) :
    Gives u (evaluateIn consult scope tokens) fun _ => True :=
  .of_replays (replays_evaluateIn asks_consult consult_idle scope tokens)

end Parsing

end IdlReader
