import IdlReader.Proofs.Constant.Cast
import IdlReader.Proofs.Expression.Grammar
import IdlReader.Proofs.Stage.Conformance

/-!
# Parts of declarations

What a declaration holds is computed from what its tokens give in the stage in which it is
evaluated (`Stage.Yields`): the sizes of an array, the value of an entry of an enumeration and the
values of the labels of a case.

* `Evaluated.measures`: each size is the number that is written, and never zero. A negative number
  becomes the unsigned one that is congruent.
* `Evaluated.assigned`, `Evaluated.follows`: the values of entries with and without an assignment.
* `Evaluated.labelled`: the values of labels.
* `fails_arraySize`: a size that is zero.
-/

namespace IdlReader

open IdlReader.Tree IdlReader.Parsing

namespace Constant

open IntegerKind

/-! ## Casts -/

/-- Only integers are cast to integers. -/
theorem integer_of_cast {a b : Constant} {t : IntegerKind} (h : a.cast (.integer t) = .ok b) :
    ∃ k v, ∃ hv : k.Holds v, a = .integer k v hv := by
  cases a with
  | integer k v hv => exact ⟨k, v, hv, rfl⟩
  | real k x => cases h
  | text k s => cases h

/-- A cast to a signed kind changes no integer. -/
theorem integer?_cast {a b : Constant} {t : IntegerKind} (hSigned : t.isSigned = true)
    (h : a.cast (.integer t) = .ok b) : b.integer? = a.integer? := by
  obtain ⟨k, v, hv, rfl⟩ := integer_of_cast h
  have hBool : t ≠ .bool := by
    rintro rfl
    cases hSigned
  obtain ⟨hFits, hRefused⟩ := cast_integer hv hBool
  by_cases hCast : FitsCast k t v
  · rw [hFits hCast] at h
    cases h
    rcases hCast with hHolds | ⟨-, hUnsigned, -⟩
    · exact congrArg some (wrap_of_holds hHolds)
    · rw [hSigned] at hUnsigned
      cases hUnsigned
  · obtain ⟨cause, hCause⟩ := hRefused hCast
    rw [hCause] at h
    cases h

/-- The residue of an integer for the unsigned kind of 64 bits. -/
theorem wrap_uint64 {v : Int} (hLeast : -2 ^ 63 ≤ v) (hGreatest : v < 2 ^ 64) :
    IntegerKind.uint64.wrap v = if v < 0 then v + 2 ^ 64 else v := by
  change v % 2 ^ 64 = _
  split <;> omega

theorem range_of_holds {k : IntegerKind} {v : Int} (h : k.Holds v) : -2 ^ 63 ≤ v ∧ v < 2 ^ 64 := by
  have hLeast : -2 ^ 63 ≤ k.least := by cases k <;> decide
  have hGreatest : k.greatest < 2 ^ 64 := by cases k <;> decide
  exact ⟨hLeast.trans h.1, h.2.trans_lt hGreatest⟩

/-- What a constant becomes as an unsigned integer of 64 bits. -/
theorem castInt_uint64 {a : Constant} {n : Int} (h : a.castInt .uint64 = .ok n) :
    ∃ v, a.integer? = some v ∧ -2 ^ 63 ≤ v ∧ v < 2 ^ 64 ∧ n = if v < 0 then v + 2 ^ 64 else v := by
  unfold castInt at h
  obtain ⟨b, hCast, h⟩ := bind_eq_ok.mp h
  obtain ⟨k, v, hv, rfl⟩ := integer_of_cast hCast
  obtain ⟨hLeast, hGreatest⟩ := range_of_holds hv
  refine ⟨v, rfl, hLeast, hGreatest, ?_⟩
  obtain ⟨hFits, hRefused⟩ := cast_integer hv (t := .uint64) (by decide)
  by_cases hFitsCast : FitsCast k .uint64 v
  · rw [hFits hFitsCast] at hCast
    cases hCast
    cases h
    exact wrap_uint64 hLeast hGreatest
  · obtain ⟨cause, hCause⟩ := hRefused hFitsCast
    rw [hCause] at hCast
    cases hCast

/-- An integer of 32 bits and one, as an integer of 32 bits. -/
theorem next_int32 {v : Int} (hv : IntegerKind.int32.Holds v) :
    binary .add (.integer .int32 v hv) (ofInt .int32 1) = .ok (ofInt .int32 (v + 1)) := by
  have hOne : IntegerKind.int32.Holds 1 := by decide
  change binary .add (.integer .int32 v hv) (.integer .int32 1 hOne) = _
  rw [binary_integer hv hOne (by decide) (by decide), if_neg (by decide), if_neg (by decide)]
  change binaryInteger .add .int32 (IntegerKind.int32.wrap v) (IntegerKind.int32.wrap 1) = _
  rw [wrap_of_holds hv, wrap_of_holds hOne]
  rfl

theorem wrap_int32_succ {v : Int} (hv : IntegerKind.int32.Holds v) :
    IntegerKind.int32.wrap (v + 1) = if v = 2 ^ 31 - 1 then -2 ^ 31 else v + 1 := by
  split
  · rename_i hGreatest
    rw [hGreatest]
    rfl
  · rename_i hNot
    have hLeast : -2 ^ 31 ≤ v := hv.1
    have hGreatest : v ≤ 2 ^ 31 - 1 := hv.2
    refine wrap_of_holds ⟨?_, ?_⟩
    · change -2 ^ 31 ≤ v + 1
      omega
    · change v + 1 ≤ 2 ^ 31 - 1
      omega

end Constant

/-- No member of an entity is a directive. -/
theorem Tree.Reachable.directive_of_mem_children {t : Tree} (h : t.Reachable) {p c : EntityId}
    (hc : c ∈ (t.get p).children) : (t.get c).kind ≠ .directive := by
  obtain ⟨caseSensitive, hSteps⟩ := h
  obtain ⟨l, hl, -, hJoining⟩ := hSteps.children ⟨caseSensitive, .refl⟩ p
  have hNone : ((initial caseSensitive).get p).children = [] := by
    by_cases hp : p < (initial caseSensitive).size
    · rw [Nat.lt_one_iff.mp hp]
      rfl
    · exact children_of_le hp
  rw [hl, hNone, List.nil_append] at hc
  exact (hJoining c hc).directive

namespace Stage

open IdlReader.Constant

variable {σ : Stage} {t : Tree} {c p : EntityId} {d : Declaration} {tokens : List Token}

/-! ## What tokens give -/

/-- What the tokens of a declaration give in a stage, in whatever session nothing was evaluated
otherwise than there. -/
def Yields (σ : Stage) (c : EntityId) (tokens : List Token) (r : IdlReader.Evaluated) : Prop :=
  ∀ u : Session, Refines σ.tree u.tree →
    evaluateIn consult ((σ.tree.get c).parent.getD root) tokens u = .ok r u

theorem yields_of_run {u u' : Session} {r : IdlReader.Evaluated} (hu : u.tree = σ.tree)
    (h : evaluateIn consult ((σ.tree.get c).parent.getD root) tokens u = .ok r u') :
    σ.Yields c tokens r := by
  intro v hv
  obtain ⟨-, hTree, hReplay⟩ :=
    replays_evaluateIn asks_consult (fun id => consult_idle id) _ tokens u r u' h
  refine hReplay ?_
  rw [← hTree, hu]
  exact hv

theorem Yields.unique {r r' : IdlReader.Evaluated} (h : σ.Yields c tokens r)
    (h' : σ.Yields c tokens r') : r = r' := by
  have hRun := h (sessionOf σ.tree) (Refines.refl _)
  rw [h' (sessionOf σ.tree) (Refines.refl _)] at hRun
  exact (EStateM.Result.ok.inj hRun).1.symm

theorem applyUnary_of_ok {op : UnaryOperator} {q : Position} {v r : IdlReader.Evaluated}
    (h : Expression.applyUnary op q v = (.ok r : Except Fault _)) (u : Session) :
    (Expression.applyUnary op q v : Parsing _) u = .ok r u := by
  cases v with
  | dynamic =>
    cases h
    rfl
  | known a =>
    unfold Expression.applyUnary at h ⊢
    dsimp only at h ⊢
    cases hUnary : Constant.unary op a with
    | error cause =>
      rw [hUnary] at h
      cases h
    | ok b =>
      rw [hUnary] at h
      cases h
      rfl

theorem applyBinary_of_ok {op : BinaryOperator} {q : Position} {v w r : IdlReader.Evaluated}
    (h : Expression.applyBinary op q v w = (.ok r : Except Fault _)) (u : Session) :
    (Expression.applyBinary op q v w : Parsing _) u = .ok r u := by
  unfold Expression.applyBinary at h ⊢
  split at h
  · rename_i a b
    cases hBinary : Constant.binary op a b with
    | error cause =>
      rw [hBinary] at h
      cases h
    | ok c =>
      rw [hBinary] at h
      cases h
      rfl
  · cases h
    rfl

/-- An expression without names has its outcome in every session. -/
theorem outcome_of_value {e : Expression.Tree} (hClosed : e.operands = [])
    {f : Token → Except Fault IdlReader.Evaluated} {g : Token → Parsing IdlReader.Evaluated}
    {r : IdlReader.Evaluated} (h : e.value f = .ok r) (u : Session) : e.outcome g u = .ok r u := by
  induction e generalizing r with
  | literal t =>
    rw [Expression.Tree.value] at h
    rw [Expression.Tree.outcome]
    cases hLiteral : Constant.ofLiteral t with
    | error fault =>
      rw [hLiteral] at h
      cases h
    | ok a =>
      rw [hLiteral] at h
      cases h
      rfl
  | operand t => cases hClosed
  | unary op q e ih =>
    rw [Expression.value_unary] at h
    obtain ⟨v, hv, hApply⟩ := IdlReader.bind_eq_ok.mp h
    rw [Expression.Tree.outcome, bind_of_ok (ih hClosed hv)]
    exact applyUnary_of_ok hApply u
  | binary op q l m ihLeft ihRight =>
    obtain ⟨hLeft, hRight⟩ := List.append_eq_nil_iff.mp hClosed
    rw [Expression.value_binary] at h
    obtain ⟨v, hv, hRest⟩ := IdlReader.bind_eq_ok.mp h
    obtain ⟨w, hw, hApply⟩ := IdlReader.bind_eq_ok.mp hRest
    rw [Expression.Tree.outcome, bind_of_ok (ihLeft hLeft hv), bind_of_ok (ihRight hRight hw)]
    exact applyBinary_of_ok hApply u

/-- What an expression without names gives is its value. -/
theorem yields_of_writes {e : Expression.Tree}
    (hWrites : Expression.Renders e tokens) (hClosed : e.operands = [])
    {f : Token → Except Fault IdlReader.Evaluated} {r : IdlReader.Evaluated}
    (h : e.value f = .ok r) : σ.Yields c tokens r := by
  intro u _
  unfold evaluateIn
  rw [Expression.evaluate_writes (f := fun t => failAtToken .operandMissing t) hWrites ?_]
  · exact outcome_of_value hClosed h u
  · rw [hClosed]
    exact nofun

/-! ## Array sizes -/

/-- Whether an array that a declaration writes has a size in a dimension. -/
inductive Measures (σ : Stage) (c : EntityId) : List Token → Option Nat → Prop where
  | unbound : Measures σ c [] none
  /-- The size is known at run time only. -/
  | dynamic {tokens : List Token} (h : σ.Yields c tokens .dynamic) : Measures σ c tokens none
  | positive {tokens : List Token} {a : Constant} {n : Nat} (h : σ.Yields c tokens (.known a))
      (hValue : a.integer? = some (n : Int)) (hPositive : 0 < n) : Measures σ c tokens (some n)
  /-- A negative number becomes the unsigned one that is congruent. -/
  | negative {tokens : List Token} {a : Constant} {n : Nat} (h : σ.Yields c tokens (.known a))
      (hValue : a.integer? = some (-n : Int)) (hPositive : 0 < n) (hLe : n ≤ 2 ^ 63) :
      Measures σ c tokens (some (2 ^ 64 - n))

theorem measures_of_arraySize {u u' : Session} {size : Option Nat} (hu : u.tree = σ.tree)
    (h : arraySize consult ((σ.tree.get c).parent.getD root) tokens u = .ok size u') :
    σ.Measures c tokens size := by
  unfold arraySize at h
  split at h
  · cases h
    exact .unbound
  · rename_i first rest
    obtain ⟨r, u₁, hRun, h⟩ := Parsing.bind_eq_ok.mp h
    have hYields := yields_of_run hu hRun
    cases r with
    | dynamic =>
      cases h
      exact .dynamic hYields
    | known a =>
      obtain ⟨n, u₂, hCast, h⟩ := Parsing.bind_eq_ok.mp h
      obtain ⟨-, hCast⟩ := Gives.orFailAt _ _ _ _ hCast
      obtain ⟨v, hValue, hLeast, hGreatest, hn⟩ := castInt_uint64 hCast
      dsimp only at h
      split at h
      · cases h
      · rename_i hZero
        cases h
        split at hn
        · have hNat : n.toNat = 2 ^ 64 - v.natAbs := by omega
          rw [hNat]
          refine .negative hYields (hValue.trans (congrArg some ?_)) (by omega) (by omega)
          omega
        · have hNat : n.toNat = v.toNat := by omega
          rw [hNat]
          refine .positive hYields (hValue.trans (congrArg some ?_)) (by omega)
          omega

/-- Each dimension has the size that its tokens write. -/
theorem Evaluated.measures (h : Evaluated t c σ) (hd : (t.get c).declaration? = some d) :
    List.Forall₂ (σ.Measures c) d.dimensions d.sizes := by
  have hIdle : ∀ dimension, Gives (sessionOf σ.tree)
      (arraySize consult ((σ.tree.get c).parent.getD root) dimension) fun _ => True :=
    fun dimension => .of_replays
      (replays_arraySize asks_consult (fun id => consult_idle id) _ dimension)
  have hRun := (h.justified hd (sessionOf σ.tree) (Refines.refl σ.tree)).1
  generalize d.dimensions = dimensions at hRun
  generalize d.sizes = sizes at hRun
  induction dimensions generalizing sizes with
  | nil =>
    cases hRun
    exact .nil
  | cons dimension dimensions ih =>
    rw [List.mapM_cons] at hRun
    obtain ⟨size, u₁, hSize, hRun⟩ := Parsing.bind_eq_ok.mp hRun
    obtain ⟨rfl, -⟩ := hIdle dimension size u₁ hSize
    obtain ⟨sizes', u₂, hSizes, hRun⟩ := Parsing.bind_eq_ok.mp hRun
    cases hRun
    exact .cons (measures_of_arraySize rfl hSize) (ih _ hSizes)

/-- A size of zero is a fault at the first token of the dimension. -/
theorem fails_arraySize {evaluate : EntityId → Parsing Unit} {scope : EntityId} {first : Token}
    {rest : List Token} {a : Constant} {u u' : Session}
    (hRun : evaluateIn evaluate scope (first :: rest) u = .ok (.known a) u')
    (hZero : a.integer? = some 0) :
    arraySize evaluate scope (first :: rest) u =
      .error ((Fault.of .arraySizeZero).placed first.position) u' := by
  have hCast : a.castInt .uint64 = .ok 0 := by
    cases a with
    | integer k v hv =>
      cases hZero
      cases k <;> rfl
    | real k x => cases hZero
    | text k s => cases hZero
  unfold arraySize
  dsimp only
  rw [bind_of_ok hRun]
  dsimp only
  rw [hCast]
  rfl

/-! ## Entries of enumerations -/

/-- The stages of a document in which a declaration was evaluated. -/
theorem Evaluated.advances (h : Evaluated t c σ) :
    ∃ caseSensitive, Advances (start caseSensitive) ⟨t, [], false⟩ := by
  obtain ⟨caseSensitive, σ₀, hBefore, hStep, -⟩ := h.before
  exact ⟨caseSensitive, (hBefore.tail hStep).trans h.after⟩

/-- Declarations that are no parameters are members of what they stand in. -/
theorem Sound.mem_children (h : σ.Sound) (hParent : (σ.tree.get c).parent = some p)
    (hKind : (σ.tree.get c).kind.isDeclaration = true)
    (hNot : (σ.tree.get c).kind ≠ .parameter) : c ∈ (σ.tree.get p).children := by
  have hFramed := (wellFormed_of_reachable h.reachable).toFramed
  have hLt := lt_size_of_parent hParent
  have hFull : (σ.tree.get c).forward = false := by
    refine Bool.eq_false_iff.mpr fun hForward => ?_
    rw [EntityKind.not_isDeclaration_of_isDefinition (hFramed.forward c hLt hForward)] at hKind
    cases hKind
  have hDirective : (σ.tree.get c).kind ≠ .directive := by
    intro hDirective
    rw [hDirective] at hKind
    cases hKind
  exact h.reachable.listed
    ⟨⟨hLt, h.calm c (hFramed.ne_root_of_parent hParent) hLt⟩, hFull, hNot, hDirective⟩ hParent

/-- What stands before a declaration was read before it is evaluated. -/
theorem Evaluated.takeWhile_children (h : Evaluated t c σ) (hParent : (t.get c).parent = some p)
    (hNot : (t.get c).kind ≠ .parameter) :
    (σ.tree.get p).children.takeWhile (· ≠ c) = (t.get p).children.takeWhile (· ≠ c) := by
  obtain ⟨l, hl, -⟩ := h.steps.children h.sound.reachable p
  obtain ⟨d, hd, -⟩ := h.exists_declaration
  have hDeclaration : (σ.tree.get c).kind.isDeclaration = true := by
    rw [← h.sound.reachable.isDeclaration h.lt, hd]
    rfl
  have hMember := h.sound.mem_children (h.parent.symm.trans hParent) hDeclaration (h.kind ▸ hNot)
  rw [hl]
  generalize (σ.tree.get p).children = children at hMember
  induction children with
  | nil => cases hMember
  | cons b children ih =>
    rw [List.cons_append, List.takeWhile_cons, List.takeWhile_cons]
    split
    · rename_i hNe
      refine congrArg (b :: ·) (ih ((List.mem_cons.mp hMember).resolve_left fun hEq => ?_))
      exact of_decide_eq_true hNe hEq.symm
    · rfl

/-- The members of an enumeration are its entries. -/
theorem Sound.kind_entry (h : σ.Sound) (hEnum : (σ.tree.get p).kind = .enum)
    (hc : c ∈ (σ.tree.get p).children) : (σ.tree.get c).kind = .enumEntry :=
  (h.belongs c p (h.reachable.parent_of_mem_children hc).2.1
    (h.reachable.directive_of_mem_children hc)).entry.mpr hEnum

/-- An entry with an assignment has the value that is written. -/
theorem Evaluated.assigned (h : Evaluated t c σ) (hd : (t.get c).declaration? = some d)
    (hKind : (t.get c).kind = .enumEntry) (hAssigned : d.assignment ≠ []) :
    ∃ w b, σ.Yields c d.assignment (.known w) ∧ d.value = .ofConstant b ∧
      w.cast (.integer .int32) = .ok b ∧ b.integer? = w.integer? := by
  suffices hBefore : ∃ w b, σ.Yields c d.assignment (.known w) ∧ d.value = .ofConstant b ∧
      w.cast (.integer .int32) = .ok b by
    obtain ⟨w, b, hYields, hValue, hCast⟩ := hBefore
    exact ⟨w, b, hYields, hValue, hCast, integer?_cast rfl hCast⟩
  refine h.value hd (P := fun r => ∃ w b, σ.Yields c d.assignment (.known w) ∧
    r.1 = .ofConstant b ∧ w.cast (.integer .int32) = .ok b) ?_
  unfold declaredValue
  rw [hKind, h.parent]
  refine Gives.bind (P := fun v => ∃ w b, σ.Yields c d.assignment (.known w) ∧
    v = .ofConstant b ∧ w.cast (.integer .int32) = .ok b) ?_ fun v hv => .pure hv
  cases hAssignment : d.assignment with
  | nil => exact absurd hAssignment hAssigned
  | cons first rest =>
    unfold entryValue
    rw [hAssignment]
    dsimp only
    intro v u' hRun
    obtain ⟨r, u₁, hEvaluate, hRun⟩ := Parsing.bind_eq_ok.mp hRun
    have hYields := yields_of_run rfl hEvaluate
    obtain ⟨rfl, -⟩ := gives_evaluateIn _ _ r u₁ hEvaluate
    cases r with
    | dynamic => cases hRun
    | known w =>
      obtain ⟨b, u₂, hCast, hRun⟩ := Parsing.bind_eq_ok.mp hRun
      obtain ⟨rfl, hb⟩ := Gives.orFailAt _ _ _ _ hCast
      cases hRun
      exact ⟨rfl, w, b, hYields, rfl, hb⟩

/-- What comes behind an entry of an enumeration, and what comes first. -/
def Follows (t : Tree) (v : ValueNode) : Option EntityId → Prop
  | none => v = .ofConstant (ofInt .int32 0)
  | some b => ∃ e w, ∃ hw : IntegerKind.int32.Holds w, (t.get b).declaration? = some e ∧
      e.value = .ofConstant (.integer .int32 w hw) ∧ v = .ofConstant (ofInt .int32 (w + 1))

/-- An entry without an assignment is zero, or follows the entry before it. -/
theorem Evaluated.follows (h : Evaluated t c σ) (hd : (t.get c).declaration? = some d)
    (hKind : (t.get c).kind = .enumEntry) (hNone : d.assignment = [])
    (hParent : (t.get c).parent = some p) :
    Follows t d.value ((t.get p).children.takeWhile (· ≠ c)).getLast? := by
  have hHere := h.parent.symm.trans hParent
  have hEnum : (σ.tree.get p).kind = .enum := by
    have hEntry := h.kind.symm.trans hKind
    exact (h.sound.belongs c p hHere (hEntry ▸ by decide)).entry.mp hEntry
  have hBefore : ((σ.tree.get p).children.takeWhile (· ≠ c)).filter
      (fun b => decide ((σ.tree.get b).kind = .enumEntry)) =
        (t.get p).children.takeWhile (· ≠ c) := by
    rw [← h.takeWhile_children hParent (hKind ▸ by decide), List.filter_eq_self]
    intro b hb
    exact decide_eq_true (h.sound.kind_entry hEnum (List.takeWhile_subset _ hb))
  refine h.value hd
    (P := fun r => Follows t r.1 ((t.get p).children.takeWhile (· ≠ c)).getLast?) ?_
  unfold declaredValue
  rw [hKind, hParent]
  refine Gives.bind
    (P := fun v => Follows t v ((t.get p).children.takeWhile (· ≠ c)).getLast?) ?_
    fun v hv => .pure hv
  unfold entryValue
  rw [hNone]
  refine Gives.bind (P := fun a =>
    Follows t (.ofConstant a) ((t.get p).children.takeWhile (· ≠ c)).getLast?) ?_
    fun a ha => .pure ha
  unfold nextEntryValue
  refine Gives.tree ?_
  change Gives _ (match (((σ.tree.get p).children.takeWhile (· ≠ c)).filter
    (fun b => decide ((σ.tree.get b).kind = .enumEntry))).getLast? with | none => _ | some _ => _) _
  rw [hBefore]
  cases hLast : ((t.get p).children.takeWhile (· ≠ c)).getLast? with
  | none => exact .pure rfl
  | some b =>
    have hMember : b ∈ (σ.tree.get p).children := by
      rw [← h.takeWhile_children hParent (hKind ▸ by decide)] at hLast
      exact List.takeWhile_subset _ (List.mem_of_getLast? hLast)
    have hbEntry := h.sound.kind_entry hEnum hMember
    have hbLt := (h.sound.reachable.parent_of_mem_children hMember).1.1
    have hSome := h.sound.reachable.isDeclaration hbLt
    rw [hbEntry] at hSome
    obtain ⟨e, he⟩ := Option.isSome_iff_exists.mp hSome
    refine (Gives.consult b).bind fun _ hFinished => Gives.entity ?_
    have hFinal : (t.get b).declaration? = some e := h.after.kept he (hFinished e he)
    have hbKind : (t.get b).kind = .enumEntry :=
      ((h.steps.extends h.sound.reachable.size_pos).kind b hbLt).trans hbEntry
    obtain ⟨_, hAdvances⟩ := h.advances
    obtain ⟨σ', hEvaluated⟩ := exists_evaluated hAdvances (c := b) (hFinal ▸ rfl)
    obtain ⟨a, ha, haKind⟩ := hEvaluated.entry hFinal hbKind
    obtain ⟨w, hw, rfl⟩ : ∃ w, ∃ hw : IntegerKind.int32.Holds w, a = .integer .int32 w hw := by
      cases a with
      | integer k w hw =>
        cases haKind
        exact ⟨w, hw, rfl⟩
      | real k x => cases haKind
      | text k s => cases haKind
    have hHeld : (((sessionOf σ.tree).tree.get b).declaration?.bind
        fun d => d.value.constant?).getD absent = .integer .int32 w hw := by
      change (((σ.tree.get b).declaration?.bind fun d => d.value.constant?).getD absent) = _
      rw [he, Option.bind_some, ha]
      rfl
    dsimp only
    rw [hHeld, next_int32 hw]
    refine (Gives.pure (P := fun sum => sum = ofInt .int32 (w + 1)) rfl).bind ?_
    rintro _ rfl
    exact .pure ⟨e, w, hw, hFinal, ha, rfl⟩

/-! ## Labels of cases -/

/-- Whether a constant is the value of a label of a case, as one of the kind of the
discriminator. -/
def Labels (σ : Stage) (c : EntityId) (k : Kind) (label : List Token) (b : Constant) : Prop :=
  ∃ w, σ.Yields c label (.known w) ∧ w.cast k = .ok b

theorem labels_of_labelValues {u u' : Session} {k : Kind} {labels : List (List Token)}
    {bs : List Constant} (hu : u.tree = σ.tree)
    (h : labelValues consult ((σ.tree.get c).parent.getD root) (some k) labels u = .ok bs u') :
    List.Forall₂ (σ.Labels c k) (labels.filter fun label => !label.isEmpty) bs := by
  induction labels generalizing bs u' with
  | nil =>
    cases h
    exact .nil
  | cons label labels ih =>
    cases label with
    | nil => exact ih h
    | cons first rest =>
      rw [labelValues] at h
      obtain ⟨r, u₁, hRun, hResult⟩ := Parsing.bind_eq_ok.mp h
      have hYields := yields_of_run hu hRun
      obtain ⟨rfl, -⟩ := gives_evaluateIn _ _ r u₁ hRun
      cases r with
      | dynamic => cases hResult
      | known w =>
        obtain ⟨b, u₂, hCast, hMore⟩ := Parsing.bind_eq_ok.mp hResult
        obtain ⟨rfl, hb⟩ := Gives.orFailAt _ _ _ _ hCast
        obtain ⟨bs', u₃, hRest, hPure⟩ := Parsing.bind_eq_ok.mp hMore
        cases hPure
        exact .cons ⟨w, hYields, hb⟩ (ih hRest)

/-- The values of the labels of a case are those that are written, as integers of the kind of the
discriminator. -/
theorem Evaluated.labelled (h : Evaluated t c σ) (hd : (t.get c).declaration? = some d)
    (hKind : (t.get c).kind = .caseEntry) (hParent : (t.get c).parent = some p) :
    ∃ u type k, (t.get p).definition? = some u ∧ u.switchType = some type ∧
      type.kind? = some (.integer k) ∧
      List.Forall₂ (σ.Labels c (.integer k)) (d.labels.filter fun label => !label.isEmpty)
        d.caseValues := by
  have hHere := h.parent.symm.trans hParent
  obtain ⟨u, type, k, hu, hType, hSwitch⟩ := h.sound.cases c p hHere (h.kind.symm.trans hKind)
  have hpLt := (wellFormed_of_reachable h.sound.reachable).toFramed.parent_lt_size h.lt hHere
  refine ⟨u, type, k, (h.after.definition? h.sound hpLt).trans hu, hType, hSwitch, ?_⟩
  have hRun := (h.justified hd (sessionOf σ.tree) (Refines.refl σ.tree)).2
  rw [← h.kind, hKind] at hRun
  unfold declaredValue at hRun
  obtain ⟨_, _, hTree, hRun⟩ := Parsing.bind_eq_ok.mp hRun
  cases hTree
  obtain ⟨values, u₁, hValues, hPair⟩ := Parsing.bind_eq_ok.mp hRun
  have hCaseValues : values = d.caseValues := congrArg Prod.snd (EStateM.Result.ok.inj hPair).1
  have hDiscriminator : ((sessionOf σ.tree).tree.get ((σ.tree.get c).parent.getD root)).definition? =
      some u := by
    rw [hHere]
    exact hu
  rw [hDiscriminator, Option.bind_eq_bind, Option.bind_some, Option.bind_eq_bind, hType,
    Option.bind_some, hSwitch, hCaseValues] at hValues
  exact labels_of_labelValues rfl hValues

end Stage

end IdlReader
