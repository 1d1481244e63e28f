import IdlReader.Proofs.Document.Reachable
import IdlReader.Proofs.Stage.Conformance
import IdlReader.Proofs.Stage.Part

/-!
# Values in documents

What the declarations of a document hold. All of them were evaluated, and what they hold conforms
to their types. Only a constant with nothing behind its equals sign has no value.

The size of an array in a dimension is the number between its brackets. It is never zero, but it may
be negative: then the recorded size is the unsigned integer of 64 bits that is congruent to it.

* `array_sizes`: the recorded sizes.
* `array_sizes_negative`: a document with an array of a negative size.
* `stored_values`: values and their types.
* `evaluated_declarations`: what evaluation leaves.
* `evaluated_declarations_unassigned`: a constant without a value.
-/

/-! ## Sizes of arrays -/

namespace IdlReader.Document

open IdlReader.Tree IdlReader.Stage Parsing

variable {env : Environment} {files : FileTree} {input : Input} {d : Document}

/-- Every declaration was evaluated in a stage of reading, and has a size for each of its dimensions.
A dimension without tokens, or with a value that is known at run time only, has none. If the tokens
give an integer, the size is at least one: it is the integer if this is positive, and otherwise
differs from it by two to the power 64. An integer that is zero is a fault at the first token of the
dimension. -/
theorem array_sizes (h : read env files input = .ok d) {c : EntityId} {e : Declaration}
    (he : (d.tree.get c).declaration? = some e) :
    (∃ σ, Stage.Evaluated d.tree c σ) ∧
    (∀ σ, Stage.Evaluated d.tree c σ → e.sizes.length = e.dimensions.length ∧
      ∀ (i : Nat) tokens, e.dimensions[i]? = some tokens →
        (tokens = [] → e.sizes[i]? = some none) ∧
        (tokens ≠ [] → ∃ r, σ.Yields c tokens r) ∧
        (σ.Yields c tokens .dynamic → e.sizes[i]? = some none) ∧
        ∀ a, σ.Yields c tokens (.known a) → ∃ (v : Int) (n : Nat), a.integer? = some v ∧
          e.sizes[i]? = some (some n) ∧ 1 ≤ n ∧ (0 ≤ v → n = v) ∧
          (v < 0 → -2 ^ 63 ≤ v ∧ n = v + 2 ^ 64)) ∧
    ∀ (evaluate : EntityId → Parsing Unit) (scope : EntityId) (first : Token) (rest : List Token)
      (a : Constant) (u u' : Session),
      evaluateIn evaluate scope (first :: rest) u = .ok (.known a) u' → a.integer? = some 0 →
      Cause.arraySizeZero.category = .constant ∧ arraySize evaluate scope (first :: rest) u =
        .error ((Fault.of .arraySizeZero).placed first.position) u' := by
  refine ⟨exists_evaluated (stages_of_read h) (he ▸ rfl), fun σ hEvaluated => ?_,
    fun evaluate scope first rest a u u' hRun hZero => ⟨rfl, fails_arraySize hRun hZero⟩⟩
  have hMeasures := hEvaluated.measures he
  refine ⟨hMeasures.length_eq.symm, fun i tokens hTokens => ?_⟩
  obtain ⟨hi, rfl⟩ := List.getElem?_eq_some_iff.mp hTokens
  have hi' : i < e.sizes.length := hMeasures.length_eq ▸ hi
  have hMeasure : σ.Measures c e.dimensions[i] e.sizes[i] := hMeasures.get hi hi'
  rw [List.getElem?_eq_getElem hi']
  generalize e.dimensions[i] = tokens at hMeasure ⊢
  generalize e.sizes[i] = size at hMeasure ⊢
  cases hMeasure with
  | unbound =>
    have hNone : ∀ r, ¬ σ.Yields c [] r := fun r hYields => by
      cases hYields (sessionOf σ.tree) (Refines.refl _)
    exact ⟨fun _ => rfl, fun hNot => absurd rfl hNot, fun hYields => absurd hYields (hNone _),
      fun a hYields => absurd hYields (hNone _)⟩
  | dynamic hYields =>
    refine ⟨fun _ => rfl, fun _ => ⟨_, hYields⟩, fun _ => rfl, fun a hKnown => ?_⟩
    cases hYields.unique hKnown
  | @positive _ a n hYields hValue hPositive =>
    refine ⟨?_, fun _ => ⟨_, hYields⟩, fun hDynamic => ?_, fun b hb => ?_⟩
    · rintro rfl
      cases hYields (sessionOf σ.tree) (Refines.refl _)
    · cases hYields.unique hDynamic
    · cases hYields.unique hb
      exact ⟨n, n, hValue, rfl, hPositive, fun _ => rfl, fun hNegative => by omega⟩
  | @negative _ a n hYields hValue hPositive hLe =>
    refine ⟨?_, fun _ => ⟨_, hYields⟩, fun hDynamic => ?_, fun b hb => ?_⟩
    · rintro rfl
      cases hYields (sessionOf σ.tree) (Refines.refl _)
    · cases hYields.unique hDynamic
    · cases hYields.unique hb
      exact ⟨-n, 2 ^ 64 - n, hValue, rfl, by omega, by omega, by omega⟩

/-- In this document the size is written with a constant. -/
theorem array_sizes_constant :
    ∃ (d : Document) (e : Declaration) (σ : Stage) (tokens : List Token) (a : Constant),
      read {} ⟨[], []⟩ (.text "const octet N = 2;\nstruct S { long a[N + 1]; };") = .ok d ∧
      (d.tree.get 3).declaration? = some e ∧ Stage.Evaluated d.tree 3 σ ∧
      e.dimensions = [tokens] ∧ σ.Yields 3 tokens (.known a) ∧ a.integer? = some 3 ∧
      e.sizes = [some 3] := by
  have hRead : (match read {} ⟨[], []⟩
        (.text "const octet N = 2;\nstruct S { long a[N + 1]; };") with
      | .ok d => match (d.tree.get 3).declaration? with
        | some e => e.dimensions.length == 1 && !(e.dimensions.any List.isEmpty) &&
            e.sizes == [some 3]
        | none => false
      | .error _ => false) = true := by decide +kernel
  split at hRead
  · rename_i d hd
    split at hRead
    · rename_i e he
      simp only [Bool.and_eq_true, beq_iff_eq, Bool.not_eq_true'] at hRead
      obtain ⟨⟨hLength, hFull⟩, hSizes⟩ := hRead
      obtain ⟨tokens, hTokens⟩ := List.length_eq_one_iff.mp hLength
      rw [hTokens] at hFull
      have hNe : tokens ≠ [] := by
        rintro rfl
        cases hFull
      obtain ⟨⟨σ, hEvaluated⟩, hAll, -⟩ := array_sizes hd he
      obtain ⟨-, hSize⟩ := hAll σ hEvaluated
      obtain ⟨-, hSome, hDynamic, hKnown⟩ := hSize 0 tokens (by rw [hTokens]; rfl)
      obtain ⟨r, hYields⟩ := hSome hNe
      rw [hSizes] at hDynamic hKnown
      cases r with
      | dynamic => cases hDynamic hYields
      | known a =>
        obtain ⟨v, n, hValue, hn, -, hPositive, hNegative⟩ := hKnown a hYields
        cases hn
        refine ⟨d, e, σ, tokens, a, hd, he, hEvaluated, hTokens, hYields, ?_, hSizes⟩
        rw [hValue]
        exact congrArg some (by omega)
    · cases hRead
  · cases hRead

/-- Whether there is one dimension, which is written as a number behind a minus sign and is minus
one. -/
def isMinusOne : List (List Token) → Bool
  | [[minus, one]] => Expression.unaryOperator? minus == some .minus &&
      one.kind == .literal .decInteger &&
      match (Expression.Tree.unary .minus minus.position (.literal one)).value
          fun _ => .ok .dynamic with
      | .ok (.known a) => a.integer? == some (-1)
      | .ok .dynamic | .error _ => false
  | _ => false

/-- An array may have a negative size: in this document it is minus one, and recorded as the greatest
integer of 64 bits. -/
theorem array_sizes_negative :
    ¬ ∀ d, read {} ⟨[], []⟩ (.text "struct S { long a[-1]; };") = .ok d →
      ∀ c e σ, (d.tree.get c).declaration? = some e → Stage.Evaluated d.tree c σ →
        ∀ (i : Nat) tokens a v, e.dimensions[i]? = some tokens → σ.Yields c tokens (.known a) →
          a.integer? = some v → 1 ≤ v ∧ e.sizes[i]? = some (some v.toNat) := by
  intro hClaim
  have hRead : ((read {} ⟨[], []⟩ (.text "struct S { long a[-1]; };")).toOption.any fun d =>
      (d.tree.get 2).declaration?.any fun e => isMinusOne e.dimensions) = true := by
    decide +kernel
  obtain ⟨d, hd, hDeclaration⟩ := any_toOption hRead
  obtain ⟨e, he, hMinusOne⟩ := (Option.any_eq_true _ _).mp hDeclaration
  unfold isMinusOne at hMinusOne
  split at hMinusOne
  · rename_i minus one hDimensions
    rw [Bool.and_eq_true, Bool.and_eq_true, beq_iff_eq, beq_iff_eq] at hMinusOne
    obtain ⟨⟨hMinus, hOne⟩, hKnown⟩ := hMinusOne
    split at hKnown
    · rename_i a hValue
      obtain ⟨σ, hEvaluated⟩ := exists_evaluated (stages_of_read hd) (c := 2) (he ▸ rfl)
      have hYields : σ.Yields 2 [minus, one] (.known a) :=
        yields_of_writes (.unary (Expression.unaryOperator?_eq_some.mp hMinus) (.literal hOne)) rfl
          hValue
      have hPositive := (hClaim d hd 2 e σ he hEvaluated 0 _ a (-1) (by rw [hDimensions]; rfl)
        hYields (beq_iff_eq.mp hKnown)).1
      exact absurd hPositive (by decide)
    all_goals cases hKnown
  · cases hMinusOne

end IdlReader.Document

/-! ## Values -/

namespace IdlReader.Document

open IdlReader.Tree IdlReader.Stage IdlReader.ValueNode Parsing

variable {env : Environment} {files : FileTree} {input : Input} {d : Document}

/-- Every declaration was evaluated in some stage of reading. The value of a constant or a field is
unassigned or conforms to its type and array sizes, with all fields of the definitions that were
complete in that stage. Entries of enumerations hold integers of 32 bits, and the labels of a case
have values of the kind of the discriminator. -/
theorem stored_values (h : read env files input = .ok d) :
    (∃ stage : EntityId → Stage,
      ∀ i, (d.tree.get i).declaration?.isSome = true → Stage.Evaluated d.tree i (stage i)) ∧
    ∀ stage : EntityId → Stage,
      (∀ i, (d.tree.get i).declaration?.isSome = true → Stage.Evaluated d.tree i (stage i)) →
      ∀ c e, (d.tree.get c).declaration? = some e →
        ((d.tree.get c).kind = .const ∨ (d.tree.get c).kind = .field → e.value = .unassigned ∨
          Conforms d.tree (fun i D => (stage i).Complete D) c e.type e.sizes e.value) ∧
        ((d.tree.get c).kind = .enumEntry →
          ∃ a : Constant, e.value = .ofConstant a ∧ a.kind = .integer .int32) ∧
        ((d.tree.get c).kind = .caseEntry →
          ∃ p u type k, (d.tree.get c).parent = some p ∧ (d.tree.get p).kind = .union ∧
            (d.tree.get p).definition? = some u ∧ u.switchType = some type ∧
            type.kind? = some k ∧ ∀ a ∈ e.caseValues, a.kind = k) := by
  have hStages := stages_of_read h
  constructor
  · have hEach : ∀ i, ∃ σ, (d.tree.get i).declaration?.isSome = true → Stage.Evaluated d.tree i σ := by
      intro i
      by_cases hSome : (d.tree.get i).declaration?.isSome = true
      · obtain ⟨σ, hσ⟩ := exists_evaluated hStages hSome
        exact ⟨σ, fun _ => hσ⟩
      · exact ⟨.start false, fun hFalse => absurd hFalse hSome⟩
    exact ⟨fun i => (hEach i).choose, fun i => (hEach i).choose_spec⟩
  · intro stage hStage c e he
    have hEvaluated := hStage c (he ▸ rfl)
    refine ⟨conforms_of_evaluated hStage he, hEvaluated.entry he, fun hKind => ?_⟩
    have hSound := (sound_start _).advances hStages
    have hFramed := (wellFormed_of_reachable hSound.reachable).toFramed
    have hRoot : c ≠ root := by
      rintro rfl
      have hRootKind : (d.tree.get root).kind = .root := hFramed.rootKind
      rw [hKind] at hRootKind
      cases hRootKind
    obtain ⟨p, hParent, -⟩ := hFramed.parent c hRoot (lt_of_declaration? he)
    obtain ⟨u, type, k, hRest⟩ := hEvaluated.labels he hKind hParent
    have hBelongs := hSound.belongs c p hParent (hKind ▸ by decide)
    exact ⟨p, u, type, k, hParent, hBelongs.case hKind, hRest⟩

/-- In this document the members that an initializer leaves out have the values of their fields. -/
theorem stored_values_of_struct :
    ∃ (d : Document) (stage : EntityId → Stage) (e : Declaration), read {} ⟨[], []⟩
        (.text "struct S { long a; long b = 3; };\nconst S s[2] = { {1}, {2, 4} };") = .ok d ∧
      (d.tree.get 4).declaration? = some e ∧ e.sizes = [some 2] ∧
      e.value.display = "\x7b\x7ba: 1, b: 3\x7d, \x7ba: 2, b: 4\x7d\x7d" ∧
      Conforms d.tree (fun i D => (stage i).Complete D) 4 e.type e.sizes e.value := by
  have hRead : (match read {} ⟨[], []⟩
        (.text "struct S { long a; long b = 3; };\nconst S s[2] = { {1}, {2, 4} };") with
      | .ok d => (d.tree.get 4).kind == .const && match (d.tree.get 4).declaration? with
        | some e => e.sizes == [some 2] &&
            e.value.display == "\x7b\x7ba: 1, b: 3\x7d, \x7ba: 2, b: 4\x7d\x7d"
        | none => false
      | .error _ => false) = true := by decide +kernel
  split at hRead
  · rename_i d hd
    rw [Bool.and_eq_true, beq_iff_eq] at hRead
    obtain ⟨hKind, hRead⟩ := hRead
    split at hRead
    · rename_i e he
      rw [Bool.and_eq_true, beq_iff_eq, beq_iff_eq] at hRead
      obtain ⟨hSizes, hDisplay⟩ := hRead
      obtain ⟨⟨stage, hStage⟩, hAll⟩ := stored_values hd
      refine ⟨d, stage, e, hd, he, hSizes, hDisplay, ?_⟩
      refine ((hAll stage hStage 4 e he).1 (Or.inl hKind)).resolve_left fun hNone => ?_
      rw [hNone] at hDisplay
      exact absurd hDisplay (by decide)
    · cases hRead
  · cases hRead

/-- Every declaration of a document was evaluated and has a size for each dimension. A constant of
a scalar type that is no array has a known value exactly if something is written behind its equals
sign, and then names that lead to it lead to this value. -/
theorem evaluated_declarations (h : read env files input = .ok d) {c : EntityId} {e : Declaration}
    (he : (d.tree.get c).declaration? = some e) :
    e.progress = .done ∧ e.sizes.length = e.dimensions.length ∧
    ((d.tree.get c).kind = .const → e.dimensions = [] → compoundDefinition? d.tree e.type = none →
      (e.assignment ≠ [] ↔ ∃ a : Constant, e.value = .ofConstant a) ∧
      (e.assignment = [] ↔ e.value = .unassigned) ∧
      ∀ start path name, Accessor.readPath? path.toList = some (name, []) →
        d.tree.find start (String.ofList name) true = some c →
        (∀ a : Constant, e.value = .ofConstant a →
          e.type.kind? = some a.kind ∧ d.tree.findConstant start path = a) ∧
        (e.value = .unassigned → d.tree.findConstant start path = .absent)) := by
  have hStages := stages_of_read h
  obtain ⟨σ, hEvaluated⟩ := exists_evaluated hStages (c := c) (he ▸ rfl)
  refine ⟨((sound_start _).advances hStages).finished c e he, hEvaluated.sizes he, ?_⟩
  intro hKind hDimensions hScalar
  have hCases := hEvaluated.scalar he hKind hDimensions hScalar
  have hFind : ∀ {start : EntityId} {path : String} {name : List Char},
      Accessor.readPath? path.toList = some (name, []) →
      d.tree.find start (String.ofList name) true = some c →
      d.tree.findConstant start path = e.value.constant?.getD .absent := by
    intro start path name hPath hFound
    unfold findConstant findValue
    rw [hPath]
    simp only [Option.bind_eq_bind, Option.bind_some, hFound, he]
    rfl
  refine ⟨?_, ?_, fun start path name hPath hFound => ⟨fun a ha => ⟨?_, ?_⟩, fun hNone => ?_⟩⟩
  · rcases hCases with ⟨hEmpty, hNone⟩ | ⟨hSome, a, ha, -⟩
    · refine ⟨fun hNot => absurd hEmpty hNot, fun ⟨a, ha⟩ => ?_⟩
      rw [hNone] at ha
      cases ha
    · exact ⟨fun _ => ⟨a, ha⟩, fun _ => hSome⟩
  · rcases hCases with ⟨hEmpty, hNone⟩ | ⟨hSome, a, ha, -⟩
    · exact ⟨fun _ => hNone, fun _ => hEmpty⟩
    · refine ⟨fun hEmpty => absurd hEmpty hSome, fun hNone => ?_⟩
      rw [ha] at hNone
      cases hNone
  · rcases hCases with ⟨-, hNone⟩ | ⟨-, b, hb, hKindOf⟩
    · rw [hNone] at ha
      cases ha
    · rw [hb] at ha
      cases ha
      exact hKindOf
  · rw [hFind hPath hFound, ha]
    rfl
  · rw [hFind hPath hFound, hNone]
    rfl

/-- In this document the constant has a value, to which its name leads. -/
theorem evaluated_declarations_known :
    ∃ d e a, read {} ⟨[], []⟩ (.text "const long x = 1 + 2;") = .ok d ∧
      (d.tree.get 1).declaration? = some e ∧ e.progress = .done ∧ e.sizes.length = 0 ∧
      e.value = .ofConstant a ∧ d.tree.findConstant root "x" = a ∧ a.display = "3" := by
  have hRead : (match read {} ⟨[], []⟩ (.text "const long x = 1 + 2;") with
      | .ok d => (d.tree.get 1).kind == .const && d.tree.find root "x" true == some 1 &&
        match (d.tree.get 1).declaration? with
        | some e => e.dimensions.isEmpty && e.type.definition.isNone && !e.assignment.isEmpty &&
            e.value.display == "3"
        | none => false
      | .error _ => false) = true := by decide +kernel
  split at hRead
  · rename_i d hd
    rw [Bool.and_eq_true, Bool.and_eq_true, beq_iff_eq, beq_iff_eq] at hRead
    obtain ⟨⟨hKind, hFind⟩, hRead⟩ := hRead
    split at hRead
    · rename_i e he
      simp only [Bool.and_eq_true, List.isEmpty_iff, Option.isNone_iff_eq_none, beq_iff_eq,
        Bool.not_eq_true', List.isEmpty_eq_false_iff] at hRead
      obtain ⟨⟨⟨hDimensions, hDefinition⟩, hAssignment⟩, hDisplay⟩ := hRead
      obtain ⟨hDone, hSizes, hConst⟩ := evaluated_declarations hd he
      have hScalar : compoundDefinition? d.tree e.type = none := by
        unfold compoundDefinition?
        rw [hDefinition]
        rfl
      obtain ⟨hKnown, -, hNames⟩ := hConst hKind hDimensions hScalar
      obtain ⟨a, ha⟩ := hKnown.mp hAssignment
      have hPath : Accessor.readPath? "x".toList = some (['x'], []) := by decide
      refine ⟨d, e, a, hd, he, hDone, ?_, ha, ((hNames root "x" ['x'] hPath hFind).1 a ha).2, ?_⟩
      · rw [hSizes, hDimensions]
        rfl
      · rw [ha] at hDisplay
        exact hDisplay
    · cases hRead
  · cases hRead

/-- A constant of a scalar type may be left without a value: nothing is written behind the equals
sign in this document. -/
theorem evaluated_declarations_unassigned :
    ¬ ∀ d, read {} ⟨[], []⟩ (.text "const long x = ;") = .ok d →
      ∀ c e, (d.tree.get c).declaration? = some e → (d.tree.get c).kind = .const →
        e.dimensions = [] → compoundDefinition? d.tree e.type = none →
        ∃ a : Constant, e.value = .ofConstant a := by
  intro hClaim
  have hRead : (match read {} ⟨[], []⟩ (.text "const long x = ;") with
      | .ok d => (d.tree.get 1).kind == .const && match (d.tree.get 1).declaration? with
        | some e => e.dimensions.isEmpty && e.type.definition.isNone && e.value.constant?.isNone
        | none => false
      | .error _ => false) = true := by decide +kernel
  split at hRead
  · rename_i d hd
    rw [Bool.and_eq_true, beq_iff_eq] at hRead
    obtain ⟨hKind, hRead⟩ := hRead
    split at hRead
    · rename_i e he
      simp only [Bool.and_eq_true, List.isEmpty_iff, Option.isNone_iff_eq_none] at hRead
      obtain ⟨⟨hDimensions, hDefinition⟩, hValue⟩ := hRead
      have hScalar : compoundDefinition? d.tree e.type = none := by
        unfold compoundDefinition?
        rw [hDefinition]
        rfl
      obtain ⟨a, ha⟩ := hClaim d hd 1 e he hKind hDimensions hScalar
      rw [ha] at hValue
      cases hValue
    · cases hRead
  · cases hRead

end IdlReader.Document
