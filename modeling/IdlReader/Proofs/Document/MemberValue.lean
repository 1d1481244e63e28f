import IdlReader.Proofs.Document.Reachable
import IdlReader.Proofs.Stage.Conformance
import IdlReader.Proofs.Stage.Preorder
import IdlReader.Proofs.Tree.MemberPath

/-!
# Members of constants

A constant of a struct or an exception that something is assigned to has a member for each field of
its definition that was read when the constant is evaluated. These are all if the definition was
read before the constant and does not enclose it. A member behind the name of a constant is looked
up in the type of the constant, where inherited members are found too, and its value in that of the
constant, which has members for the fields of the definition itself only.

* `Evaluated.fields_lt`: a definition that is complete when a constant is evaluated.
* `Evaluated.compound`: the members of a compound value.
* `member_values`: which members have a value.
* `member_values_inherited`: an inherited member without a value.
-/

namespace IdlReader

open IdlReader.Tree

namespace Parsing

open IdlReader.Constant

variable {u : Session}

/-- Members are built under the names of their fields. -/
theorem gives_buildMembers_names {build : Builder}
    (hBuild : ∀ type sizes tokens, Gives u (build type sizes tokens) fun _ => True)
    {ms : List EntityId} (h : ∀ m ∈ ms, (u.tree.get m).declaration?.isSome = true)
    (elements : List (List Token)) :
    Gives u (buildMembers consult build ms elements) fun vs =>
      vs.map Prod.fst = ms.map fun m => (u.tree.get m).name := by
  induction ms generalizing elements with
  | nil => exact .pure rfl
  | cons m ms ih =>
    obtain ⟨d, hd⟩ := Option.isSome_iff_exists.mp (h m List.mem_cons_self)
    have hRest := ih (fun i hi => h i (List.mem_cons_of_mem m hi)) elements.tail
    unfold buildMembers
    refine (Gives.consult m).bind fun _ _ => Gives.entity ?_
    rw [hd]
    dsimp only
    cases elements with
    | nil =>
      refine (Gives.pure (P := fun _ => True) trivial).bind fun v _ => ?_
      exact hRest.bind fun vs hvs => .pure (congrArg (_ :: ·) hvs)
    | cons tokens elements =>
      refine (hBuild _ _ _).bind fun v _ => ?_
      exact hRest.bind fun vs hvs => .pure (congrArg (_ :: ·) hvs)

/-- What is assigned for a compound type has the fields of its definition. -/
theorem gives_buildValue_compound (scope : EntityId) (constant : Bool) (n : Nat)
    {type : DeclaredType} {D : EntityId} (hD : compoundDefinition? u.tree type = some D)
    (hFields : ∀ m ∈ u.tree.fields D, (u.tree.get m).declaration?.isSome = true)
    {tokens : List Token} (hTokens : tokens ≠ []) :
    Gives u (buildValue consult scope constant n type [] tokens) fun v =>
      ∃ vs, v = .compound vs ∧ vs.map Prod.fst = (u.tree.fields D).map fun m =>
        (u.tree.get m).name := by
  cases n with
  | zero => exact .fail _
  | succ n =>
    obtain ⟨first, rest, rfl⟩ := List.exists_cons_of_ne_nil hTokens
    have hBuild : ∀ type sizes tokens,
        Gives u (buildValue consult scope constant n type sizes tokens) fun _ => True :=
      fun _ _ _ => .of_replays (replays_buildValue asks_consult consult_idle scope constant n _ _ _)
    unfold buildValue
    refine Gives.tree ?_
    rw [hD]
    refine (gives_splitInitializer _).bind fun es _ => ?_
    dsimp only
    split
    · exact .failAtToken_bind _ _
    · exact (gives_buildMembers_names hBuild hFields es).bind fun vs hvs => .pure ⟨vs, rfl, hvs⟩

end Parsing

namespace Stage

open Parsing ValueNode

variable {σ : Stage} {t : Tree} {c D : EntityId} {d : Declaration}

/-- A definition that was read before a declaration and does not enclose it is complete when the
declaration is evaluated. -/
theorem Evaluated.complete_of_outside (h : Evaluated t c σ) (hFull : (t.get D).forward = false)
    (hBefore : D < c) (hOutside : D ∉ t.enclosing c) : σ.Complete D := by
  have hSound := h.sound
  have hExtends := h.steps.extends hSound.reachable.size_pos
  have hLt := Nat.lt_trans hBefore h.lt
  obtain ⟨d, hd, -⟩ := h.exists_declaration
  have hDirective : (σ.tree.get c).kind ≠ .directive := by
    intro hKind
    have hSome := hSound.reachable.isDeclaration h.lt
    rw [hKind, hd] at hSome
    cases hSome
  have hSettled : D = root ∨ (σ.tree.get D).name ≠ "" := by
    by_cases hRoot : D = root
    · exact Or.inl hRoot
    · exact Or.inr (hSound.calm D hRoot hLt)
  refine ⟨hLt, (hExtends.settled D hLt hSettled).2.1.symm.trans hFull, fun hGrowing => hOutside ?_⟩
  have hOpened : D ∈ σ.opened := by
    unfold growing at hGrowing
    split at hGrowing
    · exact List.mem_of_mem_tail hGrowing
    · exact hGrowing
  obtain ⟨caseSensitive, σ₀, hAdvances, hStep, -⟩ := h.before
  have hOrdered := Ordered.of_advances caseSensitive (hAdvances.tail hStep)
  have hInside := hOrdered.opened D hOpened c hBefore h.lt hDirective
  have hFramed := (wellFormed_of_reachable (hSound.reachable.steps h.steps)).toFramed
  exact hFramed.mem_enclosing_of_inside (hInside.mono hExtends.parent)

/-- Its fields were all read by then. -/
theorem Evaluated.fields_lt (h : Evaluated t c σ) (hBefore : D < c)
    (hOutside : D ∉ t.enclosing c) : ∀ x ∈ t.fields D, x < σ.tree.size := by
  have hSound := h.sound
  cases hForward : (t.get D).forward with
  | true =>
    rw [(hSound.reachable.steps h.steps).fields_forward hForward]
    exact nofun
  | false =>
    have hComplete := h.complete_of_outside hForward hBefore hOutside
    rw [← hComplete.fields hSound h.after]
    exact fun x hx => (hSound.reachable.parent_of_mem_children (List.mem_filter.mp hx).1).1.1

/-- The fields that a definition has in a stage are those that were read by then. -/
theorem Sound.fields_eq_filter (h : σ.Sound) (hSteps : Steps σ.tree t) (D : EntityId) :
    σ.tree.fields D = (t.fields D).filter (· < σ.tree.size) := by
  have hExtends := hSteps.extends h.reachable.size_pos
  have hFramed := (wellFormed_of_reachable (h.reachable.steps hSteps)).toFramed
  obtain ⟨l, hl, -, hJoining⟩ := hSteps.children h.reachable D
  have hOld : ∀ x ∈ (σ.tree.get D).children, x < σ.tree.size := fun x hx =>
    (h.reachable.parent_of_mem_children hx).1.1
  have hNew : ∀ x ∈ l, ¬ x < σ.tree.size := fun x hx hLt =>
    (hJoining x hx).unnamed ⟨hLt, h.calm x (hFramed.ne_root_of_parent (hJoining x hx).parent) hLt⟩
  unfold Tree.fields
  rw [hl, List.filter_append, List.filter_append, List.filter_filter, List.filter_filter,
    List.filter_eq_nil_iff.mpr fun x hx hTrue => hNew x hx ?_, List.append_nil]
  · refine List.filter_congr fun x hx => ?_
    rw [hExtends.kind x (hOld x hx), decide_eq_true (hOld x hx), Bool.true_and]
  · exact of_decide_eq_true (Bool.and_eq_true_iff.mp hTrue).1

/-- A constant of a compound type that is no array and that something is assigned to has members
for the fields that were read when it was evaluated. -/
theorem Evaluated.compound (h : Evaluated t c σ) (hd : (t.get c).declaration? = some d)
    (hKind : (t.get c).kind = .const) (hDimensions : d.dimensions = [])
    (hCompound : compoundDefinition? t d.type = some D) (hAssigned : d.assignment ≠ []) :
    ∃ vs, d.value = .compound vs ∧
      vs.map Prod.fst = ((t.fields D).filter (· < σ.tree.size)).map fun m => (t.get m).name := by
  have hSound := h.sound
  have hReachable' := hSound.reachable.steps h.steps
  have hExtends := h.steps.extends hSound.reachable.size_pos
  have hRefers := hSound.reachable.typed c d (h.declaration?.symm.trans hd)
  have hSizes : d.sizes = [] := by
    refine List.eq_nil_of_length_eq_zero ?_
    rw [h.sizes hd, hDimensions]
    rfl
  obtain ⟨hNone, hSome⟩ := hSound.compound_steps h.steps hRefers
  cases hHere : compoundDefinition? σ.tree d.type with
  | none =>
    rw [hNone hHere] at hCompound
    cases hCompound
  | some D₀ =>
    obtain ⟨D', hD', hSame⟩ := hSome D₀ hHere
    rw [hCompound] at hD'
    cases hD'
    have hFields : σ.tree.fields D₀ = (t.fields D).filter (· < σ.tree.size) := by
      rcases hSame with rfl | ⟨hForward, hNew⟩
      · exact hSound.fields_eq_filter h.steps D
      · -- The definition was not read yet, nor was any field of it.
        rw [hSound.reachable.fields_forward hForward, eq_comm, List.filter_eq_nil_iff]
        intro x hx hTrue
        obtain ⟨hNamed, hParent, -⟩ :=
          hReachable'.parent_of_mem_children (List.mem_filter.mp hx).1
        have hLt := (wellFormed_of_reachable hReachable').parent_lt hNamed.1 hParent
        exact Nat.lt_irrefl _ (Nat.lt_trans (Nat.lt_of_le_of_lt hNew hLt) (of_decide_eq_true hTrue))
    have hDeclared : ∀ m ∈ σ.tree.fields D₀, (σ.tree.get m).declaration?.isSome = true := by
      intro m hm
      obtain ⟨hMember, hField⟩ := List.mem_filter.mp hm
      rw [hSound.reachable.isDeclaration (hSound.reachable.parent_of_mem_children hMember).1.1,
        of_decide_eq_true hField]
      rfl
    obtain ⟨vs, hValue, hNames⟩ := h.value hd (P := fun r => ∃ vs, r.1 = .compound vs ∧
        vs.map Prod.fst = (σ.tree.fields D₀).map fun m => (σ.tree.get m).name) (by
      unfold declaredValue
      rw [hKind, hSizes]
      exact (gives_buildValue_compound (u := sessionOf σ.tree) _ _ _ hHere hDeclared
        hAssigned).bind fun v hv => .pure hv)
    refine ⟨vs, hValue, ?_⟩
    rw [hNames, ← hFields]
    refine List.map_congr_left fun m hm => ?_
    have hNamed := (hSound.reachable.parent_of_mem_children (List.mem_filter.mp hm).1).1
    exact (hExtends.settled m hNamed.1 (Or.inr hNamed.2)).1.symm

end Stage

end IdlReader

namespace IdlReader.Document

open IdlReader.Tree Parsing

/-- Both the entity and the value that the name of a member behind the scoped name of a constant
leads to are looked up from the same declaration on. If it is the constant, the member has a value
exactly if it stands in the definition of the constant and was read when the constant was
evaluated, as all fields were if the definition was read before the constant and does not enclose
it. -/
theorem member_values {env : Environment} {files : FileTree} {input : Input} {d : Document}
    (h : read env files input = .ok d) {c D : EntityId} {e : Declaration}
    (he : (d.tree.get c).declaration? = some e) (hKind : (d.tree.get c).kind = .const)
    (hDimensions : e.dimensions = []) (hCompound : compoundDefinition? d.tree e.type = some D)
    (hAssigned : e.assignment ≠ []) :
    (∃ σ, Stage.Evaluated d.tree c σ) ∧ ∀ σ, Stage.Evaluated d.tree c σ →
      (D < c → D ∉ d.tree.enclosing c → ∀ x ∈ d.tree.fields D, x < σ.tree.size) ∧
      ∀ m x, IsName m → d.tree.find root (d.tree.scopedName c ++ "." ++ m) false = some x →
        (d.tree.get x).kind = .field →
        ∃ i v, d.tree.find root (d.tree.scopedName c) false = some i ∧
          (d.tree.get i).declaration? = some v ∧
          d.tree.findValue root (d.tree.scopedName c ++ "." ++ m) =
            v.value.member? d.tree.caseSensitive m ∧
          (i = c → ((d.tree.findValue root (d.tree.scopedName c ++ "." ++ m)).isSome = true ↔
            (d.tree.get x).parent = some D ∧ x < σ.tree.size)) := by
  have hStages := stages_of_read h
  have hReachable := reachable_of_read h
  have hWellFormed := wellFormed_of_reachable hReachable
  refine ⟨Stage.exists_evaluated hStages (he ▸ rfl), fun σ hEvaluated => ⟨hEvaluated.fields_lt, ?_⟩⟩
  intro m x hName hFind hField
  obtain ⟨vs, hValue, hMembers⟩ := hEvaluated.compound he hKind hDimensions hCompound hAssigned
  have hRoot : c ≠ root := by
    rintro rfl
    rw [hWellFormed.rootKind] at hKind
    cases hKind
  have hNamed : d.tree.Named c :=
    ⟨lt_of_declaration? he, hEvaluated.calm c hRoot (lt_of_declaration? he)⟩
  have hNames : ∀ name ∈ d.tree.names c, IsName name :=
    fun name => hWellFormed.isName_of_mem_names hNamed
  have hEmpty := hWellFormed.names_ne_nil hNamed hRoot
  rw [scopedName_eq] at hFind ⊢
  rw [find_join_member hNames hEmpty hName] at hFind
  obtain ⟨i, hWalk, hMember⟩ := Option.bind_eq_some_iff.mp hFind
  unfold memberOf at hMember
  simp only [Option.bind_eq_bind, Option.bind_eq_some_iff] at hMember
  obtain ⟨v, hv, y, hy, hLookup⟩ := hMember
  have hPath : d.tree.findValue root ("::".intercalate (d.tree.names c) ++ "." ++ m) =
      v.value.member? d.tree.caseSensitive m := by
    rw [hWellFormed.findValue_join_member hNames hEmpty hName, hWalk, Option.bind_some, hv,
      Option.bind_some]
  refine ⟨i, v, (find_join hNames hEmpty root).trans hWalk, hv, hPath, ?_⟩
  rintro rfl
  rw [he] at hv
  cases hv
  obtain ⟨y', hy', hResolved, -⟩ := compoundDefinition?_eq_some.mp hCompound
  rw [hy] at hy'
  cases hy'
  rw [hResolved] at hLookup
  have hxFound := hWellFormed.lookupWithin_found hLookup
  have hKey := hWellFormed.key_of_lookupKey hLookup
  rw [hPath, hValue, ValueNode.member?_isSome, hMembers]
  constructor
  · rintro ⟨_, hName', hSame⟩
    obtain ⟨z, hz, rfl⟩ := List.mem_map.mp hName'
    obtain ⟨hzField, hzLt⟩ := List.mem_filter.mp hz
    obtain ⟨hzNamed, hzParent, -⟩ :=
      hReachable.parent_of_mem_children (List.mem_filter.mp hzField).1
    have hzName := hWellFormed.name z hzNamed.1 hzNamed.2
    have hOwn := hReachable.lookupMember_field hzField ((sameName_iff hzName hName).mp hSame)
    rw [hLookup] at hOwn
    cases hOwn
    exact ⟨hzParent, of_decide_eq_true hzLt⟩
  · rintro ⟨hParent, hLt⟩
    have hxField := (hReachable.mem_fields_iff hField hxFound.1).mpr hParent
    refine ⟨_, List.mem_map_of_mem (List.mem_filter.mpr ⟨hxField, decide_eq_true hLt⟩), ?_⟩
    exact (sameName_iff (hWellFormed.name x hxFound.1.1 hxFound.1.2) hName).mpr hKey

/-- In this document a member that the initializer leaves out has a value. -/
theorem member_values_of_struct :
    ∃ (d : Document) (e : Declaration) (v : ValueNode), read {} ⟨[], []⟩
        (.text "struct S { long a; long b = 3; };\nconst S s = {1};") = .ok d ∧
      (d.tree.get 4).declaration? = some e ∧ e.value.display = "\x7ba: 1, b: 3\x7d" ∧
      d.tree.find root (d.tree.scopedName 4 ++ "." ++ "b") false = some 3 ∧
      d.tree.findValue root (d.tree.scopedName 4 ++ "." ++ "b") = some v := by
  have hRead : (match read {} ⟨[], []⟩
        (.text "struct S { long a; long b = 3; };\nconst S s = {1};") with
      | .ok d => (d.tree.get 4).kind == .const && (d.tree.get 3).kind == .field &&
          (d.tree.get 3).parent == some 1 && (d.tree.get 1).children.contains 3 &&
          d.tree.enclosing 4 == [4, 0] &&
          d.tree.find root (d.tree.scopedName 4) false == some 4 &&
          d.tree.find root (d.tree.scopedName 4 ++ "." ++ "b") false == some 3 &&
        match (d.tree.get 4).declaration? with
        | some e => e.dimensions.isEmpty && !e.assignment.isEmpty &&
            compoundDefinition? d.tree e.type == some 1 &&
            e.value.display == "\x7ba: 1, b: 3\x7d"
        | none => false
      | .error _ => false) = true := by decide +kernel
  split at hRead
  · rename_i d hd
    simp only [Bool.and_eq_true, beq_iff_eq, List.contains_iff_mem] at hRead
    obtain ⟨⟨⟨⟨⟨⟨⟨hKind, hField⟩, hParent⟩, hChild⟩, hEnclosing⟩, hConst⟩, hFind⟩, hRead⟩ := hRead
    split at hRead
    · rename_i e he
      simp only [Bool.and_eq_true, List.isEmpty_iff, beq_iff_eq, Bool.not_eq_true',
        List.isEmpty_eq_false_iff] at hRead
      obtain ⟨⟨⟨hDimensions, hAssigned⟩, hCompound⟩, hDisplay⟩ := hRead
      obtain ⟨⟨σ, hEvaluated⟩, hAll⟩ :=
        member_values hd he hKind hDimensions hCompound hAssigned
      obtain ⟨hFields, hMembers⟩ := hAll σ hEvaluated
      have hLt : 3 < σ.tree.size := by
        refine hFields (by decide) (by rw [hEnclosing]; decide) 3 ?_
        exact List.mem_filter.mpr ⟨hChild, decide_eq_true hField⟩
      obtain ⟨i, -, hi, -, -, hValue⟩ := hMembers "b" 3 (by decide) hFind hField
      rw [hConst] at hi
      obtain ⟨v, hv⟩ := Option.isSome_iff_exists.mp
        ((hValue (Option.some.inj hi).symm).mpr ⟨hParent, hLt⟩)
      exact ⟨d, e, v, hd, he, hDisplay, hFind, hv⟩
    · cases hRead
  · cases hRead

/-- The value of a constant has no inherited members: in this document the name of one is found,
but no value for it. -/
theorem member_values_inherited :
    ¬ ∀ (env : Environment) (files : FileTree) (input : Input) (d : Document),
      read env files input = .ok d → ∀ c D e, (d.tree.get c).declaration? = some e →
        (d.tree.get c).kind = .const → e.dimensions = [] →
        compoundDefinition? d.tree e.type = some D → e.assignment ≠ [] →
        ∀ m x, IsName m → d.tree.find root (d.tree.scopedName c ++ "." ++ m) false = some x →
          (d.tree.get x).kind = .field →
          (d.tree.findValue root (d.tree.scopedName c ++ "." ++ m)).isSome = true := by
  intro hClaim
  have hRead : (match read {} ⟨[], []⟩ (.text
        "struct B { long x = 1; };\nstruct D : B { long y = 1; };\nconst D V = {1};") with
      | .ok d => (d.tree.get 5).kind == .const && (d.tree.get 2).kind == .field &&
          d.tree.find root (d.tree.scopedName 5 ++ "." ++ "x") false == some 2 &&
          (d.tree.findValue root (d.tree.scopedName 5 ++ "." ++ "x")).isNone &&
        match (d.tree.get 5).declaration? with
        | some e => e.dimensions.isEmpty && !e.assignment.isEmpty &&
            compoundDefinition? d.tree e.type == some 3
        | none => false
      | .error _ => false) = true := by decide +kernel
  split at hRead
  · rename_i d hd
    simp only [Bool.and_eq_true, beq_iff_eq, Option.isNone_iff_eq_none] at hRead
    obtain ⟨⟨⟨⟨hKind, hField⟩, hFind⟩, hNone⟩, hRead⟩ := hRead
    split at hRead
    · rename_i e he
      simp only [Bool.and_eq_true, List.isEmpty_iff, beq_iff_eq, Bool.not_eq_true',
        List.isEmpty_eq_false_iff] at hRead
      obtain ⟨⟨hDimensions, hAssigned⟩, hCompound⟩ := hRead
      have hSome := hClaim _ _ _ d hd 5 3 e he hKind hDimensions hCompound hAssigned "x" 2
        (by decide) hFind hField
      rw [hNone] at hSome
      cases hSome
    · cases hRead
  · cases hRead

end IdlReader.Document
