import IdlReader.Proofs.Grammar.Evaluation
import IdlReader.Proofs.Stage.Evaluated
import IdlReader.Proofs.Tree.Resolution

/-!
# Values and their types

The value of a declaration conforms to its type and array sizes: arrays have no more elements
than their sizes allow, compound values have the fields of their definition in front, all of them
if the definition is complete when the value is built, and scalars have the kind of their type
(`ValueNode.Conforms`). A field that an initializer leaves out has the value of its declaration,
which conforms on its own.

* `conforms_buildValue`: what initializers build.
* `conforms_of_evaluated`: what declarations hold.
-/

namespace IdlReader

open IdlReader.Tree

namespace ValueNode

section Definitions

variable (t : Tree) (complete : EntityId → EntityId → Prop)

mutual

/-- Whether a value that was built for the declaration `c` conforms to a type and array sizes. The
definition of a compound value may be incomplete when the value is built. -/
inductive Conforms : EntityId → DeclaredType → List (Option Nat) → ValueNode → Prop where
  | array {c : EntityId} {type : DeclaredType} {size : Option Nat} {inner : List (Option Nat)}
      {vs : List ValueNode} (hLength : ∀ n ∈ size, vs.length ≤ n)
      (hElements : ∀ v ∈ vs, Conforms c type inner v) : Conforms c type (size :: inner) (.array vs)
  | compound {c D : EntityId} {type : DeclaredType} {ms : List EntityId}
      {vs : List (String × ValueNode)}
      (hDefinition : Parsing.compoundDefinition? t type = some D) (hPrefix : ms <+: t.fields D)
      (hComplete : complete c D → ms = t.fields D) (hMembers : MembersConform c ms vs) :
      Conforms c type [] (.compound vs)
  | dynamic {c : EntityId} {type : DeclaredType}
      (hScalar : Parsing.compoundDefinition? t type = none) : Conforms c type [] (.simple .dynamic)
  | known {c : EntityId} {type : DeclaredType} {a : Constant}
      (hScalar : Parsing.compoundDefinition? t type = none) (hKind : type.kind? = some a.kind) :
      Conforms c type [] (.ofConstant a)

/-- Whether the members of a compound value that was built for the declaration `c` are those of
fields, and each conforms to its field. -/
inductive MembersConform : EntityId → List EntityId → List (String × ValueNode) → Prop where
  | nil {c : EntityId} : MembersConform c [] []
  | unassigned {c m : EntityId} {ms : List EntityId} {vs : List (String × ValueNode)}
      (hRest : MembersConform c ms vs) :
      MembersConform c (m :: ms) (((t.get m).name, .unassigned) :: vs)
  /-- The initializer writes the member. -/
  | written {c m : EntityId} {ms : List EntityId} {v : ValueNode} {vs : List (String × ValueNode)}
      {d : Declaration} (hd : (t.get m).declaration? = some d) (hValue : Conforms c d.type d.sizes v)
      (hRest : MembersConform c ms vs) : MembersConform c (m :: ms) (((t.get m).name, v) :: vs)
  /-- The member has the value that was built for its field. -/
  | copied {c m : EntityId} {ms : List EntityId} {vs : List (String × ValueNode)} {d : Declaration}
      (hd : (t.get m).declaration? = some d) (hValue : Conforms m d.type d.sizes d.value)
      (hRest : MembersConform c ms vs) : MembersConform c (m :: ms) (((t.get m).name, d.value) :: vs)

end

end Definitions

end ValueNode

open IdlReader.Parsing IdlReader.ValueNode IdlReader.Constant

/-! ## Compound types -/

namespace Parsing

variable {t : Tree} {type : DeclaredType}

theorem compoundDefinition?_eq_some {D : EntityId} :
    compoundDefinition? t type = some D ↔ ∃ x, type.definition = some x ∧ t.resolved x = D ∧
      ((t.get D).kind = .struct ∨ (t.get D).kind = .exception) := by
  unfold compoundDefinition?
  simp only [Option.bind_eq_bind, Option.bind_eq_some_iff]
  refine exists_congr fun x => and_congr_right fun _ => ?_
  split
  · rename_i hKind
    constructor
    · rintro ⟨⟩
      exact ⟨rfl, hKind⟩
    · rintro ⟨rfl, -⟩
      rfl
  · rename_i hKind
    constructor
    · exact nofun
    · rintro ⟨rfl, hCompound⟩
      exact absurd hCompound hKind

theorem compoundDefinition?_eq_none :
    compoundDefinition? t type = none ↔ ∀ x, type.definition = some x →
      ¬ ((t.get (t.resolved x)).kind = .struct ∨ (t.get (t.resolved x)).kind = .exception) := by
  rw [Option.eq_none_iff_forall_not_mem]
  constructor
  · intro h x hx hCompound
    exact h _ (compoundDefinition?_eq_some.mpr ⟨x, hx, rfl, hCompound⟩)
  · intro h D hD
    obtain ⟨x, hx, rfl, hCompound⟩ := compoundDefinition?_eq_some.mp hD
    exact h x hx hCompound

end Parsing

namespace Stage

variable {σ : Stage} {t : Tree} {type : DeclaredType}

/-- A type has compound values later if it has them in a stage, and no sooner. What is only
declared may be defined in between. -/
theorem Sound.compound_steps (h : σ.Sound) (hSteps : Steps σ.tree t)
    (hRefers : σ.tree.Refers type) :
    (compoundDefinition? σ.tree type = none → compoundDefinition? t type = none) ∧
      ∀ D, compoundDefinition? σ.tree type = some D → ∃ D', compoundDefinition? t type = some D' ∧
        (D' = D ∨ (σ.tree.get D).forward = true ∧ σ.tree.size ≤ D') := by
  have hExtends := hSteps.extends h.reachable.size_pos
  have hType : ∀ x, type.definition = some x → σ.tree.IsType x := fun x hx =>
    hRefers x (DeclaredType.mem_references hx)
  have hKind : ∀ x, type.definition = some x →
      (t.get (t.resolved x)).kind = (σ.tree.get (σ.tree.resolved x)).kind := by
    intro x hx
    rcases h.reachable.resolved_steps h.calm hSteps (hType x hx) with hSame | ⟨-, -, hKind⟩
    · rw [hSame, hExtends.kind _ (h.reachable.found_resolved (hType x hx).found).1.1]
    · exact hKind
  constructor
  · intro hNone
    rw [compoundDefinition?_eq_none] at hNone ⊢
    intro x hx
    rw [hKind x hx]
    exact hNone x hx
  · intro D hD
    obtain ⟨x, hx, rfl, hCompound⟩ := compoundDefinition?_eq_some.mp hD
    refine ⟨t.resolved x, compoundDefinition?_eq_some.mpr ⟨x, hx, rfl, ?_⟩, ?_⟩
    · rw [hKind x hx]
      exact hCompound
    · rcases h.reachable.resolved_steps h.calm hSteps (hType x hx) with hSame | ⟨hForward, hNew, -⟩
      · exact Or.inl hSame
      · exact Or.inr ⟨hForward, hNew⟩

/-- Types of characters have no compound values. -/
theorem Sound.compound_character (h : σ.Sound) (hLettered : σ.tree.Lettered type)
    (hCharacter : type.base.isCharacter = true) : compoundDefinition? σ.tree type = none := by
  have hTypedef : ∀ x d, (σ.tree.get x).kind = .typedef → (σ.tree.get x).declaration? = some d →
      d.type.base.isCharacter = true → (σ.tree.get (σ.tree.resolved x)).kind = .typedef := by
    intro x
    induction x using Nat.strongRecOn with
    | ind x ih =>
      intro d hKind hd hBase
      cases hNext : d.type.definition with
      | none =>
        rw [resolved_typedef_none hKind hd hNext]
        exact hKind
      | some next =>
        rw [h.reachable.resolved_typedef hKind hd hNext]
        obtain ⟨hNextKind, d', hd', hBase'⟩ := h.lettered x d hd hBase next hNext
        have hLt := h.reachable.references_lt hd next (DeclaredType.mem_references hNext)
        exact ih next hLt d' hNextKind hd' hBase'
  refine compoundDefinition?_eq_none.mpr fun x hx => ?_
  obtain ⟨hKind, d, hd, hBase⟩ := hLettered hCharacter x hx
  rw [hTypedef x d hKind hd hBase]
  decide

/-- The fields of a complete definition are all that it ever has. -/
theorem Complete.fields {closing : Bool} (hSound : σ.Sound)
    (hAfter : Advances σ ⟨t, [], closing⟩) {D : EntityId} (hComplete : σ.Complete D) :
    σ.tree.fields D = t.fields D := by
  have hExtends := hAfter.steps.extends hSound.reachable.size_pos
  unfold Tree.fields
  rw [(hAfter.complete hSound hComplete).2]
  refine List.filter_congr fun c hc => ?_
  rw [hExtends.kind c (hSound.reachable.parent_of_mem_children hc).1.1]

end Stage

/-! ## Parts of initializers -/

namespace Parsing

variable {u : Session}

/-- No element of an initializer list is empty. -/
theorem gives_splitElements (depth : Nat) (element tokens : List Token) :
    Gives u (splitElements depth element tokens) fun es => ∀ e ∈ es, e ≠ [] := by
  have hReverse : ∀ {l : List Token}, l.isEmpty = false → l.reverse ≠ [] := by
    intro l hl hNil
    rw [List.reverse_eq_nil_iff.mp hNil] at hl
    cases hl
  induction tokens generalizing depth element with
  | nil =>
    unfold splitElements
    cases hEmpty : element.isEmpty with
    | true => exact .pure fun e he => absurd he List.not_mem_nil
    | false =>
      refine .pure fun e he => ?_
      rw [List.mem_singleton.mp he]
      exact hReverse hEmpty
  | cons t ts ih =>
    unfold splitElements
    split
    · split
      · exact .failAtToken _ _
      · rename_i hSome
        refine (ih _ _).bind fun es hes => .pure fun e he => ?_
        rcases List.mem_cons.mp he with rfl | he
        · exact hReverse (Bool.eq_false_iff.mpr hSome)
        · exact hes e he
    · exact ih _ _

theorem gives_splitInitializer (tokens : List Token) :
    Gives u (splitInitializer tokens) fun es => ∀ e ∈ es, e ≠ [] := by
  unfold splitInitializer
  split
  · exact .pure nofun
  · dsimp only
    split
    · exact gives_splitElements _ _ _
    · exact .failAtToken _ _

/-- A check of the number of elements against a size, which need not be known. -/
theorem le_size {size : Option Nat} {l : Nat}
    (h : ¬ (size.map fun n => decide (n < l)).getD false = true) : ∀ n ∈ size, l ≤ n := by
  rintro n rfl
  simpa using h

theorem gives_textElements (type : DeclaredType) (size : Option Nat) (first : Token) {k : Kind}
    (hKind : type.kind? = some k) :
    Gives u (textElements type size first) fun v => ∃ vs, v = .array vs ∧
      (∀ n ∈ size, vs.length ≤ n) ∧ ∀ w ∈ vs, ∃ a : Constant, w = .ofConstant a ∧ a.kind = k := by
  unfold textElements
  refine (Gives.orThrow _).bind fun c _ => ?_
  dsimp only
  rw [hKind]
  split
  · exact .failAtToken_bind _ _
  · rename_i hFits
    refine (Gives.mapM (P := fun _ w => ∃ a : Constant, w = .ofConstant a ∧ a.kind = k) ?_).bind ?_
    · exact fun x _ => (Gives.orFailAt _ _).bind fun a ha => .pure ⟨a, rfl, kind_cast ha⟩
    · rintro vs ⟨hLength, hEach⟩
      refine .pure ⟨vs, rfl, fun n hn => hLength ▸ le_size hFits n hn, fun w hw => ?_⟩
      obtain ⟨-, -, hw⟩ := hEach w hw
      exact hw

/-- The value of an expression is known at run time only, or has the kind of its type. -/
theorem gives_scalarValue (scope : EntityId) (type : DeclaredType) (constant : Bool)
    (first : Token) (tokens : List Token) :
    Gives u (scalarValue consult scope type constant first tokens) fun v =>
      constant = false ∧ v = .simple .dynamic ∨
        ∃ a : Constant, v = .ofConstant a ∧ type.kind? = some a.kind := by
  unfold scalarValue
  refine (gives_evaluateIn _ _).bind fun w _ => ?_
  split
  · cases constant with
    | true => exact .failAtToken _ _
    | false => exact .pure (Or.inl ⟨rfl, rfl⟩)
  · split
    · exact .failAtToken _ _
    · rename_i k hKind
      refine (Gives.orFailAt _ _).bind fun a ha => .pure (Or.inr ⟨a, rfl, ?_⟩)
      rw [hKind, kind_cast ha]

/-! ## Entries and labels -/

theorem gives_nextEntryValue (id scope : EntityId) :
    Gives u (nextEntryValue consult id scope) fun a => a.kind = .integer .int32 := by
  unfold nextEntryValue
  refine Gives.tree ?_
  dsimp only
  split
  · exact .pure rfl
  · refine (Gives.consult _).bind fun _ _ => Gives.entity ?_
    exact (Gives.orFail _).bind fun sum _ => (Gives.orFail _).mono fun a ha => kind_cast ha

theorem gives_entryValue (id : EntityId) (d : Declaration) (scope : EntityId) :
    Gives u (entryValue consult id d scope) fun v =>
      ∃ a : Constant, v = .ofConstant a ∧ a.kind = .integer .int32 := by
  unfold entryValue
  split
  · exact (gives_nextEntryValue id scope).bind fun a ha => .pure ⟨a, rfl, ha⟩
  · refine (gives_evaluateIn _ _).bind fun w _ => ?_
    split
    · exact .failAtToken _ _
    · exact (Gives.orFailAt _ _).bind fun a ha => .pure ⟨a, rfl, kind_cast ha⟩

theorem gives_labelValues (union : EntityId) (k : Kind) (labels : List (List Token)) :
    Gives u (labelValues consult union (some k) labels) fun cs => ∀ a ∈ cs, a.kind = k := by
  induction labels with
  | nil =>
    rw [labelValues]
    exact .pure fun _ ha => absurd ha List.not_mem_nil
  | cons label labels ih =>
    cases label with
    | nil =>
      rw [labelValues]
      exact ih
    | cons first rest =>
      rw [labelValues]
      refine (gives_evaluateIn _ _).bind fun w _ => ?_
      split
      · exact .failAtToken _ _
      · refine (Gives.orFailAt _ _).bind fun a ha => ih.bind fun cs hcs => .pure fun b hb => ?_
        rcases List.mem_cons.mp hb with rfl | hb
        · exact kind_cast ha
        · exact hcs b hb

end Parsing

/-! ## Values -/

namespace Stage

/-- Whether the values of all fields that are smaller than a bound conform to their types. -/
def Defaults (t : Tree) (complete : EntityId → EntityId → Prop) (bound : Nat) : Prop :=
  ∀ m d, (t.get m).kind = .field → (t.get m).declaration? = some d → sizeOf d.value < bound →
    d.value = .unassigned ∨ Conforms t complete m d.type d.sizes d.value

theorem Defaults.mono {t : Tree} {complete : EntityId → EntityId → Prop} {n m : Nat}
    (h : Defaults t complete n) (hLe : m ≤ n) : Defaults t complete m :=
  fun i d hKind hd hLt => h i d hKind hd (Nat.lt_of_lt_of_le hLt hLe)

section Building

variable {σ : Stage} {t : Tree} {closing : Bool} {complete : EntityId → EntityId → Prop}
  {c : EntityId} {u : Session} (hSound : σ.Sound) (hAfter : Advances σ ⟨t, [], closing⟩)
  (hComplete : ∀ D, complete c D → σ.Complete D) (hu : u.tree = σ.tree)

/-- Whether what is built from tokens conforms to its type. -/
def Builds (σ : Stage) (t : Tree) (complete : EntityId → EntityId → Prop) (c : EntityId)
    (u : Session) (build : Builder) : Prop :=
  ∀ type sizes tokens, tokens ≠ [] → σ.tree.Refers type → σ.tree.Lettered type →
    Gives u (build type sizes tokens) fun v =>
      Defaults t complete (sizeOf v) → Conforms t complete c type sizes v

include hSound hAfter hu

theorem conforms_buildMembers {build : Builder} (hBuild : Builds σ t complete c u build)
    {ms : List EntityId} (hFields : ∀ m ∈ ms, σ.tree.Named m ∧ (σ.tree.get m).kind = .field)
    {elements : List (List Token)} (hElements : ∀ e ∈ elements, e ≠ []) :
    Gives u (buildMembers consult build ms elements) fun vs =>
      Defaults t complete (sizeOf vs) → MembersConform t complete c ms vs := by
  have hExtends := hAfter.steps.extends hSound.reachable.size_pos
  induction ms generalizing elements with
  | nil => exact .pure fun _ => .nil
  | cons m ms ih =>
    obtain ⟨hNamed, hKind⟩ := hFields m List.mem_cons_self
    unfold buildMembers
    refine (Gives.consult m).bind fun _ hFinished => Gives.entity ?_
    rw [hu] at hFinished ⊢
    have hSome := hSound.reachable.isDeclaration hNamed.1
    rw [hKind] at hSome
    obtain ⟨d, hd⟩ := Option.isSome_iff_exists.mp hSome
    have hFinal : (t.get m).declaration? = some d := hAfter.kept hd (hFinished d hd)
    have hName : (σ.tree.get m).name = (t.get m).name :=
      (hExtends.settled m hNamed.1 (Or.inr hNamed.2)).1.symm
    have hFieldKind : (t.get m).kind = .field := (hExtends.kind m hNamed.1).trans hKind
    rw [hd]
    dsimp only
    have hTail : ∀ e ∈ elements.tail, e ≠ [] := fun e he => hElements e (List.mem_of_mem_tail he)
    have hRest := ih (fun i hi => hFields i (List.mem_cons_of_mem m hi)) hTail
    cases elements with
    | nil =>
      refine (Gives.pure (P := fun v => v = d.value) rfl).bind ?_
      rintro v rfl
      refine hRest.bind fun vs hvs => .pure fun hDefaults => ?_
      have hValue : sizeOf d.value < sizeOf (((σ.tree.get m).name, d.value) :: vs) := by
        simp
        omega
      have hOthers := hvs (hDefaults.mono (by simp))
      rw [hName]
      rcases hDefaults m d hFieldKind hFinal hValue with hNone | hConforms
      · rw [hNone]
        exact .unassigned hOthers
      · exact .copied hFinal hConforms hOthers
    | cons tokens elements =>
      refine (hBuild _ _ _ (hElements tokens List.mem_cons_self)
        (hSound.reachable.typed m d hd) (hSound.lettered m d hd)).bind fun v hv => ?_
      refine hRest.bind fun vs hvs => .pure fun hDefaults => ?_
      rw [hName]
      exact .written hFinal (hv (hDefaults.mono (by simp; omega)))
        (hvs (hDefaults.mono (by simp)))

include hComplete

/-- What an initializer builds conforms to its type. -/
theorem conforms_buildValue (scope : EntityId) (constant : Bool) (n : Nat) :
    Builds σ t complete c u (buildValue consult scope constant n) := by
  induction n with
  | zero => exact fun _ _ _ _ _ _ => .fail _
  | succ n ih =>
    intro type sizes tokens hTokens hRefers hLettered
    obtain ⟨first, rest, rfl⟩ := List.exists_cons_of_ne_nil hTokens
    obtain ⟨hNone, hSome⟩ := hSound.compound_steps hAfter.steps hRefers
    cases sizes with
    | cons size inner =>
      unfold buildValue
      split
      · -- A text in place of an array of characters.
        rename_i hText
        simp only [Bool.and_eq_true, List.isEmpty_iff] at hText
        obtain ⟨⟨rfl, hCharacter⟩, -⟩ := hText
        have hScalar := hNone (hSound.compound_character hLettered hCharacter)
        obtain ⟨k, hKind⟩ : ∃ k, type.kind? = some k := by
          revert hCharacter
          unfold DeclaredType.kind?
          cases type.base <;> simp [BaseType.isCharacter, BaseType.kind?]
        refine (gives_textElements type size first hKind).mono ?_
        rintro v ⟨vs, rfl, hLength, hEach⟩ -
        refine .array hLength fun w hw => ?_
        obtain ⟨a, rfl, hKindOf⟩ := hEach w hw
        exact .known hScalar (hKindOf ▸ hKind)
      · refine (gives_splitInitializer _).bind fun es hes => ?_
        split
        · exact .failAtToken_bind _ _
        · rename_i hFits
          refine (Gives.mapM fun e he => ih type inner e (hes e he) hRefers hLettered).bind ?_
          rintro vs ⟨hLength, hEach⟩
          refine .pure fun hDefaults => .array (fun m hm => hLength ▸ le_size hFits m hm) ?_
          intro w hw
          obtain ⟨e, -, hConforms⟩ := hEach w hw
          have hLt := List.sizeOf_lt_of_mem hw
          exact hConforms (hDefaults.mono (by simp; omega))
    | nil =>
      unfold buildValue
      refine Gives.tree ?_
      rw [hu]
      split
      · rename_i hScalar
        have hScalar := hNone hScalar
        refine (gives_scalarValue scope type constant first _).mono ?_
        rintro v (⟨-, rfl⟩ | ⟨a, rfl, hKind⟩) -
        · exact .dynamic hScalar
        · exact .known hScalar hKind
      · rename_i D hD
        obtain ⟨D', hD', hSame⟩ := hSome D hD
        refine (gives_splitInitializer _).bind fun es hes => ?_
        dsimp only
        split
        · exact .failAtToken_bind _ _
        · have hFields : ∀ m ∈ σ.tree.fields D,
              σ.tree.Named m ∧ (σ.tree.get m).kind = .field := by
            intro m hm
            obtain ⟨hMember, hKind⟩ := List.mem_filter.mp hm
            exact ⟨(hSound.reachable.parent_of_mem_children hMember).1, of_decide_eq_true hKind⟩
          refine (conforms_buildMembers hSound hAfter hu ih hFields hes).bind fun vs hvs => ?_
          refine .pure fun hDefaults => ?_
          have hMembers := hvs (hDefaults.mono (by simp))
          rcases hSame with rfl | ⟨hForward, hNew⟩
          · exact .compound hD' (hSound.reachable.fields_prefix hAfter.steps D')
              (fun hDone => (hComplete D' hDone).fields hSound hAfter) hMembers
          · -- The definition is not there yet.
            have hEmpty := hSound.reachable.fields_forward hForward
            rw [hEmpty] at hMembers
            exact .compound hD' List.nil_prefix
              (fun hDone => absurd (hComplete D' hDone).lt (Nat.not_lt_of_le hNew)) hMembers

end Building

/-! ## Declarations -/

section Declarations

variable {t : Tree} {c : EntityId} {d : Declaration}

/-- What a declaration holds is given by the replayed evaluation of its parts. -/
theorem Evaluated.value {σ : Stage} (h : Evaluated t c σ) (hd : (t.get c).declaration? = some d)
    {P : ValueNode × List Constant → Prop}
    (hGives : Gives (sessionOf σ.tree) (declaredValue consult c (t.get c).kind d d.sizes
      ((t.get c).parent.getD root)) P) : P (d.value, d.caseValues) := by
  rw [h.kind, h.parent] at hGives
  exact (hGives _ _ (h.justified hd (sessionOf σ.tree) (Refines.refl σ.tree)).2).2

/-- There is a size for each dimension. -/
theorem Evaluated.sizes {σ : Stage} (h : Evaluated t c σ)
    (hd : (t.get c).declaration? = some d) : d.sizes.length = d.dimensions.length := by
  have hGives : Gives (sessionOf σ.tree) (d.dimensions.mapM
      (arraySize consult ((σ.tree.get c).parent.getD root))) fun sizes =>
        sizes.length = d.dimensions.length :=
    (Gives.mapM fun dimension _ => .of_replays
      (replays_arraySize asks_consult consult_idle _ dimension)).mono fun _ hSizes => hSizes.1
  exact (hGives _ _ (h.justified hd (sessionOf σ.tree) (Refines.refl σ.tree)).1).2

/-- The value of a constant or a field conforms to its type, if anything is assigned. -/
theorem conforms_of_evaluated {stage : EntityId → Stage}
    (h : ∀ i, (t.get i).declaration?.isSome = true → Evaluated t i (stage i))
    (hd : (t.get c).declaration? = some d)
    (hKind : (t.get c).kind = .const ∨ (t.get c).kind = .field) :
    d.value = .unassigned ∨
      Conforms t (fun i D => (stage i).Complete D) c d.type d.sizes d.value := by
  generalize hBound : sizeOf d.value = bound
  induction bound using Nat.strongRecOn generalizing c d with
  | ind bound ih =>
    have hEvaluated := h c (hd ▸ rfl)
    have hSound := hEvaluated.sound
    have hHere := hEvaluated.declaration?.symm.trans hd
    have hDefaults : Defaults t (fun i D => (stage i).Complete D) (sizeOf d.value) :=
      fun m d' hField hd' hLt => ih _ (hBound ▸ hLt) hd' (Or.inr hField) rfl
    refine hEvaluated.value hd (P := fun r => Defaults t _ (sizeOf r.1) → r.1 = .unassigned ∨
      Conforms t _ c d.type d.sizes r.1) ?_ hDefaults
    have hBuilt : ∀ scope constant, Gives (sessionOf (stage c).tree)
        (buildValue consult scope constant (d.assignment.length + 1) d.type d.sizes d.assignment)
        fun v => Defaults t (fun i D => (stage i).Complete D) (sizeOf v) → v = .unassigned ∨
          Conforms t (fun i D => (stage i).Complete D) c d.type d.sizes v := by
      intro scope constant
      cases hAssignment : d.assignment with
      | nil =>
        unfold buildValue
        exact .pure fun _ => Or.inl rfl
      | cons first rest =>
        have hBuilds : Builds (stage c) t (fun i D => (stage i).Complete D) c
            (sessionOf (stage c).tree)
            (buildValue consult scope constant (d.assignment.length + 1)) :=
          conforms_buildValue hSound hEvaluated.after (fun _ hDone => hDone) rfl scope constant _
        rw [hAssignment] at hBuilds
        exact (hBuilds _ _ _ (List.cons_ne_nil first rest) (hSound.reachable.typed c d hHere)
          (hSound.lettered c d hHere)).mono fun v hv hSmaller => Or.inr (hv hSmaller)
    unfold declaredValue
    rcases hKind with hConst | hField
    · rw [hConst]
      exact (hBuilt _ _).bind fun v hv => .pure hv
    · rw [hField]
      exact (hBuilt _ _).bind fun v hv => .pure hv

/-- A constant of a scalar type that is no array has the value of its expression. -/
theorem Evaluated.scalarValue {σ : Stage} (h : Evaluated t c σ)
    (hd : (t.get c).declaration? = some d) (hKind : (t.get c).kind = .const)
    (hDimensions : d.dimensions = []) (hScalar : compoundDefinition? t d.type = none)
    {first : Token} {rest : List Token} (hAssignment : d.assignment = first :: rest) {u : Session}
    (hu : Refines σ.tree u.tree) :
    scalarValue consult ((t.get c).parent.getD root) d.type true first d.assignment u =
      .ok d.value u := by
  have hHere := h.declaration?.symm.trans hd
  have hNone : compoundDefinition? u.tree d.type = none := by
    rw [compoundDefinition?_congr hu.outline]
    refine Option.eq_none_iff_forall_not_mem.mpr fun D hD => ?_
    obtain ⟨D', hD', -⟩ :=
      (h.sound.compound_steps h.steps (h.sound.reachable.typed c d hHere)).2 D hD
    rw [hScalar] at hD'
    cases hD'
  have hSizes : d.sizes = [] := by
    refine List.eq_nil_of_length_eq_zero ?_
    rw [h.sizes hd, hDimensions]
    rfl
  have hRun := (h.justified hd u hu).2
  rw [← h.kind, ← h.parent, hKind, hSizes] at hRun
  unfold declaredValue at hRun
  dsimp only at hRun
  obtain ⟨v, u₁, hBuild, hPair⟩ := Parsing.bind_eq_ok.mp hRun
  obtain ⟨hPair, hSession⟩ := EStateM.Result.ok.inj hPair
  have hv : v = d.value := congrArg Prod.fst hPair
  rw [hAssignment] at hBuild ⊢
  rw [hv, hSession] at hBuild
  unfold buildValue at hBuild
  obtain ⟨_, u₂, hTree, hBuild⟩ := Parsing.bind_eq_ok.mp hBuild
  cases hTree
  rw [hNone] at hBuild
  exact hBuild

/-- A constant of a scalar type that is no array has a known value, unless nothing is written
behind its equals sign. -/
theorem Evaluated.scalar {σ : Stage} (h : Evaluated t c σ) (hd : (t.get c).declaration? = some d)
    (hKind : (t.get c).kind = .const) (hDimensions : d.dimensions = [])
    (hScalar : compoundDefinition? t d.type = none) :
    d.assignment = [] ∧ d.value = .unassigned ∨
      d.assignment ≠ [] ∧ ∃ a : Constant, d.value = .ofConstant a ∧ d.type.kind? = some a.kind := by
  cases hAssignment : d.assignment with
  | nil =>
    refine Or.inl ⟨rfl, h.value hd (P := fun r => r.1 = .unassigned) ?_⟩
    unfold declaredValue
    rw [hKind, hAssignment]
    dsimp only
    unfold buildValue
    exact (Gives.pure (P := fun v => v = .unassigned) rfl).bind fun v hv => .pure hv
  | cons first rest =>
    have hRun := h.scalarValue hd hKind hDimensions hScalar hAssignment
      (u := sessionOf σ.tree) (Refines.refl σ.tree)
    refine Or.inr ⟨List.cons_ne_nil _ _, ?_⟩
    exact (gives_scalarValue _ _ _ _ _ _ _ hRun).2.resolve_left fun hFalse => absurd hFalse.1 (by decide)

/-- The value of an entry of an enumeration is an integer of 32 bits. -/
theorem Evaluated.entry {σ : Stage} (h : Evaluated t c σ) (hd : (t.get c).declaration? = some d)
    (hKind : (t.get c).kind = .enumEntry) :
    ∃ a : Constant, d.value = .ofConstant a ∧ a.kind = .integer .int32 := by
  refine h.value hd (P := fun r => ∃ a : Constant, r.1 = .ofConstant a ∧ a.kind = .integer .int32) ?_
  unfold declaredValue
  rw [hKind]
  exact (gives_entryValue _ _ _).bind fun v hv => .pure hv

/-- The values of the labels of a case have the kind of the discriminator of the union. -/
theorem Evaluated.labels {σ : Stage} (h : Evaluated t c σ) (hd : (t.get c).declaration? = some d)
    (hKind : (t.get c).kind = .caseEntry) {p : EntityId} (hParent : (t.get c).parent = some p) :
    ∃ u type k, (t.get p).definition? = some u ∧ u.switchType = some type ∧
      type.kind? = some k ∧ ∀ a ∈ d.caseValues, a.kind = k := by
  have hSound := h.sound
  have hHere := h.parent.symm.trans hParent
  obtain ⟨u, type, k, hu, hType, hSwitch⟩ := hSound.cases c p hHere (h.kind.symm.trans hKind)
  have hpLt := (wellFormed_of_reachable hSound.reachable).toFramed.parent_lt_size h.lt hHere
  refine ⟨u, type, .integer k, (h.after.definition? hSound hpLt).trans hu, hType, hSwitch, ?_⟩
  refine h.value hd (P := fun r => ∀ a ∈ r.2, a.kind = .integer k) ?_
  unfold declaredValue
  rw [hKind, hParent]
  refine Gives.tree ?_
  have hDiscriminator : ((sessionOf σ.tree).tree.get p).definition? = some u := hu
  dsimp only [Option.getD_some]
  rw [hDiscriminator, Option.bind_eq_bind, Option.bind_some, Option.bind_eq_bind, hType,
    Option.bind_some, hSwitch]
  exact (gives_labelValues _ _ _).bind fun cs hcs => .pure hcs

end Declarations

end Stage

end IdlReader
