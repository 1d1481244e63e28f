import IdlReader.Proofs.Tree.Access

/-!
# Outlines

The evaluation of declarations fills in sizes, values and marks. The outline of a tree is the
tree without these. Whatever names stand for depends on the outline alone, so that an evaluation
changes neither what is found nor what it resolves to.

* `find_outline`, `resolved_outline`: names are found in the outline as in the tree.
* `find_congr`, `resolved_congr`: trees with one outline find the same.
-/

namespace IdlReader

/-- A declaration without what its evaluation gives. -/
def Declaration.outline (d : Declaration) : Declaration :=
  { d with sizes := [], value := .unassigned, caseValues := [], progress := .pending }

/-- A declaration whose evaluation has started. -/
def Declaration.started (d : Declaration) : Declaration := { d with progress := .processing }

/-- A declaration whose evaluation has given sizes and values. -/
def Declaration.finished (sizes : List (Option Nat)) (value : ValueNode)
    (caseValues : List Constant) (d : Declaration) : Declaration :=
  { d with sizes, value, caseValues, progress := .done }

theorem Declaration.outline_started (d : Declaration) : d.started.outline = d.outline := rfl

theorem Declaration.outline_finished (sizes : List (Option Nat)) (value : ValueNode)
    (caseValues : List Constant) (d : Declaration) :
    (d.finished sizes value caseValues).outline = d.outline := rfl

namespace Entity

/-- An entity without what its evaluation gives. -/
def outline (e : Entity) : Entity := e.mapDeclaration Declaration.outline

theorem alike_outline (e : Entity) : Alike e e.outline := alike_mapDeclaration _ e

theorem children_mapDeclaration (f : Declaration → Declaration) (e : Entity) :
    (e.mapDeclaration f).children = e.children := by
  unfold mapDeclaration
  split <;> rfl

theorem definition?_mapDeclaration (f : Declaration → Declaration) (e : Entity) :
    (e.mapDeclaration f).definition? = e.definition? := by
  unfold mapDeclaration
  split
  · rename_i d hData
    simp [definition?, hData]
  · rfl

theorem declaration?_mapDeclaration (f : Declaration → Declaration) (e : Entity) :
    (e.mapDeclaration f).declaration? = e.declaration?.map f := by
  unfold mapDeclaration
  split
  · rename_i d hData
    simp [declaration?, hData]
  · rename_i hData
    cases hDeclaration : e.declaration? with
    | none => rfl
    | some d =>
      unfold declaration? at hDeclaration
      split at hDeclaration
      · rename_i d' hSome
        exact absurd hSome (hData d')
      · cases hDeclaration

theorem definition?_mapDefinition (f : Definition → Definition) (e : Entity) :
    (e.mapDefinition f).definition? = e.definition?.map f := by
  cases hData : e.data <;> simp [mapDefinition, definition?, hData]

theorem outline_mapDeclaration {f : Declaration → Declaration}
    (hf : ∀ d, (f d).outline = d.outline) (e : Entity) :
    (e.mapDeclaration f).outline = e.outline := by
  cases hData : e.data with
  | declaration d => simp [outline, mapDeclaration, hData, hf]
  | root => simp [mapDeclaration, hData]
  | definition => simp [mapDeclaration, hData]
  | record => simp [mapDeclaration, hData]

end Entity

namespace Tree

/-- A tree without what evaluations give. -/
def outline (t : Tree) : Tree := { t with entities := t.entities.map Entity.outline }

theorem get_outline (t : Tree) (i : EntityId) : t.outline.get i = (t.get i).outline := by
  unfold outline get
  rw [Array.getElem?_map]
  cases t.entities[i]? <;> rfl

@[simp] theorem size_outline (t : Tree) : t.outline.size = t.size := by
  unfold outline size
  rw [Array.size_map]

theorem scope_outline (t : Tree) (s : ScopeId) : t.outline.scope s = t.scope s := rfl

theorem key_outline (t : Tree) (name : String) : t.outline.key name = t.key name := rfl

theorem kind_outline (t : Tree) (i : EntityId) : (t.outline.get i).kind = (t.get i).kind := by
  rw [get_outline, (Entity.alike_outline _).kind]

theorem parent_outline (t : Tree) (i : EntityId) :
    (t.outline.get i).parent = (t.get i).parent := by
  rw [get_outline, (Entity.alike_outline _).parent]

theorem name_outline (t : Tree) (i : EntityId) : (t.outline.get i).name = (t.get i).name := by
  rw [get_outline, (Entity.alike_outline _).name]

theorem isRecord_outline (t : Tree) (i : EntityId) :
    (t.outline.get i).isRecord = (t.get i).isRecord := by
  rw [get_outline]
  exact Entity.isRecord_mapDeclaration _ _

theorem forward_outline (t : Tree) (i : EntityId) :
    (t.outline.get i).forward = (t.get i).forward := by
  rw [get_outline, (Entity.alike_outline _).forward]

theorem ownScope_outline (t : Tree) (i : EntityId) :
    (t.outline.get i).scope = (t.get i).scope := by
  rw [get_outline, (Entity.alike_outline _).scope]

theorem children_outline (t : Tree) (i : EntityId) :
    (t.outline.get i).children = (t.get i).children := by
  rw [get_outline]
  exact Entity.children_mapDeclaration _ _

theorem definition?_outline (t : Tree) (i : EntityId) :
    (t.outline.get i).definition? = (t.get i).definition? := by
  rw [get_outline]
  exact Entity.definition?_mapDeclaration _ _

theorem declaration?_outline (t : Tree) (i : EntityId) :
    (t.outline.get i).declaration? = (t.get i).declaration?.map Declaration.outline := by
  rw [get_outline]
  exact Entity.declaration?_mapDeclaration _ _

/-- The definition that the type of a declaration names is part of the outline. -/
theorem definition_outline (t : Tree) (i : EntityId) :
    ((t.outline.get i).declaration?.bind fun d => d.type.definition) =
      (t.get i).declaration?.bind fun d => d.type.definition := by
  rw [declaration?_outline]
  cases (t.get i).declaration? <;> rfl

/-! ## Names -/

theorem lookupWithin_outline (t : Tree) (d : Bool) (key : String) (n : Nat) (owner : EntityId) :
    t.outline.lookupWithin d key n owner = t.lookupWithin d key n owner := by
  induction n generalizing owner with
  | zero => rfl
  | succ n ih =>
    rw [lookupWithin, lookupWithin, ownScope_outline, definition?_outline]
    cases (t.get owner).scope with
    | none => rfl
    | some s =>
      dsimp only
      rw [scope_outline]
      cases (t.scope s).lookup? d key with
      | some id => rfl
      | none =>
        dsimp only
        cases (t.get owner).definition? with
        | none => rfl
        | some definition => exact congrArg (definition.bases.findSome? ·) (funext fun b => ih b)

theorem lookupKey_outline (t : Tree) (d : Bool) (key : String) (owner : EntityId) :
    t.outline.lookupKey d key owner = t.lookupKey d key owner := by
  unfold lookupKey
  rw [lookupWithin_outline, size_outline]

theorem enclosing_outline (t : Tree) (id : EntityId) : t.outline.enclosing id = t.enclosing id := by
  suffices h : ∀ n id, t.outline.enclosingWithin n id = t.enclosingWithin n id by
    unfold enclosing
    rw [h, size_outline]
  intro n
  induction n with
  | zero => exact fun _ => rfl
  | succ n ih =>
    intro id
    rw [enclosingWithin, enclosingWithin, parent_outline]
    cases (t.get id).parent with
    | none => rfl
    | some p =>
      dsimp only
      rw [ih]

theorem resolvedWithin_outline (t : Tree) (n : Nat) (id : EntityId) :
    t.outline.resolvedWithin n id = t.resolvedWithin n id := by
  induction n generalizing id with
  | zero => rfl
  | succ n ih =>
    have hLookup : t.outline.lookupKey true (t.key (t.get id).name) =
        t.lookupKey true (t.key (t.get id).name) :=
      funext fun owner => lookupKey_outline t _ _ owner
    have hForward : ∀ i, (t.outline.get i).forward = (t.get i).forward := forward_outline t
    rw [resolvedWithin, resolvedWithin]
    simp only [kind_outline, definition_outline, hForward, parent_outline, name_outline,
      key_outline, hLookup, ih]

theorem resolved_outline (t : Tree) (id : EntityId) : t.outline.resolved id = t.resolved id := by
  unfold resolved
  rw [resolvedWithin_outline, size_outline]

theorem findMemberWithin_outline (t : Tree) (n : Nat) (id : EntityId) (path : List Char) :
    t.outline.findMemberWithin n id path = t.findMemberWithin n id path := by
  induction n generalizing id path with
  | zero => rfl
  | succ n ih =>
    have hMember : ∀ owner name, t.outline.lookupMember owner name = t.lookupMember owner name :=
      fun owner name => lookupKey_outline t _ _ owner
    rw [findMemberWithin, findMemberWithin]
    simp only [declaration?_outline, hMember, resolved_outline, ih]
    cases (t.get id).declaration? <;> rfl

theorem findWithin_outline (t : Tree) (d : Bool) (n : Nat) (start : EntityId) (name : List Char)
    (upwards : Bool) :
    t.outline.findWithin d n start name upwards = t.findWithin d n start name upwards := by
  induction n generalizing start name upwards with
  | zero => rfl
  | succ n ih =>
    rw [findWithin, findWithin]
    simp only [enclosing_outline, lookupKey_outline, key_outline, resolved_outline, ih,
      findMemberWithin_outline]

theorem find_outline (t : Tree) (start : EntityId) (name : String) (upwards : Bool) :
    t.outline.find start name upwards = t.find start name upwards := findWithin_outline _ _ _ _ _ _

/-! ## Trees with one outline -/

section Congruence

variable {t t' : Tree} (h : t'.outline = t.outline)

include h

theorem find_congr (start : EntityId) (name : String) (upwards : Bool) :
    t'.find start name upwards = t.find start name upwards := by
  rw [← find_outline, h, find_outline]

theorem resolved_congr (id : EntityId) : t'.resolved id = t.resolved id := by
  rw [← resolved_outline, h, resolved_outline]

theorem size_congr : t'.size = t.size := by
  rw [← size_outline, h, size_outline]

theorem caseSensitive_congr : t'.caseSensitive = t.caseSensitive := by
  change t'.outline.caseSensitive = t.outline.caseSensitive
  rw [h]

theorem kind_congr (i : EntityId) : (t'.get i).kind = (t.get i).kind := by
  rw [← kind_outline, h, kind_outline]

theorem span_congr (i : EntityId) : (t'.get i).span = (t.get i).span := by
  have hSpan : ∀ t : Tree, (t.outline.get i).span = (t.get i).span := fun t => by
    rw [get_outline]
    unfold Entity.outline Entity.mapDeclaration
    split <;> rfl
  rw [← hSpan, h, hSpan]

theorem name_congr (i : EntityId) : (t'.get i).name = (t.get i).name := by
  rw [← name_outline, h, name_outline]

theorem parent_congr (i : EntityId) : (t'.get i).parent = (t.get i).parent := by
  rw [← parent_outline, h, parent_outline]

theorem forward_congr (i : EntityId) : (t'.get i).forward = (t.get i).forward := by
  rw [← forward_outline, h, forward_outline]

theorem children_congr (i : EntityId) : (t'.get i).children = (t.get i).children := by
  rw [← children_outline, h, children_outline]

theorem definition?_congr (i : EntityId) : (t'.get i).definition? = (t.get i).definition? := by
  rw [← definition?_outline, h, definition?_outline]

/-- Declarations of one outline stand at the same places. -/
theorem declaration?_congr {i : EntityId} {d' : Declaration}
    (hd : (t'.get i).declaration? = some d') :
    ∃ d, (t.get i).declaration? = some d ∧ d'.outline = d.outline := by
  have hMap : ((t.get i).declaration?.map Declaration.outline) = some d'.outline := by
    rw [← declaration?_outline, ← h, declaration?_outline, hd]
    rfl
  obtain ⟨d, hd, hOutline⟩ := Option.map_eq_some_iff.mp hMap
  exact ⟨d, hd, hOutline.symm⟩

theorem parameters_congr (i : EntityId) : t'.parameters i = t.parameters i := by
  have hMap : (t'.get i).declaration?.map Declaration.outline =
      (t.get i).declaration?.map Declaration.outline := by
    rw [← declaration?_outline, h, declaration?_outline]
  have hParameters := congrArg (fun d? => (d?.map Declaration.parameters).getD []) hMap
  simp only [Option.map_map] at hParameters
  exact hParameters

end Congruence

theorem outline_modify {id : EntityId} {f : Entity → Entity}
    (hf : ∀ e, (f e).outline = e.outline) (t : Tree) : (t.modify id f).outline = t.outline := by
  unfold modify outline
  congr 1
  apply Array.ext
  · simp
  · intro i hi _
    simp only [Array.getElem_map, Array.getElem_modify]
    split
    · exact hf _
    · rfl

/-- A change of what evaluations give. -/
theorem outline_mapDeclaration {id : EntityId} {f : Declaration → Declaration}
    (hf : ∀ d, (f d).outline = d.outline) (t : Tree) :
    (t.modify id (Entity.mapDeclaration f)).outline = t.outline :=
  outline_modify (Entity.outline_mapDeclaration hf) t

end Tree

end IdlReader
