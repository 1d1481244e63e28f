import IdlReader.Grammar.Session
import IdlReader.Proofs.Outcome

/-!
# Entities and scopes after a change

What the tree holds after each of its changes. Most changes leave an entity `Alike`: its
kind, its name, where it stands and its scope are the same.

* `get_modify`, `add_eq_ok`, `get_addRecord`: the entities after a change.
* `alike_modify`: changes of what does not matter for names.
* `naming_of_setName`: everything that giving a name can do.
-/

namespace IdlReader

/-! ## Alike entities -/

/-- Two states of an entity that differ in nothing that names depend on. -/
structure Entity.Alike (e e' : Entity) : Prop where
  kind : e'.kind = e.kind
  name : e'.name = e.name
  parent : e'.parent = e.parent
  scope : e'.scope = e.scope
  forward : e'.forward = e.forward
  definition : e'.definition?.isSome = e.definition?.isSome

/-- Whether these are the data of a recorded directive. -/
def EntityData.isRecord : EntityData → Bool
  | .record _ _ => true
  | _ => false

namespace Entity

theorem Alike.refl (e : Entity) : Alike e e := ⟨rfl, rfl, rfl, rfl, rfl, rfl⟩

theorem Alike.trans {e e' e'' : Entity} (h : Alike e e') (h' : Alike e' e'') : Alike e e'' where
  kind := h'.kind.trans h.kind
  name := h'.name.trans h.name
  parent := h'.parent.trans h.parent
  scope := h'.scope.trans h.scope
  forward := h'.forward.trans h.forward
  definition := h'.definition.trans h.definition

theorem alike_mapDefinition (f : Definition → Definition) (e : Entity) :
    Alike e (e.mapDefinition f) := by
  unfold mapDefinition
  split
  · rename_i d hData
    exact ⟨rfl, rfl, rfl, rfl, rfl, by simp [definition?, hData]⟩
  · exact Alike.refl e

theorem alike_mapDeclaration (f : Declaration → Declaration) (e : Entity) :
    Alike e (e.mapDeclaration f) := by
  unfold mapDeclaration
  split
  · rename_i d hData
    exact ⟨rfl, rfl, rfl, rfl, rfl, by simp [definition?, hData]⟩
  · exact Alike.refl e

/-- Whether an entity is a recorded directive. -/
def isRecord (e : Entity) : Bool := e.data.isRecord

theorem isRecord_mapDefinition (f : Definition → Definition) (e : Entity) :
    (e.mapDefinition f).isRecord = e.isRecord := by
  cases hData : e.data <;> simp [mapDefinition, isRecord, EntityData.isRecord, hData]

theorem isRecord_mapDeclaration (f : Declaration → Declaration) (e : Entity) :
    (e.mapDeclaration f).isRecord = e.isRecord := by
  cases hData : e.data <;> simp [mapDeclaration, isRecord, EntityData.isRecord, hData]

theorem declaration?_of_isRecord {e : Entity} (h : e.isRecord = true) : e.declaration? = none := by
  unfold isRecord at h
  unfold declaration?
  cases hData : e.data with
  | declaration =>
    rw [hData] at h
    cases h
  | root | definition | record => rfl

/-- Whether an entity differs from another one in its notes only: where it ends, its comments
and whether its name was generated. -/
def Annotates (e e' : Entity) : Prop :=
  e' =
    { e with
      anonymous := e'.anonymous
      span := e'.span
      comments := e'.comments
      commentFlags := e'.commentFlags }

theorem Annotates.alike {e e' : Entity} (h : Annotates e e') : Alike e e' := by
  rw [h]
  exact ⟨rfl, rfl, rfl, rfl, rfl, rfl⟩

theorem Annotates.isRecord {e e' : Entity} (h : Annotates e e') : e'.isRecord = e.isRecord := by
  rw [h]
  rfl

theorem annotates_attach (comments : List Token) (e : Entity) :
    Annotates e (e.attach comments) := by
  unfold attach Annotates
  dsimp only
  split <;> rfl

theorem annotates_attach_succeeding (comments : List Token) (e : Entity) :
    Annotates e { e.attach comments with
      commentFlags := (e.attach comments).commentFlags.insert .succeeding } := by
  unfold attach Annotates
  dsimp only
  split <;> rfl

end Entity

namespace Tree

variable {t t' : Tree}

/-! ## Changed entities -/

theorem get_modify (t : Tree) (id : EntityId) (f : Entity → Entity) (i : EntityId) :
    (t.modify id f).get i = if i = id ∧ id < t.size then f (t.get id) else t.get i := by
  unfold get modify
  simp only [Array.getElem?_modify]
  by_cases hId : id = i
  · subst hId
    by_cases hLt : id < t.size
    · have hSome : t.entities[id]? = some t.entities[id] := Array.getElem?_eq_getElem hLt
      simp [hLt, hSome]
    · have hNone : t.entities[id]? = none := by
        rw [Array.getElem?_eq_none]
        simpa [size] using hLt
      simp [hLt, hNone]
  · have hNe : ¬ i = id := fun h => hId h.symm
    simp [hId, hNe]

theorem get_modify_self {id : EntityId} (h : id < t.size) (f : Entity → Entity) :
    (t.modify id f).get id = f (t.get id) := by
  rw [get_modify, if_pos ⟨rfl, h⟩]

theorem get_modify_of_ne {id i : EntityId} (h : i ≠ id) (f : Entity → Entity) :
    (t.modify id f).get i = t.get i := by
  rw [get_modify, if_neg fun hEq => h hEq.1]

/-- A change of what does not matter for names. -/
theorem alike_modify {id : EntityId} {f : Entity → Entity}
    (hf : ∀ e, Entity.Alike e (f e)) (i : EntityId) :
    Entity.Alike (t.get i) ((t.modify id f).get i) := by
  rw [get_modify]
  split
  · rename_i h
    rw [h.1]
    exact hf _
  · exact Entity.Alike.refl _

/-! ## Added entities -/

theorem get_push {e : Entity} {scopes : Array Scope} {caseSensitive : Bool} (i : EntityId) :
    (⟨t.entities.push e, scopes, caseSensitive⟩ : Tree).get i =
      if i = t.size then e else t.get i := by
  unfold get size
  simp only [Array.getElem?_push]
  split <;> rfl

/-- What adding an entity gives. -/
theorem add_eq_ok {parent id : EntityId} {kind : EntityKind} {source : SourceId} {span : Span}
    {data : EntityData} (h : t.add parent kind source span data = .ok (id, t')) :
    (t.get parent).kind.supportsChildren = true ∧ id = t.size ∧ t'.size = t.size + 1 ∧
      t'.caseSensitive = t.caseSensitive ∧
      t'.scopes = (if kind.supportsChildren then t.scopes.push {} else t.scopes) ∧
      ∀ i, t'.get i =
        if i = t.size then
          { kind, parent := some parent, source, span, data
            scope := if kind.supportsChildren then some t.scopes.size else none }
        else t.get i := by
  unfold add at h
  dsimp only at h
  cases hSupports : (t.get parent).kind.supportsChildren with
  | false =>
    rw [hSupports] at h
    cases h
  | true =>
    rw [hSupports] at h
    cases h
    refine ⟨rfl, rfl, ?_, rfl, rfl, fun i => get_push i⟩
    simp [size]

theorem scope_of_push (hScopes : t'.scopes = t.scopes.push {}) (j : ScopeId) :
    t'.scope j = t.scope j := by
  unfold scope
  rw [hScopes, Array.getElem?_push]
  split
  · rename_i hj
    rw [hj, Array.getElem?_eq_none (Nat.le_refl _)]
    rfl
  · rfl

/-- Adding an entity enters no name. -/
theorem scope_add {parent id : EntityId} {kind : EntityKind} {source : SourceId} {span : Span}
    {data : EntityData} (h : t.add parent kind source span data = .ok (id, t')) (j : ScopeId) :
    t'.scope j = t.scope j := by
  obtain ⟨-, -, -, -, hScopes, -⟩ := add_eq_ok h
  split at hScopes
  · exact scope_of_push hScopes j
  · unfold scope
    rw [hScopes]

/-- The entity of a recorded directive. -/
def recorded (r : Record) : Entity :=
  { kind := .directive, name := recordName r.kind, parent := some root, source := r.source,
    span := r.span, data := .record r.kind r.content }

/-- The root with one more recorded directive. -/
def listing (id : EntityId) (e : Entity) : Entity :=
  match e.data with
  | .root records => { e with data := .root (records ++ [id]) }
  | _ => e

theorem alike_listing (id : EntityId) (e : Entity) : Entity.Alike e (listing id e) := by
  unfold listing
  split
  · rename_i records hData
    exact ⟨rfl, rfl, rfl, rfl, rfl, by simp [Entity.definition?, hData]⟩
  · exact Entity.Alike.refl e

theorem declaration?_listing (id : EntityId) (e : Entity) :
    (listing id e).declaration? = e.declaration? := by
  unfold listing
  split
  · rename_i records hData
    simp [Entity.declaration?, hData]
  · rfl

theorem isRecord_listing (id : EntityId) (e : Entity) : (listing id e).isRecord = e.isRecord := by
  unfold listing
  split
  · rename_i records hData
    simp [Entity.isRecord, EntityData.isRecord, hData]
  · rfl

theorem addRecord_eq (t : Tree) (r : Record) :
    (t.addRecord r).2 =
      (⟨t.entities.push (recorded r), t.scopes, t.caseSensitive⟩ : Tree).modify root
        (listing t.size) := rfl

theorem size_addRecord (t : Tree) (r : Record) : (t.addRecord r).2.size = t.size + 1 := by
  rw [addRecord_eq, size_modify, size, Array.size_push]
  rfl

theorem id_addRecord (t : Tree) (r : Record) : (t.addRecord r).1 = t.size := rfl

theorem get_addRecord (h : 0 < t.size) (r : Record) (i : EntityId) :
    (t.addRecord r).2.get i =
      if i = t.size then recorded r
      else if i = root then listing t.size (t.get root)
      else t.get i := by
  have hRoot : root ≠ t.size := Nat.ne_of_lt h
  have hPush : root < (⟨t.entities.push (recorded r), t.scopes, t.caseSensitive⟩ : Tree).size := by
    rw [size, Array.size_push]
    exact Nat.succ_pos _
  rw [addRecord_eq, get_modify, get_push, get_push, if_neg hRoot]
  by_cases hi : i = root
  · rw [if_pos ⟨hi, hPush⟩, if_neg (hi ▸ hRoot), if_pos hi]
  · rw [if_neg fun hEq => hi hEq.1, if_neg hi]

/-- Recording a directive. -/
theorem addRecords_singleton (t : Tree) (r : Record) :
    t.addRecords [r] =
      (t.addRecord r).2.modify (t.addRecord r).1 (Entity.attach r.comments) := rfl

theorem size_addRecords_singleton (t : Tree) (r : Record) :
    (t.addRecords [r]).size = t.size + 1 := by
  rw [addRecords_singleton, size_modify, size_addRecord]

/-- The entities from before stay when a directive is recorded. -/
theorem alike_addRecords_singleton (h : 0 < t.size) (r : Record) {i : EntityId}
    (hi : i < t.size) : Entity.Alike (t.get i) ((t.addRecords [r]).get i) := by
  have hNe : i ≠ t.size := Nat.ne_of_lt hi
  rw [addRecords_singleton, id_addRecord, get_modify_of_ne hNe, get_addRecord h, if_neg hNe]
  split
  · rename_i hRoot
    rw [hRoot]
    exact alike_listing _ _
  · exact Entity.Alike.refl _

/-- The entity of a directive that is recorded. -/
theorem get_addRecords_singleton_self (h : 0 < t.size) (r : Record) :
    (t.addRecords [r]).get t.size = (recorded r).attach r.comments := by
  have hLt : t.size < (t.addRecord r).2.size := by
    rw [size_addRecord]
    omega
  rw [addRecords_singleton, id_addRecord, get_modify_self hLt, get_addRecord h, if_pos rfl]

theorem get_addRecords_singleton_size (h : 0 < t.size) (r : Record) :
    Entity.Alike (recorded r) ((t.addRecords [r]).get t.size) := by
  rw [get_addRecords_singleton_self h]
  exact (Entity.annotates_attach _ _).alike

theorem recordName_ne_empty (k : RecordKind) : recordName k ≠ "" := by
  cases k <;> decide

/-! ## Names -/

theorem key_eq_of_caseSensitive (h : t'.caseSensitive = t.caseSensitive) (name : String) :
    t'.key name = t.key name := by
  unfold key
  rw [h]

theorem scope_insertName {s : ScopeId} (h : s < t.scopes.size) (declaration : Bool)
    (key : String) (id : EntityId) (s' : ScopeId) :
    (t.insertName s declaration key id).scope s' =
      if s' = s then (t.scope s).insert declaration key id else t.scope s' := by
  unfold scope insertName
  simp only [Array.getElem?_modify]
  by_cases hEq : s = s'
  · subst hEq
    simp [Array.getElem?_eq_getElem h]
  · have hNe : ¬ s' = s := fun h => hEq h.symm
    simp [hEq, hNe]

/-- A change of one entity, up to what does not matter for names: `e` is its new state. -/
structure Renames (t t' : Tree) (id : EntityId) (e : Entity) : Prop where
  size : t'.size = t.size
  caseSensitive : t'.caseSensitive = t.caseSensitive
  self : Entity.Alike e (t'.get id)
  others : ∀ i, i ≠ id → Entity.Alike (t.get i) (t'.get i)
  data : ∀ i, (t'.get i).data = (t.get i).data

theorem Renames.definition {id : EntityId} {e : Entity} (h : Renames t t' id e) (i : EntityId) :
    (t'.get i).definition? = (t.get i).definition? := by
  unfold Entity.definition?
  rw [h.data]

theorem Renames.declaration {id : EntityId} {e : Entity} (h : Renames t t' id e) (i : EntityId) :
    (t'.get i).declaration? = (t.get i).declaration? := by
  unfold Entity.declaration?
  rw [h.data]

/-- What giving the name `name` to the entity `id` can do, and the entity that the name then
stands for. -/
inductive Naming (t : Tree) (id : EntityId) (name : String) : Bool → EntityId → Tree → Prop where
  /-- The name was free. -/
  | fresh {forward : Bool} {t' : Tree} {parent : EntityId} {scope : ScopeId}
      (hParent : (t.get id).parent = some parent) (hScope : (t.get parent).scope = some scope)
      (hFree : (t.scope scope).get? (isDeclarationName (t.get id).kind) (t.key name) = none)
      (hRenames : Renames t t' id { t.get id with name, forward })
      (hScopes : t'.scopes =
        (t.insertName scope (isDeclarationName (t.get id).kind) (t.key name) id).scopes) :
      Naming t id name forward id t'
  /-- A forward declaration of what `existing` stands for. -/
  | repeated {t' : Tree} {parent existing : EntityId} {scope : ScopeId}
      (hParent : (t.get id).parent = some parent) (hScope : (t.get parent).scope = some scope)
      (hExisting : (t.scope scope).get? (isDeclarationName (t.get id).kind) (t.key name) =
        some existing)
      (hKind : (t.get existing).kind = (t.get id).kind)
      (hRenames : Renames t t' id { t.get id with name, forward := true })
      (hScopes : t'.scopes = t.scopes) : Naming t id name true existing t'
  /-- The entity goes on with `existing`. -/
  | reopened {t' : Tree} {parent existing : EntityId} {scope : ScopeId}
      (hParent : (t.get id).parent = some parent) (hScope : (t.get parent).scope = some scope)
      (hExisting : (t.scope scope).get? (isDeclarationName (t.get id).kind) (t.key name) =
        some existing)
      (hKind : (t.get existing).kind = .module) (hSame : (t.get id).kind = .module)
      (hRenames : Renames t t' id
        { t.get id with name, scope := (t.get existing).scope })
      (hScopes : t'.scopes = t.scopes) : Naming t id name false id t'
  /-- The entity defines what `existing` only declared. -/
  | completed {t' : Tree} {parent existing : EntityId} {scope : ScopeId}
      (hParent : (t.get id).parent = some parent) (hScope : (t.get parent).scope = some scope)
      (hExisting : (t.scope scope).get? (isDeclarationName (t.get id).kind) (t.key name) =
        some existing)
      (hKind : (t.get existing).kind = (t.get id).kind)
      (hModule : (t.get id).kind ≠ .module) (hForward : (t.get existing).forward = true)
      (hRenames : Renames t t' id { t.get id with name })
      (hScopes : t'.scopes =
        (t.insertName scope (isDeclarationName (t.get id).kind) (t.key name) id).scopes) :
      Naming t id name false id t'

/-- What a change leaves as it is. -/
theorem get_modify_congr {α : Type} (p : Entity → α) {id : EntityId} {f : Entity → Entity}
    (hf : ∀ e, p (f e) = p e) (i : EntityId) : p ((t.modify id f).get i) = p (t.get i) := by
  rw [get_modify]
  split
  · rename_i h
    rw [hf, h.1]
  · rfl

theorem alike_addChild (parent id i : EntityId) :
    Entity.Alike (t.get i) ((t.addChild parent id).get i) := by
  apply alike_modify
  intro e
  exact ⟨rfl, rfl, rfl, rfl, rfl, rfl⟩

theorem Renames.addChild {id : EntityId} {e : Entity} (h : Renames t t' id e)
    (listed : Bool) (parent : EntityId) :
    Renames t (if listed then t'.addChild parent id else t') id e := by
  cases listed with
  | false => exact h
  | true =>
    exact
      { size := (size_modify _ _ _).trans h.size
        caseSensitive := h.caseSensitive
        self := h.self.trans (alike_addChild _ _ _)
        others := fun i hi => (h.others i hi).trans (alike_addChild _ _ _)
        data := fun i => by
          rw [← h.data i]
          apply get_modify_congr Entity.data
          intro e
          rfl }

theorem renames_modify {id : EntityId} (hLt : id < t.size) {f : Entity → Entity}
    (hf : ∀ e, (f e).data = e.data) :
    Renames t (t.modify id f) id (f (t.get id)) where
  size := size_modify _ _ _
  caseSensitive := rfl
  self := by
    rw [get_modify_self hLt]
    exact Entity.Alike.refl _
  others := fun i hi => by
    rw [get_modify_of_ne hi]
    exact Entity.Alike.refl _
  data := get_modify_congr Entity.data hf

theorem Renames.modify {id : EntityId} {e : Entity} (hLt : id < t.size) (h : Renames t t' id e)
    {f : Entity → Entity} {e' : Entity} (hf : Entity.Alike e' (f (t'.get id)))
    (hData : ∀ e, (f e).data = e.data) :
    Renames t (t'.modify id f) id e' where
  size := (size_modify _ _ _).trans h.size
  caseSensitive := h.caseSensitive
  self := by
    rw [get_modify_self (h.size ▸ hLt)]
    exact hf
  others := fun i hi => by
    rw [get_modify_of_ne hi]
    exact h.others i hi
  data := fun i => (get_modify_congr Entity.data hData i).trans (h.data i)

theorem scope_eq_of_scopes (h : t'.scopes = t.scopes) (s : ScopeId) : t'.scope s = t.scope s := by
  unfold scope
  rw [h]

/-- Everything that giving a name can meet. -/
theorem nameOutcome_eq_ok {u : Tree} {kind : EntityKind} {forward : Bool}
    {existing? : Option EntityId} {outcome : NameOutcome}
    (h : u.nameOutcome kind forward existing? = .ok outcome) :
    (existing? = none ∧ outcome = .fresh) ∨
      ∃ x, existing? = some x ∧ (u.get x).kind = kind ∧
        ((forward = true ∧ outcome = .repeated x) ∨
          (forward = false ∧ kind = .module ∧ outcome = .reopened (u.get x).scope) ∨
          (forward = false ∧ kind ≠ .module ∧ (u.get x).forward = true ∧
            outcome = .completed)) := by
  unfold nameOutcome at h
  cases existing? with
  | none =>
    cases h
    exact Or.inl ⟨rfl, rfl⟩
  | some x =>
    right
    refine ⟨x, rfl, ?_⟩
    dsimp only at h
    by_cases hKind : (u.get x).kind = kind
    · refine ⟨hKind, ?_⟩
      rw [if_neg (not_not_intro hKind), hKind] at h
      cases hForward : forward with
      | true =>
        rw [hForward] at h
        cases h
        exact Or.inl ⟨rfl, rfl⟩
      | false =>
        rw [hForward] at h
        by_cases hModule : kind = .module
        · rw [hModule] at h
          cases h
          exact Or.inr (Or.inl ⟨rfl, hModule, rfl⟩)
        · have hExtendable : kind.isExtendable = false := by
            simpa [EntityKind.isExtendable] using hModule
          rw [hExtendable] at h
          cases hOld : (u.get x).forward with
          | true =>
            rw [hOld] at h
            cases h
            exact Or.inr (Or.inr ⟨rfl, hModule, rfl, rfl⟩)
          | false =>
            rw [hOld] at h
            cases h
    · rw [if_pos hKind] at h
      cases h

theorem namePlace_eq_ok {id : EntityId} {name : String} {place : EntityId × ScopeId} :
    t.namePlace id name = .ok place ↔ (t.get id).parent = some place.1 ∧
      (t.get place.1).scope = some place.2 ∧ t.lookupInBases place.1 (t.key name) = none := by
  unfold namePlace
  cases hParent : (t.get id).parent with
  | none => simp
  | some parent =>
    cases hScope : (t.get parent).scope with
    | none => simpa [hScope] using fun h => by rw [← h, hScope]; nofun
    | some scope =>
      cases hInherited : t.lookupInBases parent (t.key name) with
      | none =>
        simp only [Option.bind_some, hScope, hInherited, Option.isSome_none, Bool.false_eq_true,
          if_false, Except.ok.injEq, Option.some.injEq]
        constructor
        · rintro rfl
          exact ⟨rfl, hScope, hInherited⟩
        · rintro ⟨rfl, hPlace, -⟩
          rw [hScope] at hPlace
          cases hPlace
          rfl
      | some other =>
        simp only [Option.bind_some, hScope, hInherited, Option.isSome_some, if_true, reduceCtorEq,
          Option.some.injEq, false_iff]
        rintro ⟨rfl, -, hNone⟩
        rw [hInherited] at hNone
        cases hNone

theorem kind_rename (t : Tree) (id : EntityId) (name : String) (i : EntityId) :
    ((t.rename id name).get i).kind = (t.get i).kind := by
  unfold rename
  apply get_modify_congr Entity.kind
  intro e
  rfl

/-- A name is given where it is not inherited, in two steps. -/
theorem setName_eq_ok {id found : EntityId} {name : String} {forward listed : Bool} :
    t.setName id name forward listed = .ok (found, t') ↔ ∃ parent scope,
      (t.get id).parent = some parent ∧ (t.get parent).scope = some scope ∧
        t.lookupInBases parent (t.key name) = none ∧
        (t.rename id name).enterName (parent, scope) id name forward listed = .ok (found, t') := by
  unfold setName
  constructor
  · intro h
    obtain ⟨⟨parent, scope⟩, hPlace, hEnter⟩ := IdlReader.bind_eq_ok.mp h
    obtain ⟨hParent, hScope, hFree⟩ := namePlace_eq_ok.mp hPlace
    exact ⟨parent, scope, hParent, hScope, hFree, hEnter⟩
  · rintro ⟨parent, scope, hParent, hScope, hFree, hEnter⟩
    exact IdlReader.bind_eq_ok.mpr
      ⟨(parent, scope), namePlace_eq_ok.mpr ⟨hParent, hScope, hFree⟩, hEnter⟩

/-- Everything that giving a name can do. -/
theorem naming_of_setName {id found : EntityId} {name : String} {forward listed : Bool}
    (hLt : id < t.size) (h : t.setName id name forward listed = .ok (found, t')) :
    Naming t id name forward found t' := by
  obtain ⟨parent, scope, hParent, hScope, -, h⟩ := setName_eq_ok.mp h
  have hNamed : Renames t (t.rename id name) id { t.get id with name } :=
    renames_modify hLt fun _ => rfl
  have hScopes : (t.rename id name).scopes = t.scopes := rfl
  have hKey : (t.rename id name).key name = t.key name := rfl
  unfold enterName at h
  dsimp only at h
  rw [kind_rename, hKey] at h
  generalize t.rename id name = u at h hNamed hScopes
  have hSame := scope_eq_of_scopes hScopes scope
  have hOld : ∀ x, (u.get x).kind = (t.get x).kind ∧ (u.get x).scope = (t.get x).scope ∧
      (u.get x).forward = (t.get x).forward := by
    intro x
    by_cases hx : x = id
    · rw [hx]
      exact ⟨hNamed.self.kind, hNamed.self.scope, hNamed.self.forward⟩
    · have hAlike := hNamed.others x hx
      exact ⟨hAlike.kind, hAlike.scope, hAlike.forward⟩
  have hInsert (d : Bool) (key : String) :
      (u.insertName scope d key id).scopes = (t.insertName scope d key id).scopes := by
    unfold insertName
    rw [hScopes]
  have hInserted (d : Bool) (key : String) :
      Renames t (u.insertName scope d key id) id { t.get id with name } :=
    ⟨hNamed.size, hNamed.caseSensitive, hNamed.self, hNamed.others, hNamed.data⟩
  rw [hSame] at h
  cases hOutcome : u.nameOutcome (t.get id).kind forward
      ((t.scope scope).get? (isDeclarationName (t.get id).kind) (t.key name)) with
  | error cause =>
    rw [hOutcome] at h
    cases h
  | ok outcome =>
    rw [hOutcome] at h
    rcases nameOutcome_eq_ok hOutcome with ⟨hFree, rfl⟩ | ⟨x, hExisting, hKind, hCase⟩
    · cases h
      refine .fresh hParent hScope hFree (Renames.addChild ?_ listed parent) ?_
      · exact (hInserted _ _).modify hLt
          ⟨hNamed.self.kind, hNamed.self.name, hNamed.self.parent, hNamed.self.scope, rfl,
            hNamed.self.definition⟩ fun _ => rfl
      · rw [← hInsert]
        cases listed <;> rfl
    · rw [(hOld x).1] at hKind
      rcases hCase with ⟨rfl, rfl⟩ | ⟨rfl, hModule, rfl⟩ | ⟨rfl, hModule, hForward, rfl⟩
      · cases h
        refine .repeated hParent hScope hExisting hKind ?_ hScopes
        exact hNamed.modify hLt ⟨hNamed.self.kind, hNamed.self.name, hNamed.self.parent,
          hNamed.self.scope, rfl, hNamed.self.definition⟩ fun _ => rfl
      · cases h
        refine .reopened hParent hScope hExisting (hKind.trans hModule) hModule
          (Renames.addChild ?_ listed parent) ?_
        · exact hNamed.modify hLt ⟨hNamed.self.kind, hNamed.self.name, hNamed.self.parent,
            (hOld x).2.1, hNamed.self.forward, hNamed.self.definition⟩ fun _ => rfl
        · cases listed <;> exact hScopes
      · cases h
        refine .completed hParent hScope hExisting hKind hModule
          ((hOld x).2.2.symm.trans hForward) (Renames.addChild (hInserted _ _) listed parent) ?_
        rw [← hInsert]
        cases listed <;> rfl

end Tree

end IdlReader
