import IdlReader.Proofs.Source.Words
import IdlReader.Proofs.Tree.Access
import Mathlib.Logic.Relation

/-!
# How trees grow

A tree grows by steps: a directive is recorded, an entity is added, gets its head and then its
name, and what is known about it is filled in. An entity is added only when all others have
their names, and nothing is added before it has got its own one. `Tree.Step` says what a step
does and what is checked before it; a tree is `Reachable` if steps lead to it from the root
alone.

* `Steps.extends`: what has a name keeps its kind, name, place and scope.
* `open_add`, `calm_name`: how the state between adding and naming comes and goes.
-/

namespace IdlReader

mutual

/-- The entities that a type names, those of its keys and elements included. -/
def DeclaredType.references : DeclaredType → List EntityId
  | ⟨_, _, definition, _, _, key, value⟩ =>
    definition.toList ++ optionReferences key ++ optionReferences value

/-- The entities that a type names if there is one. -/
def DeclaredType.optionReferences : Option DeclaredType → List EntityId
  | none => []
  | some t => t.references

end

/-- The kinds of entities that a type may name. -/
def EntityKind.isType (k : EntityKind) : Bool :=
  k == .typedef || (k.isDefinition && k != .module)

/-- The exceptions that a declaration lists. -/
def Declaration.exceptions (d : Declaration) : List EntityId :=
  d.raises ++ d.getRaises ++ d.setRaises

/-- Whether a declaration differs from another one only in what is read behind its name. -/
def Declaration.Completes (d d' : Declaration) : Prop :=
  d' =
    { d with
      dimensions := d'.dimensions
      assignment := d'.assignment
      constOperation := d'.constOperation
      parameters := d'.parameters
      raises := d'.raises
      getRaises := d'.getRaises
      setRaises := d'.setRaises
      labels := d'.labels
      defaultCase := d'.defaultCase }

/-- The data with which the entities of a kind start. -/
inductive EntityData.Starts : EntityKind → EntityData → Prop where
  | definition {kind : EntityKind} (hKind : kind.isDefinition = true) (isLocal : Bool) :
      Starts kind (.definition { isLocal })
  | declaration {kind : EntityKind} (hKind : kind.isDeclaration = true) (type : DeclaredType)
      (readonly : Bool) (direction : Option Direction) :
      Starts kind (.declaration { type, readonly, direction })

namespace Tree

theorem lt_of_lt_succ {i n : Nat} (h : i < n + 1) (hNe : i ≠ n) : i < n :=
  Nat.lt_of_le_of_ne (Nat.le_of_lt_succ h) hNe

/-! ## States -/

/-- Whether an entity of a tree has a name. -/
def Named (t : Tree) (id : EntityId) : Prop := id < t.size ∧ (t.get id).name ≠ ""

/-- Whether an entity may be named as a type. -/
def IsType (t : Tree) (id : EntityId) : Prop := t.Named id ∧ (t.get id).kind.isType = true

/-- Whether an entity is an exception. -/
def IsException (t : Tree) (id : EntityId) : Prop := t.Named id ∧ (t.get id).kind = .exception

/-- Whether all types that a type names may be named. -/
def Refers (t : Tree) (type : DeclaredType) : Prop := ∀ id ∈ type.references, t.IsType id

/-- Whether every entity besides the root has a name. -/
def Calm (t : Tree) : Prop := ∀ id, id ≠ root → id < t.size → (t.get id).name ≠ ""

/-- Whether an entity is the one that has no name yet. Nothing but records comes after it. -/
structure Open (t : Tree) (id : EntityId) : Prop where
  ne_root : id ≠ root
  lt : id < t.size
  unnamed : (t.get id).name = ""
  others : ∀ i, i ≠ root → i ≠ id → i < t.size → (t.get i).name ≠ ""
  records : ∀ i, id < i → i < t.size → (t.get i).kind = .directive

/-- Whether an entity can get members. -/
structure Ready (t : Tree) (owner : EntityId) : Prop where
  calm : t.Calm
  lt : owner < t.size
  full : (t.get owner).forward = false

/-! ## Steps -/

/-- A step in the growth of a tree. -/
inductive Step : Tree → Tree → Prop where
  /-- A directive is recorded. -/
  | record (t : Tree) (r : Record) : Step t (t.addRecords [r])
  /-- An entity is added; parameters are added to operations. -/
  | add {t t' : Tree} {parent id : EntityId} {kind : EntityKind} {source : SourceId} {span : Span}
      {data : EntityData} (hReady : t.Ready parent) (hStarts : data.Starts kind)
      (hParameter : kind = .parameter ↔ (t.get parent).kind = .operation)
      (hRefers : ∀ d, data = .declaration d → t.Refers d.type)
      (hAdd : t.add parent kind source span data = .ok (id, t')) : Step t t'
  /-- A definition gets its bases. -/
  | inherit {t : Tree} {id : EntityId} {bases : List EntityId} (hOpen : t.Open id)
      (hKind : (t.get id).kind.supportsInheritance = true)
      (hBases : ∀ b ∈ bases, t.Named b ∧ (t.get b).kind = (t.get id).kind ∧
        (t.get b).forward = false) :
      Step t (t.modify id (Entity.mapDefinition fun d => { d with bases }))
  /-- A union gets the type of its discriminator. -/
  | switch {t : Tree} {id : EntityId} {type : DeclaredType} (hOpen : t.Open id)
      (hKind : (t.get id).kind = .union) (hRefers : t.Refers type)
      (hIntegral : (type.kind?.map Kind.isIntegral).getD false = true) :
      Step t (t.modify id (Entity.mapDefinition fun d => { d with switchType := some type }))
  /-- An entity gets its name; only parameters become no children. -/
  | name {t t' : Tree} {id found : EntityId} {name : String} {forward listed : Bool}
      (hOpen : t.Open id) (hName : IsName name)
      (hForward : forward = true → (t.get id).kind.isDefinition = true)
      (hListed : listed = true ↔ (t.get id).kind ≠ .parameter)
      (hSet : t.setName id name forward listed = .ok (found, t')) : Step t t'
  /-- An entity gets its comments or its end. -/
  | annotate {t : Tree} {id : EntityId} {f : Entity → Entity}
      (hf : ∀ e, Entity.Annotates e (f e)) : Step t (t.modify id f)
  /-- A declaration gets what is read behind its name. -/
  | complete {t : Tree} {id : EntityId} {f : Declaration → Declaration}
      (hf : ∀ d, Declaration.Completes d (f d))
      (hExceptions : ∀ d, ∀ x ∈ (f d).exceptions, x ∈ d.exceptions ∨ t.IsException x)
      (hParameters : ∀ d, ∀ x ∈ (f d).parameters, x ∈ d.parameters ∨ x < t.size) :
      Step t (t.modify id (Entity.mapDeclaration f))
  /-- The evaluation of a declaration starts. -/
  | start {t : Tree} {id : EntityId} :
      Step t (t.modify id (Entity.mapDeclaration fun d => { d with progress := .processing }))
  /-- The evaluation of a declaration ends. -/
  | finish {t : Tree} {id : EntityId} {sizes : List (Option Nat)} {value : ValueNode}
      {caseValues : List Constant} :
      Step t (t.modify id (Entity.mapDeclaration fun d =>
        { d with sizes, value, caseValues, progress := .done }))

/-- Any number of steps. -/
abbrev Steps : Tree → Tree → Prop := Relation.ReflTransGen Step

/-- Whether steps lead to a tree from the root alone. -/
def Reachable (t : Tree) : Prop := ∃ caseSensitive, Steps (initial caseSensitive) t

theorem Reachable.steps {t t' : Tree} (h : t.Reachable) (hSteps : Steps t t') :
    t'.Reachable := by
  obtain ⟨caseSensitive, hFirst⟩ := h
  exact ⟨caseSensitive, hFirst.trans hSteps⟩

/-- A step changes one entity in what does not matter for names, records a directive, adds an
entity or names one. -/
theorem Step.cases_names {t t' : Tree} (h : Step t t') :
    (∃ id f, (∀ e, Entity.Alike e (f e)) ∧ t' = t.modify id f) ∨
    (∃ r, t' = t.addRecords [r]) ∨
    (∃ parent kind source span data id, t.Ready parent ∧ EntityData.Starts kind data ∧
      (kind = .parameter ↔ (t.get parent).kind = .operation) ∧
      t.add parent kind source span data = .ok (id, t')) ∨
    ∃ id found name forward listed, t.Open id ∧ IsName name ∧
      (forward = true → (t.get id).kind.isDefinition = true) ∧
      t.setName id name forward listed = .ok (found, t') ∧ Naming t id name forward found t' := by
  cases h with
  | record r => exact Or.inr (Or.inl ⟨r, rfl⟩)
  | add hReady hStarts hParameter hRefers hAdd =>
    exact Or.inr (Or.inr (Or.inl ⟨_, _, _, _, _, _, hReady, hStarts, hParameter, hAdd⟩))
  | name hOpen hName hForward hListed hSet =>
    exact Or.inr (Or.inr (Or.inr ⟨_, _, _, _, _, hOpen, hName, hForward, hSet,
      naming_of_setName hOpen.lt hSet⟩))
  | inherit => exact Or.inl ⟨_, _, fun e => Entity.alike_mapDefinition _ e, rfl⟩
  | switch => exact Or.inl ⟨_, _, fun e => Entity.alike_mapDefinition _ e, rfl⟩
  | annotate hf => exact Or.inl ⟨_, _, fun e => (hf e).alike, rfl⟩
  | complete => exact Or.inl ⟨_, _, fun e => Entity.alike_mapDeclaration _ e, rfl⟩
  | start => exact Or.inl ⟨_, _, fun e => Entity.alike_mapDeclaration _ e, rfl⟩
  | finish => exact Or.inl ⟨_, _, fun e => Entity.alike_mapDeclaration _ e, rfl⟩

/-! ## What stays -/

/-- Whether a tree goes on with another one: all entities keep their kind and place, and those
with names and the root keep their names and scopes. -/
structure Extends (t t' : Tree) : Prop where
  size : t.size ≤ t'.size
  caseSensitive : t'.caseSensitive = t.caseSensitive
  kind : ∀ i, i < t.size → (t'.get i).kind = (t.get i).kind
  parent : ∀ i, i < t.size → (t'.get i).parent = (t.get i).parent
  settled : ∀ i, i < t.size → (i = root ∨ (t.get i).name ≠ "") →
    (t'.get i).name = (t.get i).name ∧ (t'.get i).forward = (t.get i).forward ∧
      (t'.get i).scope = (t.get i).scope

theorem Extends.refl (t : Tree) : Extends t t where
  size := Nat.le_refl _
  caseSensitive := rfl
  kind := fun _ _ => rfl
  parent := fun _ _ => rfl
  settled := fun _ _ _ => ⟨rfl, rfl, rfl⟩

theorem Extends.trans {t t' t'' : Tree} (h : Extends t t') (h' : Extends t' t'') :
    Extends t t'' where
  size := Nat.le_trans h.size h'.size
  caseSensitive := h'.caseSensitive.trans h.caseSensitive
  kind := fun i hi => (h'.kind i (Nat.lt_of_lt_of_le hi h.size)).trans (h.kind i hi)
  parent := fun i hi => (h'.parent i (Nat.lt_of_lt_of_le hi h.size)).trans (h.parent i hi)
  settled := by
    intro i hi hSettled
    obtain ⟨hName, hForward, hScope⟩ := h.settled i hi hSettled
    have hStill : i = root ∨ (t'.get i).name ≠ "" := by
      rw [hName]
      exact hSettled
    obtain ⟨hName', hForward', hScope'⟩ := h'.settled i (Nat.lt_of_lt_of_le hi h.size) hStill
    exact ⟨hName'.trans hName, hForward'.trans hForward, hScope'.trans hScope⟩

theorem extends_of_alike {t t' : Tree} (hSize : t.size ≤ t'.size)
    (hCase : t'.caseSensitive = t.caseSensitive)
    (h : ∀ i, i < t.size → Entity.Alike (t.get i) (t'.get i)) : Extends t t' where
  size := hSize
  caseSensitive := hCase
  kind := fun i hi => (h i hi).kind
  parent := fun i hi => (h i hi).parent
  settled := fun i hi _ => ⟨(h i hi).name, (h i hi).forward, (h i hi).scope⟩

/-- Naming an entity changes no other one. -/
theorem Naming.renames {t t' : Tree} {id found : EntityId} {name : String} {forward : Bool}
    (h : Naming t id name forward found t') :
    ∃ e, Renames t t' id e ∧ e.kind = (t.get id).kind ∧ e.parent = (t.get id).parent ∧
      e.name = name := by
  cases h with
  | fresh _ _ _ hRenames => exact ⟨_, hRenames, rfl, rfl, rfl⟩
  | repeated _ _ _ _ hRenames => exact ⟨_, hRenames, rfl, rfl, rfl⟩
  | reopened _ _ _ _ _ hRenames => exact ⟨_, hRenames, rfl, rfl, rfl⟩
  | completed _ _ _ _ _ _ hRenames => exact ⟨_, hRenames, rfl, rfl, rfl⟩

theorem Naming.extends {t t' : Tree} {id found : EntityId} {name : String} {forward : Bool}
    (hOpen : t.Open id) (h : Naming t id name forward found t') : Extends t t' := by
  obtain ⟨e, hRenames, hKind, hParent, -⟩ := h.renames
  refine ⟨Nat.le_of_eq hRenames.size.symm, hRenames.caseSensitive, ?_, ?_, ?_⟩
  · intro i _
    by_cases hi : i = id
    · rw [hi, hRenames.self.kind, hKind]
    · exact (hRenames.others i hi).kind
  · intro i _
    by_cases hi : i = id
    · rw [hi, hRenames.self.parent, hParent]
    · exact (hRenames.others i hi).parent
  · intro i _ hSettled
    have hi : i ≠ id := by
      intro hEq
      rcases hSettled with hRoot | hName
      · exact hOpen.ne_root (hEq.symm.trans hRoot)
      · rw [hEq] at hName
        exact hName hOpen.unnamed
    have hAlike := hRenames.others i hi
    exact ⟨hAlike.name, hAlike.forward, hAlike.scope⟩

theorem extends_add {t t' : Tree} {parent id : EntityId} {kind : EntityKind} {source : SourceId}
    {span : Span} {data : EntityData}
    (h : t.add parent kind source span data = .ok (id, t')) : Extends t t' := by
  obtain ⟨-, -, hSize, hCase, -, hGet⟩ := add_eq_ok h
  refine extends_of_alike (by omega) hCase ?_
  intro i hi
  rw [hGet, if_neg (Nat.ne_of_lt hi)]
  exact Entity.Alike.refl _

theorem Step.extends {t t' : Tree} (hPos : 0 < t.size) (h : Step t t') : Extends t t' := by
  rcases h.cases_names with ⟨id, f, hf, rfl⟩ | ⟨r, rfl⟩ | ⟨_, _, _, _, _, _, -, -, -, hAdd⟩ |
    ⟨_, _, _, _, _, hOpen, -, -, -, hNaming⟩
  · exact extends_of_alike (Nat.le_of_eq (size_modify _ _ _).symm) rfl fun i _ => alike_modify hf i
  · refine extends_of_alike ?_ rfl fun i hi => alike_addRecords_singleton hPos r hi
    rw [size_addRecords_singleton]
    omega
  · exact extends_add hAdd
  · exact hNaming.extends hOpen

theorem size_pos_initial (caseSensitive : Bool) : 0 < (initial caseSensitive).size := Nat.one_pos

theorem Steps.extends {t t' : Tree} (hPos : 0 < t.size) (h : Steps t t') : Extends t t' := by
  induction h with
  | refl => exact Extends.refl t
  | tail _ hStep ih => exact ih.trans (hStep.extends (Nat.lt_of_lt_of_le hPos ih.size))

theorem Reachable.size_pos {t : Tree} (h : t.Reachable) : 0 < t.size := by
  obtain ⟨caseSensitive, hSteps⟩ := h
  exact Nat.lt_of_lt_of_le (size_pos_initial caseSensitive)
    (hSteps.extends (size_pos_initial _)).size

theorem Extends.named {t t' : Tree} (h : Extends t t') {id : EntityId} (hNamed : t.Named id) :
    t'.Named id :=
  ⟨Nat.lt_of_lt_of_le hNamed.1 h.size, by
    rw [(h.settled id hNamed.1 (Or.inr hNamed.2)).1]
    exact hNamed.2⟩

theorem Extends.isType {t t' : Tree} (h : Extends t t') {id : EntityId} (hType : t.IsType id) :
    t'.IsType id :=
  ⟨h.named hType.1, by
    rw [h.kind id hType.1.1]
    exact hType.2⟩

theorem Extends.isException {t t' : Tree} (h : Extends t t') {id : EntityId}
    (hException : t.IsException id) : t'.IsException id :=
  ⟨h.named hException.1, by
    rw [h.kind id hException.1.1]
    exact hException.2⟩

theorem Extends.refers {t t' : Tree} (h : Extends t t') {type : DeclaredType}
    (hRefers : t.Refers type) : t'.Refers type := fun id hId => h.isType (hRefers id hId)

theorem Extends.ready {t t' : Tree} (h : Extends t t') (hCalm : t'.Calm) {owner : EntityId}
    (hReady : t.Ready owner) : t'.Ready owner where
  calm := hCalm
  lt := Nat.lt_of_lt_of_le hReady.lt h.size
  full := by
    have hSettled : owner = root ∨ (t.get owner).name ≠ "" := by
      by_cases hRoot : owner = root
      · exact Or.inl hRoot
      · exact Or.inr (hReady.calm owner hRoot hReady.lt)
    rw [(h.settled owner hReady.lt hSettled).2.1]
    exact hReady.full

/-! ## Names come one after the other -/

/-- An entity that was added is the one without a name. -/
theorem open_add {t t' : Tree} {parent id : EntityId} {kind : EntityKind} {source : SourceId}
    {span : Span} {data : EntityData} (hPos : 0 < t.size) (hCalm : t.Calm)
    (h : t.add parent kind source span data = .ok (id, t')) : t'.Open id := by
  obtain ⟨-, rfl, hSize, -, -, hGet⟩ := add_eq_ok h
  refine ⟨Nat.ne_of_gt hPos, hSize ▸ Nat.lt_succ_self _, ?_, ?_, ?_⟩
  · rw [hGet, if_pos rfl]
  · intro i hRoot hi hLt
    rw [hSize] at hLt
    rw [hGet, if_neg hi]
    exact hCalm i hRoot (lt_of_lt_succ hLt hi)
  · intro i hi hLt
    rw [hSize] at hLt
    exact absurd (Nat.le_of_lt_succ hLt) (Nat.not_le_of_lt hi)

/-- When the entity without a name has got one, all have names. -/
theorem calm_name {t t' : Tree} {id found : EntityId} {name : String} {forward : Bool}
    (hOpen : t.Open id) (hName : IsName name) (h : Naming t id name forward found t') :
    t'.Calm := by
  obtain ⟨e, hRenames, -, -, hNew⟩ := h.renames
  intro i hRoot hLt
  by_cases hi : i = id
  · rw [hi, hRenames.self.name, hNew]
    exact hName.ne_empty
  · rw [(hRenames.others i hi).name]
    exact hOpen.others i hRoot hi (hRenames.size ▸ hLt)

theorem Calm.modify {t : Tree} (h : t.Calm) {id : EntityId} {f : Entity → Entity}
    (hf : ∀ e, Entity.Alike e (f e)) : (t.modify id f).Calm := by
  intro i hRoot hLt
  rw [(alike_modify hf i).name]
  exact h i hRoot (by simpa using hLt)

theorem Calm.record {t : Tree} (hPos : 0 < t.size) (h : t.Calm) (r : Record) :
    (t.addRecords [r]).Calm := by
  intro i hRoot hLt
  rw [size_addRecords_singleton] at hLt
  by_cases hi : i = t.size
  · rw [hi, (get_addRecords_singleton_size hPos r).name]
    exact recordName_ne_empty _
  · have hOld : i < t.size := lt_of_lt_succ hLt hi
    rw [(alike_addRecords_singleton hPos r hOld).name]
    exact h i hRoot hOld

theorem Open.modify {t : Tree} {id i : EntityId} (h : t.Open id) {f : Entity → Entity}
    (hf : ∀ e, Entity.Alike e (f e)) : (t.modify i f).Open id where
  ne_root := h.ne_root
  lt := by
    rw [size_modify]
    exact h.lt
  unnamed := by
    rw [(alike_modify hf id).name]
    exact h.unnamed
  others := fun j hRoot hj hLt => by
    rw [(alike_modify hf j).name]
    exact h.others j hRoot hj (by simpa using hLt)
  records := fun j hj hLt => by
    rw [(alike_modify hf j).kind]
    exact h.records j hj (by simpa using hLt)

theorem Open.record {t : Tree} {id : EntityId} (h : t.Open id) (r : Record) :
    (t.addRecords [r]).Open id := by
  have hPos : 0 < t.size := Nat.zero_lt_of_lt h.lt
  have hNew := get_addRecords_singleton_size hPos r
  refine ⟨h.ne_root, ?_, ?_, ?_, ?_⟩
  · rw [size_addRecords_singleton]
    exact Nat.lt_succ_of_lt h.lt
  · rw [(alike_addRecords_singleton hPos r h.lt).name]
    exact h.unnamed
  · intro i hRoot hi hLt
    rw [size_addRecords_singleton] at hLt
    by_cases hEq : i = t.size
    · rw [hEq, hNew.name]
      exact recordName_ne_empty _
    · have hOld := lt_of_lt_succ hLt hEq
      rw [(alike_addRecords_singleton hPos r hOld).name]
      exact h.others i hRoot hi hOld
  · intro i hi hLt
    rw [size_addRecords_singleton] at hLt
    by_cases hEq : i = t.size
    · rw [hEq]
      exact hNew.kind
    · have hOld := lt_of_lt_succ hLt hEq
      rw [(alike_addRecords_singleton hPos r hOld).kind]
      exact h.records i hi hOld

end Tree

end IdlReader
