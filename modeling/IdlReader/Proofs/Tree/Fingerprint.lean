import IdlReader.Entity.Fingerprint
import IdlReader.Proofs.Tree.ScopedName
import Mathlib.Data.List.Basic

/-!
# The walk behind a fingerprint

What an entity depends on is listed by a walk: from an entity to its types, its members and its
parameters, and from each of them on. Types refer to each other in circles, so the walk goes back
from every entity that it is inside of. `Tree.Walk` is this walk without a bound. It ends from every
entity, and the bound of `Tree.traits` is never met.

* `walk_traitsWithin`: the walk ends under a bound above the number of entities that it is not
  inside of.
* `walk_iff`: the traits of an entity are what its walk lists.
* `Framed.climbs_enclosing`: the entities around an entity end at the root.
-/

namespace IdlReader

namespace DeclaredType

variable {entity entity' : EntityId → List Trait}

mutual

/-- The traits of a type depend on what it refers to only. -/
theorem traits_congr (type : DeclaredType) (h : ∀ i ∈ type.references, entity i = entity' i) :
    type.traits entity = type.traits entity' := by
  match type, h with
  | ⟨_, _, definition, _, _, key, value⟩, h =>
    have hDefinition : definition.map entity = definition.map entity' := by
      cases definition with
      | none => rfl
      | some i =>
        have hi := h i (by simp [references])
        rw [Option.map_some, Option.map_some, hi]
    have hKey := optionalTraits_congr key fun i hi => h i (by simp [references, hi])
    have hValue := optionalTraits_congr value fun i hi => h i (by simp [references, hi])
    rw [traits, traits, hDefinition, hKey, hValue]

theorem optionalTraits_congr (type : Option DeclaredType)
    (h : ∀ i ∈ optionReferences type, entity i = entity' i) :
    optionalTraits entity type = optionalTraits entity' type := by
  match type, h with
  | none, _ => rfl
  | some type, h =>
    rw [optionalTraits, optionalTraits]
    exact traits_congr type h

end

end DeclaredType

/-- The entities that the types of an entity refer to. -/
def EntityData.references : EntityData → List EntityId
  | .definition d => DeclaredType.optionReferences d.switchType
  | .declaration d => d.type.references
  | .root _ | .record _ _ => []

namespace Tree

variable {t : Tree}

theorem dataTraits_congr {entity entity' : EntityId → List Trait} (data : EntityData)
    (h : ∀ i ∈ data.references, entity i = entity' i) :
    t.dataTraits entity data = t.dataTraits entity' data := by
  cases data with
  | root | record => rfl
  | definition d =>
    rw [dataTraits, dataTraits, definitionTraits, definitionTraits,
      DeclaredType.optionalTraits_congr _ h]
  | declaration d =>
    rw [dataTraits, dataTraits, declarationTraits, declarationTraits, d.type.traits_congr h]

/-- The entities that the walk goes to from an entity. -/
def dependencies (t : Tree) (id : EntityId) : List EntityId :=
  (t.get id).data.references ++ (t.get id).children ++ t.parameters id

/-- The traits of an entity that is not gone back from; `inner` lists those of its dependencies. -/
def ownTraits (t : Tree) (inner : EntityId → List Trait) (id : EntityId) : List Trait :=
  .text (t.scopedName id) :: .text (t.get id).kind.keyword ::
    (t.dataTraits inner (t.get id).data ++ (t.get id).children.flatMap inner ++
      (t.parameters id).flatMap inner)

/-- The walk from an entity ends inside of the entities `around`, and lists these traits. -/
inductive Walk (t : Tree) : (around : List EntityId) → EntityId → List Trait → Prop where
  | back {around : List EntityId} {id : EntityId} (h : id ∈ around) :
      Walk t around id [.text (t.scopedName id)]
  | on {around : List EntityId} {id : EntityId} {inner : EntityId → List Trait} (h : id ∉ around)
      (hInner : ∀ i ∈ t.dependencies id, Walk t (id :: around) i (inner i)) :
      Walk t around id (t.ownTraits inner id)

theorem ownTraits_congr {inner inner' : EntityId → List Trait} {id : EntityId}
    (h : ∀ i ∈ t.dependencies id, inner i = inner' i) :
    t.ownTraits inner id = t.ownTraits inner' id := by
  have hData : t.dataTraits inner (t.get id).data = t.dataTraits inner' (t.get id).data := by
    apply dataTraits_congr
    intro i hi
    exact h i (by simp [dependencies, hi])
  have hChildren : (t.get id).children.flatMap inner = (t.get id).children.flatMap inner' := by
    apply List.flatMap_congr
    intro i hi
    exact h i (by simp [dependencies, hi])
  have hParameters : (t.parameters id).flatMap inner = (t.parameters id).flatMap inner' := by
    apply List.flatMap_congr
    intro i hi
    exact h i (by simp [dependencies, hi])
  rw [ownTraits, ownTraits, hData, hChildren, hParameters]

theorem traitsWithin_succ (n : Nat) (around : List EntityId) (id : EntityId) :
    t.traitsWithin (n + 1) around id =
      if id ∈ around then [.text (t.scopedName id)]
      else t.ownTraits (t.traitsWithin n (id :: around)) id := by
  rw [traitsWithin]
  by_cases h : id ∈ around
  · rw [if_pos h, if_pos (List.contains_iff_mem.mpr h)]
  · rw [if_neg h, if_neg (mt List.contains_iff_mem.mp h)]
    rfl

/-- The walk lists one thing only. -/
theorem Walk.unique {around : List EntityId} {id : EntityId} {ts us : List Trait}
    (h : t.Walk around id ts) (h' : t.Walk around id us) : ts = us := by
  induction h generalizing us with
  | back hMem =>
    cases h' with
    | back => rfl
    | on hNot => exact absurd hMem hNot
  | on hNot _ ih =>
    cases h' with
    | back hMem => exact absurd hMem hNot
    | on _ hInner => exact ownTraits_congr fun i hi => ih i hi (hInner i hi)

/-- The entities that the walk is not inside of. -/
def outside (t : Tree) (around : List EntityId) : List EntityId :=
  (List.range t.size).filter fun i => i ∉ around

theorem length_outside_cons {around : List EntityId} {id : EntityId} (hLt : id < t.size)
    (h : id ∉ around) : (t.outside (id :: around)).length < (t.outside around).length := by
  have hFilter : t.outside (id :: around) = (t.outside around).filter fun i => i ≠ id := by
    rw [outside, outside, List.filter_filter]
    apply List.filter_congr
    intro i _
    simp [not_or]
  rw [hFilter]
  apply List.length_filter_lt_length_iff_exists.mpr
  exact ⟨id, by simp [outside, hLt, h], by simp⟩

/-- Where there is no entity nothing is to be walked to. -/
theorem dependencies_of_le {id : EntityId} (h : ¬ id < t.size) : t.dependencies id = [] := by
  rw [dependencies, parameters, get_of_le h]
  rfl

/-- The walk ends: every entity that it goes into leaves one entity less outside. -/
theorem walk_traitsWithin {n : Nat} {around : List EntityId} (id : EntityId)
    (h : (t.outside around).length < n) : t.Walk around id (t.traitsWithin n around id) := by
  induction n generalizing around id with
  | zero => cases h
  | succ n ih =>
    rw [traitsWithin_succ]
    by_cases hMem : id ∈ around
    · rw [if_pos hMem]
      exact .back hMem
    · rw [if_neg hMem]
      apply Walk.on hMem
      intro i hi
      by_cases hLt : id < t.size
      · have hLess := length_outside_cons hLt hMem
        exact ih i (by omega)
      · rw [dependencies_of_le hLt] at hi
        cases hi

/-- The traits of an entity are what its walk lists, however types refer to each other. -/
theorem walk_iff (t : Tree) (id : EntityId) (ts : List Trait) :
    t.Walk [] id ts ↔ ts = t.traits id := by
  have hOutside : (t.outside []).length ≤ t.size := by
    have hLength := List.length_filter_le (fun i => decide (i ∉ [])) (List.range t.size)
    rwa [List.length_range] at hLength
  have hWalk := walk_traitsWithin id (Nat.lt_succ_of_le hOutside)
  constructor
  · intro h
    exact h.unique hWalk
  · rintro rfl
    exact hWalk

/-! ## Scoped names -/

/-- The entities from an entity up to one that nothing encloses. -/
inductive Climbs (t : Tree) : EntityId → List EntityId → Prop where
  | top {id : EntityId} (h : (t.get id).parent = none) : Climbs t id [id]
  | up {id p : EntityId} {ids : List EntityId} (h : (t.get id).parent = some p)
      (hUp : Climbs t p ids) : Climbs t id (id :: ids)

theorem Framed.climbs_enclosing (h : t.Framed) (id : EntityId) : t.Climbs id (t.enclosing id) := by
  induction id using Nat.strongRecOn with
  | ind id ih =>
    cases hParent : (t.get id).parent with
    | none =>
      unfold enclosing
      rw [enclosingWithin, hParent]
      exact .top hParent
    | some p =>
      have hLt := lt_size_of_parent hParent
      rw [h.enclosing_of_parent hLt hParent]
      exact .up hParent (ih p (h.parent_lt hLt hParent))

end Tree

end IdlReader
