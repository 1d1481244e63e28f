import IdlReader.Entity.Fingerprint
import IdlReader.Proofs.Token.Alike
import IdlReader.Proofs.Tree.Access

/-!
# Trees without places

Where an entity stands, what its comments say and where the tokens that it keeps stand is the layout of
its source. Fingerprints do not depend on it: entities of trees that differ in nothing else have the same
fingerprints.

* `Entity.unplaced`: an entity without what its layout gives it.
* `SameUnplaced.fingerprint`: fingerprints.
-/

namespace IdlReader

/-- A declaration of which the tokens stand at no place. -/
def Declaration.unplaced (d : Declaration) : Declaration :=
  { d with
    dimensions := d.dimensions.map (List.map Token.unplaced)
    assignment := d.assignment.map Token.unplaced
    labels := d.labels.map (List.map Token.unplaced) }

/-- What the entities of a kind have, without the places of tokens. -/
def EntityData.unplaced : EntityData → EntityData
  | .declaration d => .declaration d.unplaced
  | data => data

/-- An entity without its place and its comments. -/
def Entity.unplaced (e : Entity) : Entity :=
  { e with
    source := 0
    span := Span.point ⟨0, 0⟩
    comments := ""
    commentFlags := {}
    data := e.data.unplaced }

theorem joinTexts_unplaced (ts : List Token) : joinTexts (ts.map Token.unplaced) = joinTexts ts := by
  rw [joinTexts, joinTexts, List.map_map]
  rfl

namespace Tree

variable {t t' : Tree}

theorem declarationTraits_unplaced (t : Tree) (entity : EntityId → List Trait) (d : Declaration) :
    t.declarationTraits entity d.unplaced = t.declarationTraits entity d := by
  have hTexts : ∀ l : List (List Token), (l.map (List.map Token.unplaced)).map
      (fun ts => Trait.text (joinTexts ts)) = l.map fun ts => .text (joinTexts ts) := by
    intro l
    rw [List.map_map]
    exact List.map_congr_left fun ts _ => congrArg Trait.text (joinTexts_unplaced ts)
  unfold declarationTraits Declaration.unplaced Declaration.assignmentText
  rw [hTexts, hTexts, joinTexts_unplaced]

theorem dataTraits_unplaced (t : Tree) (entity : EntityId → List Trait) (data : EntityData) :
    t.dataTraits entity data.unplaced = t.dataTraits entity data := by
  cases data with
  | declaration d => exact t.declarationTraits_unplaced entity d
  | root | record | definition => rfl

/-! ## Trees that differ in their layout -/

/-- The entities of two trees, without their places and comments, are the same in the same order. -/
abbrev SameUnplaced (t t' : Tree) : Prop :=
  t.entities.map Entity.unplaced = t'.entities.map Entity.unplaced

namespace SameUnplaced

theorem of_get (hSize : t.size = t'.size) (h : ∀ i, (t.get i).unplaced = (t'.get i).unplaced) :
    SameUnplaced t t' := by
  refine Array.ext ?_ fun i hi hi' => ?_
  · rw [Array.size_map, Array.size_map]
    exact hSize
  · rw [Array.size_map] at hi hi'
    have hGet := h i
    unfold get at hGet
    rw [Array.getElem?_eq_getElem hi, Array.getElem?_eq_getElem hi'] at hGet
    rw [Array.getElem_map, Array.getElem_map]
    exact hGet

theorem size_eq (h : SameUnplaced t t') : t.size = t'.size := by
  have hSize := congrArg Array.size h
  rwa [Array.size_map, Array.size_map] at hSize

theorem get (h : SameUnplaced t t') (i : EntityId) : (t.get i).unplaced = (t'.get i).unplaced := by
  have hDefault : ∀ o : Option Entity, (o.getD default).unplaced = (o.map Entity.unplaced).getD
      (default : Entity).unplaced := by
    intro o
    cases o <;> rfl
  rw [Tree.get, Tree.get, hDefault, hDefault, ← Array.getElem?_map, ← Array.getElem?_map, h]

theorem kind (h : SameUnplaced t t') (i : EntityId) : (t.get i).kind = (t'.get i).kind := by
  change (t.get i).unplaced.kind = (t'.get i).unplaced.kind
  rw [h.get i]

theorem name (h : SameUnplaced t t') (i : EntityId) : (t.get i).name = (t'.get i).name := by
  change (t.get i).unplaced.name = (t'.get i).unplaced.name
  rw [h.get i]

theorem parent (h : SameUnplaced t t') (i : EntityId) : (t.get i).parent = (t'.get i).parent := by
  change (t.get i).unplaced.parent = (t'.get i).unplaced.parent
  rw [h.get i]

theorem children (h : SameUnplaced t t') (i : EntityId) : (t.get i).children = (t'.get i).children := by
  change (t.get i).unplaced.children = (t'.get i).unplaced.children
  rw [h.get i]

theorem data (h : SameUnplaced t t') (i : EntityId) :
    (t.get i).data.unplaced = (t'.get i).data.unplaced := by
  change (t.get i).unplaced.data = (t'.get i).unplaced.data
  rw [h.get i]

theorem parameters (h : SameUnplaced t t') (i : EntityId) : t.parameters i = t'.parameters i := by
  have hParameters : ∀ e : Entity, (e.declaration?.map Declaration.parameters).getD [] =
      (e.unplaced.declaration?.map Declaration.parameters).getD [] := by
    intro e
    unfold Entity.declaration? Entity.unplaced EntityData.unplaced
    cases e.data <;> rfl
  unfold Tree.parameters
  rw [hParameters, hParameters (t'.get i), h.get i]

theorem scopedName (h : SameUnplaced t t') (i : EntityId) : t.scopedName i = t'.scopedName i := by
  have hEnclosing : ∀ n i, t.enclosingWithin n i = t'.enclosingWithin n i := by
    intro n
    induction n with
    | zero => exact fun _ => rfl
    | succ n ih =>
      intro i
      rw [enclosingWithin, enclosingWithin, h.parent i]
      cases (t'.get i).parent with
      | none => rfl
      | some p => exact congrArg (i :: ·) (ih p)
  unfold Tree.scopedName enclosing
  simp only [hEnclosing, h.size_eq, h.kind, h.name]

/-- Entities depend on the same things. -/
theorem traits (h : SameUnplaced t t') (i : EntityId) : t.traits i = t'.traits i := by
  have hNames : ∀ ids, t.nameTraits ids = t'.nameTraits ids := fun ids =>
    List.map_congr_left fun i _ => congrArg Trait.text (h.scopedName i)
  have hData : ∀ (entity : EntityId → List Trait) (data : EntityData),
      t.dataTraits entity data = t'.dataTraits entity data := by
    intro entity data
    cases data with
    | root | record => rfl
    | definition d =>
      change t.definitionTraits entity d = t'.definitionTraits entity d
      rw [definitionTraits, definitionTraits, hNames]
    | declaration d =>
      change t.declarationTraits entity d = t'.declarationTraits entity d
      simp only [declarationTraits, hNames]
  have hWithin : ∀ n around, t.traitsWithin n around = t'.traitsWithin n around := by
    intro n
    induction n with
    | zero => exact fun _ => rfl
    | succ n ih =>
      intro around
      funext i
      rw [traitsWithin, traitsWithin, h.scopedName i, ih]
      dsimp only
      rw [h.kind i, h.children i, h.parameters i, ← t.dataTraits_unplaced, h.data i, hData,
        t'.dataTraits_unplaced]
  rw [Tree.traits, Tree.traits, h.size_eq, hWithin]

/-- Fingerprints do not depend on the layout. -/
theorem fingerprint (h : SameUnplaced t t') (i : EntityId) : t.fingerprint i = t'.fingerprint i :=
  fingerprint_eq_of_traits_eq (h.traits i)

end SameUnplaced

end Tree

end IdlReader
