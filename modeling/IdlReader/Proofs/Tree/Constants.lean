import IdlReader.Proofs.Grammar.Reading
import IdlReader.Proofs.Stage.Sibling

/-!
# Constants in a tree

What a tree holds in which nothing but constants was read, in a module (`Tree.Holds`) or outside of
modules (`Tree.Outside`), and what becomes of it when a constant is added or one of them is
evaluated. A name is free unless one of the constants has it.

* `setName_fresh`: giving a name that is free.
* `HasConstants.declare`: one more constant.
* `HasConstants.find`: the names of the constants.
* `Outside.accepts`: the first constant.
-/

namespace IdlReader

namespace Tree

variable {t t' : Tree}

/-! ## Names that are free -/

theorem lookup_of_mem {l : List (String × EntityId)} (hKeys : (l.map Prod.fst).Nodup)
    {key : String} {id : EntityId} (h : (key, id) ∈ l) : l.lookup key = some id := by
  induction l with
  | nil => cases h
  | cons p l ih =>
    rw [List.map_cons, List.nodup_cons] at hKeys
    rw [List.lookup_cons]
    rcases List.mem_cons.mp h with rfl | h
    · rw [beq_self_eq_true]
    · have hNe : key ≠ p.1 := fun hEq => hKeys.1 (List.mem_map.mpr ⟨_, h, hEq⟩)
      rw [beq_eq_false_iff_ne.mpr hNe]
      exact ih hKeys.2 h

theorem exists_add {parent : EntityId} (h : (t.get parent).kind.supportsChildren = true)
    (kind : EntityKind) (source : SourceId) (span : Span) (data : EntityData) :
    ∃ t', t.add parent kind source span data = .ok (t.size, t') := by
  unfold add
  dsimp only
  rw [h]
  exact ⟨_, rfl⟩

/-- A name that is free is given to an entity, which becomes a child. -/
theorem setName_fresh {id parent : EntityId} {scope : ScopeId} {name : String}
    (hId : id < t.size) (hLt : parent < t.size) (hNe : id ≠ parent)
    (hParent : (t.get id).parent = some parent) (hScope : (t.get parent).scope = some scope)
    (hBases : t.lookupInBases parent (t.key name) = none)
    (hFree : (t.scope scope).get? (isDeclarationName (t.get id).kind) (t.key name) = none) :
    ∃ t', t.setName id name false true = .ok (id, t') ∧ t'.size = t.size ∧
      t'.caseSensitive = t.caseSensitive ∧
      t'.scopes =
        (t.insertName scope (isDeclarationName (t.get id).kind) (t.key name) id).scopes ∧
      t'.get id = { t.get id with name, forward := false } ∧
      t'.get parent = { t.get parent with children := (t.get parent).children ++ [id] } ∧
      ∀ i, i ≠ id → i ≠ parent → t'.get i = t.get i := by
  let named := t.rename id name
  let entered := named.insertName scope (isDeclarationName (t.get id).kind) (t.key name) id
  let full := entered.modify id fun e => { e with forward := false }
  have hGet : ∀ i, full.get i =
      if i = id then { t.get id with name, forward := false } else t.get i := by
    intro i
    have hEntered : ∀ j, entered.get j = (t.modify id fun e => { e with name }).get j := fun _ => rfl
    have hSize : id < entered.size := by
      change id < (t.modify id _).size
      rw [size_modify]
      exact hId
    by_cases hi : i = id
    · rw [if_pos hi, hi, get_modify_self hSize, hEntered, get_modify_self hId]
    · rw [if_neg hi, get_modify_of_ne hi, hEntered, get_modify_of_ne hi]
  have hSize : parent < full.size := by
    change parent < ((t.modify id _).insertName _ _ _ _ |>.modify id _).size
    rw [size_modify]
    change parent < (t.modify id _).size
    rw [size_modify]
    exact hLt
  refine ⟨full.addChild parent id, ?_, ?_, rfl, rfl, ?_, ?_, ?_⟩
  · refine setName_eq_ok.mpr ⟨parent, scope, hParent, hScope, hBases, ?_⟩
    have hOutcome : (t.rename id name).nameOutcome (t.get id).kind false
        (((t.rename id name).scope scope).get? (isDeclarationName (t.get id).kind)
          ((t.rename id name).key name)) = .ok .fresh := by
      change (t.rename id name).nameOutcome _ _ ((t.scope scope).get? _ (t.key name)) = _
      rw [hFree]
      rfl
    unfold enterName
    dsimp only
    rw [kind_rename, hOutcome]
    rfl
  · rw [addChild, size_modify, size_modify]
    exact size_modify _ _ _
  · rw [addChild, get_modify_of_ne hNe, hGet, if_pos rfl]
  · rw [addChild, get_modify_self hSize, hGet, if_neg fun h => hNe h.symm]
  · intro i hi hParentNe
    rw [addChild, get_modify_of_ne hParentNe, hGet, if_neg hi]

/-! ## Before the constants -/

/-- Whether nothing but recorded directives is in a tree with certain scopes. -/
structure Blank (t : Tree) (caseSensitive : Bool) (scopes : Array Scope) : Prop where
  caseSensitive : t.caseSensitive = caseSensitive
  scopes : t.scopes = scopes
  pos : root < t.size
  rootKind : (t.get root).kind = .root
  rootChildren : (t.get root).children = []
  rootScope : (t.get root).scope = some 0
  rootDefinition : (t.get root).definition? = none

theorem blank_initial (caseSensitive : Bool) : (initial caseSensitive).Blank caseSensitive #[{}] :=
  ⟨rfl, rfl, Nat.one_pos, rfl, rfl, rfl, rfl⟩

theorem Blank.retains {caseSensitive : Bool} {scopes : Array Scope} (hRetains : Retains t t')
    (h : t.Blank caseSensitive scopes) : t'.Blank caseSensitive scopes := by
  have hRoot := hRetains.entity root h.pos
  exact ⟨hRetains.caseSensitive.trans h.caseSensitive, hRetains.scopes.trans h.scopes,
    Nat.lt_of_lt_of_le h.pos hRetains.size, hRoot.kind.trans h.rootKind,
    hRoot.children.trans h.rootChildren, hRoot.scope.trans h.rootScope,
    hRoot.definition.trans h.rootDefinition⟩

/-- Whether a tree holds nothing but a module that has no name yet. -/
structure Unnamed (t : Tree) (caseSensitive : Bool) (owner : EntityId) : Prop
    extends t.Blank caseSensitive #[{}, {}] where
  ne_root : owner ≠ root
  lt : owner < t.size
  kind : (t.get owner).kind = .module
  parent : (t.get owner).parent = some root
  scope : (t.get owner).scope = some 1
  children : (t.get owner).children = []
  anonymous : (t.get owner).anonymous = false
  definition : ∃ d, (t.get owner).definition? = some d ∧ d.bases = []

theorem Blank.lasting {caseSensitive : Bool} {scopes : Array Scope} :
    Lasting fun t => t.Blank caseSensitive scopes :=
  fun _ _ hRecords => Blank.retains hRecords.toRetains

theorem Unnamed.lasting {caseSensitive : Bool} {owner : EntityId} :
    Lasting fun t => t.Unnamed caseSensitive owner := by
  intro t t' hRecords h
  have hRetains := hRecords.toRetains
  have hOwner := hRetains.entity owner h.lt
  refine ⟨h.toBlank.retains hRetains, h.ne_root, Nat.lt_of_lt_of_le h.lt hRetains.size,
    hOwner.kind.trans h.kind, hOwner.parent.trans h.parent, hOwner.scope.trans h.scope,
    hOwner.children.trans h.children, hOwner.anonymous.trans h.anonymous, ?_⟩
  rw [hOwner.definition]
  exact h.definition

/-- A module is added. -/
theorem Blank.addModule {caseSensitive : Bool} (h : t.Blank caseSensitive #[{}])
    (source : SourceId) (span : Span) :
    ∃ id t', t.add root .module source span (.definition {}) = .ok (id, t') ∧
      t'.Unnamed caseSensitive id := by
  have hSupports : (t.get root).kind.supportsChildren = true := by
    rw [h.rootKind]
    rfl
  obtain ⟨t', hAdd⟩ := exists_add hSupports .module source span (.definition {})
  obtain ⟨-, -, hSize, hCase, hScopes, hGet⟩ := add_eq_ok hAdd
  have hRoot : t'.get root = t.get root := by rw [hGet, if_neg (Nat.ne_of_lt h.pos)]
  have hSelf := hGet t.size
  rw [if_pos rfl] at hSelf
  refine ⟨t.size, t', hAdd, ?_⟩
  exact
    { caseSensitive := hCase.trans h.caseSensitive
      scopes := by rw [hScopes, h.scopes]; rfl
      pos := hSize ▸ Nat.lt_succ_of_lt h.pos
      rootKind := by rw [hRoot]; exact h.rootKind
      rootChildren := by rw [hRoot]; exact h.rootChildren
      rootScope := by rw [hRoot]; exact h.rootScope
      rootDefinition := by rw [hRoot]; exact h.rootDefinition
      ne_root := Nat.ne_of_gt h.pos
      lt := hSize ▸ Nat.lt_succ_self _
      kind := by rw [hSelf]
      parent := by rw [hSelf]
      scope := by rw [hSelf, h.scopes]; rfl
      children := by rw [hSelf]
      anonymous := by rw [hSelf]
      definition := by rw [hSelf]; exact ⟨{}, rfl, rfl⟩ }

/-! ## The tree -/

/-- A constant in a tree. -/
structure ConstMember where
  id : EntityId
  name : String
  declaration : Declaration

/-- Whether a member stands in an entity of a tree. -/
structure ConstMember.Stands (x : ConstMember) (t : Tree) (owner : EntityId) : Prop where
  ne : x.id ≠ owner
  ne_root : x.id ≠ root
  lt : x.id < t.size
  kind : (t.get x.id).kind = .const
  name : (t.get x.id).name = x.name
  parent : (t.get x.id).parent = some owner
  declaration : (t.get x.id).declaration? = some x.declaration

/-- Whether the members of an entity of a tree are certain constants, and it has no bases. -/
structure HasConstants (t : Tree) (caseSensitive : Bool) (owner : EntityId)
    (members : List ConstMember) : Prop where
  caseSensitive : t.caseSensitive = caseSensitive
  lt : owner < t.size
  supports : (t.get owner).kind.supportsChildren = true
  bases : ∀ d, (t.get owner).definition? = some d → d.bases = []
  children : (t.get owner).children = members.map ConstMember.id
  names : ∃ s, (t.get owner).scope = some s ∧ s < t.scopes.size ∧
    (t.scope s).declarations = (members.map fun x => (t.key x.name, x.id)).reverse
  nodup : (members.map ConstMember.id).Nodup
  stands : ∀ x ∈ members, x.Stands t owner

/-- Whether a tree holds a module of certain constants and nothing else. -/
structure Holds (t : Tree) (caseSensitive : Bool) (owner : EntityId) (name : String)
    (members : List ConstMember) : Prop extends t.HasConstants caseSensitive owner members where
  rootKind : (t.get root).kind = .root
  rootChildren : (t.get root).children = [owner]
  ne_root : owner ≠ root
  kind : (t.get owner).kind = .module
  name : (t.get owner).name = name
  anonymous : (t.get owner).anonymous = false

variable {caseSensitive : Bool} {owner : EntityId} {name : String} {members : List ConstMember}

namespace HasConstants

theorem retains (hRetains : Retains t t') (h : t.HasConstants caseSensitive owner members) :
    t'.HasConstants caseSensitive owner members := by
  have hOwner := hRetains.entity owner h.lt
  obtain ⟨s, hScope, hLt, hNames⟩ := h.names
  exact
    { caseSensitive := hRetains.caseSensitive.trans h.caseSensitive
      lt := Nat.lt_of_lt_of_le h.lt hRetains.size
      supports := by
        rw [hOwner.kind]
        exact h.supports
      bases := by
        rw [hOwner.definition]
        exact h.bases
      children := hOwner.children.trans h.children
      names := by
        refine ⟨s, hOwner.scope.trans hScope, hRetains.scopes ▸ hLt, ?_⟩
        rw [scope_eq_of_scopes hRetains.scopes, hNames]
        simp only [key_eq_of_caseSensitive hRetains.caseSensitive]
      nodup := h.nodup
      stands := by
        intro x hx
        have hStands := h.stands x hx
        have hSame := hRetains.entity x.id hStands.lt
        exact ⟨hStands.ne, hStands.ne_root, Nat.lt_of_lt_of_le hStands.lt hRetains.size,
          hSame.kind.trans hStands.kind, hSame.name.trans hStands.name,
          hSame.parent.trans hStands.parent, hSame.declaration.trans hStands.declaration⟩ }

/-- A name that no constant has is free. -/
theorem lookup_eq_none (h : t.HasConstants caseSensitive owner members) {new : String}
    (hNew : ∀ x ∈ members, t.key x.name ≠ t.key new) {s : ScopeId}
    (hScope : (t.get owner).scope = some s) : (t.scope s).get? true (t.key new) = none := by
  obtain ⟨s', hScope', -, hNames⟩ := h.names
  rw [hScope] at hScope'
  cases hScope'
  change (t.scope s).declarations.lookup (t.key new) = none
  rw [hNames, List.lookup_eq_none_iff]
  intro p hp
  obtain ⟨x, hx, rfl⟩ := List.mem_map.mp (List.mem_reverse.mp hp)
  exact bne_iff_ne.mpr fun hKey => hNew x hx hKey.symm

theorem lookupInBases_eq_none (h : t.HasConstants caseSensitive owner members) (key : String) :
    t.lookupInBases owner key = none := by
  unfold lookupInBases
  cases hDefinition : (t.get owner).definition? with
  | none => rfl
  | some d =>
    dsimp only
    rw [h.bases d hDefinition]
    rfl

/-- One more constant is added and gets its name. Of what was there, only its owner changes. -/
theorem declare (h : t.HasConstants caseSensitive owner members) {new : String} {d : Declaration}
    {source : SourceId} {span : Span} (hNew : ∀ x ∈ members, t.key x.name ≠ t.key new) :
    ∃ id t₁ t₂, t.add owner .const source span (.declaration d) = .ok (id, t₁) ∧
      t₁.setName id new false true = .ok (id, t₂) ∧
      t₂.HasConstants caseSensitive owner (members ++ [⟨id, new, d⟩]) ∧
      t₂.get owner = { t.get owner with children := (t.get owner).children ++ [id] } ∧
      ∀ i, i < t.size → i ≠ owner → t₂.get i = t.get i := by
  obtain ⟨s, hScope, hLt, hNames⟩ := h.names
  obtain ⟨t₁, hAdd⟩ := exists_add h.supports .const source span (.declaration d)
  obtain ⟨-, -, hSize, hCase, hScopes, hGet⟩ := add_eq_ok hAdd
  have hScopes : t₁.scopes = t.scopes := hScopes
  have hKey : ∀ name, t₁.key name = t.key name := key_eq_of_caseSensitive hCase
  have hOld : ∀ i, i < t.size → t₁.get i = t.get i := fun i hi => by
    rw [hGet, if_neg (Nat.ne_of_lt hi)]
  have hSelf := hGet t.size
  rw [if_pos rfl] at hSelf
  have hKind : (t₁.get t.size).kind = .const := by rw [hSelf]
  have hBases : t₁.lookupInBases owner (t₁.key new) = none := by
    have hNone := h.lookupInBases_eq_none (t₁.key new)
    unfold lookupInBases at hNone ⊢
    rw [hOld owner h.lt]
    cases hDefinition : (t.get owner).definition? with
    | none => rfl
    | some e =>
      dsimp only
      rw [h.bases e hDefinition]
      rfl
  have hFree : (t₁.scope s).get? (isDeclarationName (t₁.get t.size).kind) (t₁.key new) = none := by
    rw [hKind, hKey, scope_eq_of_scopes hScopes]
    exact h.lookup_eq_none hNew hScope
  have hNext : t.size < t₁.size := hSize ▸ Nat.lt_succ_self _
  obtain ⟨t₂, hSet, hSize₂, hCase₂, hScopes₂, hId, hOwner, hOthers⟩ :=
    setName_fresh hNext (Nat.lt_trans h.lt hNext) (Nat.ne_of_gt h.lt)
      (by rw [hSelf]) ((congrArg Entity.scope (hOld owner h.lt)).trans hScope) hBases hFree
  have hGrown : t.size < t₂.size := hSize₂ ▸ hNext
  have hKept : ∀ i, i < t.size → i ≠ owner → t₂.get i = t.get i := fun i hLt hNe =>
    (hOthers i (Nat.ne_of_lt hLt) hNe).trans (hOld i hLt)
  rw [hOld owner h.lt] at hOwner
  rw [hSelf] at hId
  refine ⟨t.size, t₁, t₂, hAdd, hSet, ?_, hOwner, hKept⟩
  have hPos : root < t.size := Nat.lt_of_le_of_lt (Nat.zero_le _) h.lt
  have hKey₂ : ∀ name, t₂.key name = t.key name := fun name =>
    (key_eq_of_caseSensitive hCase₂ name).trans (hKey name)
  exact
    { caseSensitive := (hCase₂.trans hCase).trans h.caseSensitive
      lt := Nat.lt_trans h.lt hGrown
      supports := by
        rw [hOwner]
        exact h.supports
      bases := by
        rw [hOwner]
        exact h.bases
      children := by
        rw [hOwner, List.map_append]
        exact congrArg (· ++ [t.size]) h.children
      names := by
        refine ⟨s, by rw [hOwner]; exact hScope, ?_, ?_⟩
        · rw [hScopes₂, insertName]
          simp only [Array.size_modify, hScopes]
          exact hLt
        · rw [scope_eq_of_scopes hScopes₂, scope_insertName (hScopes ▸ hLt), if_pos rfl, hKind,
            scope_eq_of_scopes hScopes, hKey]
          change (t.key new, t.size) :: (t.scope s).declarations = _
          rw [hNames, List.map_append, List.reverse_append]
          simp only [hKey₂]
          rfl
      nodup := by
        rw [List.map_append]
        refine List.nodup_append.mpr ⟨h.nodup, by simp, ?_⟩
        intro i hi j hj
        obtain ⟨x, hx, rfl⟩ := List.mem_map.mp hi
        rw [List.mem_singleton.mp hj]
        exact Nat.ne_of_lt (h.stands x hx).lt
      stands := by
        intro x hx
        rcases List.mem_append.mp hx with hx | hx
        · have hStands := h.stands x hx
          have hSame := hKept x.id hStands.lt hStands.ne
          exact ⟨hStands.ne, hStands.ne_root, Nat.lt_trans hStands.lt hGrown,
            by rw [hSame]; exact hStands.kind, by rw [hSame]; exact hStands.name,
            by rw [hSame]; exact hStands.parent, by rw [hSame]; exact hStands.declaration⟩
        · rw [List.mem_singleton.mp hx]
          refine ⟨Nat.ne_of_gt h.lt, Nat.ne_of_gt hPos, hGrown, ?_, ?_, ?_, ?_⟩
          · dsimp only
            rw [hId]
          · dsimp only
            rw [hId]
          · dsimp only
            rw [hId]
          · dsimp only
            rw [hId]
            rfl }

/-- The declaration of a constant changes. -/
theorem modify (h : t.HasConstants caseSensitive owner members) (id : EntityId)
    (f : Declaration → Declaration) :
    (t.modify id (Entity.mapDeclaration f)).HasConstants caseSensitive owner (members.map fun x =>
      if x.id = id then { x with declaration := f x.declaration } else x) := by
  have hAlike : ∀ i, Entity.Alike (t.get i) ((t.modify id (Entity.mapDeclaration f)).get i) :=
    alike_modify fun e => Entity.alike_mapDeclaration f e
  have hChildren : ∀ i, ((t.modify id (Entity.mapDeclaration f)).get i).children =
      (t.get i).children :=
    get_modify_congr Entity.children (Entity.children_mapDeclaration f)
  have hDefinition : ∀ i, ((t.modify id (Entity.mapDeclaration f)).get i).definition? =
      (t.get i).definition? :=
    get_modify_congr Entity.definition? (Entity.definition?_mapDeclaration f)
  have hIds : (members.map fun x =>
      if x.id = id then { x with declaration := f x.declaration } else x).map
        (fun x => (t.key x.name, x.id)) = members.map fun x => (t.key x.name, x.id) := by
    rw [List.map_map]
    refine List.map_congr_left fun x _ => ?_
    dsimp only [Function.comp]
    split <;> rfl
  exact
    { caseSensitive := h.caseSensitive
      lt := by
        rw [size_modify]
        exact h.lt
      supports := by
        rw [(hAlike owner).kind]
        exact h.supports
      bases := by
        rw [hDefinition]
        exact h.bases
      children := by
        rw [hChildren, h.children, List.map_map]
        refine List.map_congr_left fun x _ => ?_
        dsimp only [Function.comp]
        split <;> rfl
      names := by
        obtain ⟨s, hScope, hLt, hNames⟩ := h.names
        refine ⟨s, (hAlike owner).scope.trans hScope, hLt, ?_⟩
        change (t.scope s).declarations = _
        rw [hNames, ← hIds]
        rfl
      nodup := by
        rw [List.map_map]
        refine (congrArg List.Nodup (List.map_congr_left fun x _ => ?_)).mpr h.nodup
        dsimp only [Function.comp]
        split <;> rfl
      stands := by
        intro y hy
        obtain ⟨x, hx, rfl⟩ := List.mem_map.mp hy
        have hStands := h.stands x hx
        have hDeclaration : ((t.modify id (Entity.mapDeclaration f)).get x.id).declaration? =
            if x.id = id then (t.get x.id).declaration?.map f else (t.get x.id).declaration? :=
          declaration?_modify f x.id
        split
        · rename_i hId
          rw [if_pos hId, hStands.declaration] at hDeclaration
          exact ⟨hStands.ne, hStands.ne_root, by simpa using hStands.lt,
            (hAlike x.id).kind.trans hStands.kind, (hAlike x.id).name.trans hStands.name,
            (hAlike x.id).parent.trans hStands.parent, hDeclaration⟩
        · rename_i hId
          rw [if_neg hId, hStands.declaration] at hDeclaration
          exact ⟨hStands.ne, hStands.ne_root, by simpa using hStands.lt,
            (hAlike x.id).kind.trans hStands.kind, (hAlike x.id).name.trans hStands.name,
            (hAlike x.id).parent.trans hStands.parent, hDeclaration⟩ }

/-- The declaration of the last constant changes. -/
theorem map_last {x : ConstMember} (h : (members ++ [x]).map ConstMember.id |>.Nodup)
    (f : Declaration → Declaration) : (members ++ [x]).map (fun y =>
      if y.id = x.id then { y with declaration := f y.declaration } else y) =
        members ++ [{ x with declaration := f x.declaration }] := by
  rw [List.map_append, List.nodup_append] at h
  have hOthers : members.map (fun y =>
      if y.id = x.id then { y with declaration := f y.declaration } else y) = members := by
    refine (List.map_congr_left fun y hy => ?_).trans (List.map_id' members)
    have hNe := h.2.2 y.id (List.mem_map.mpr ⟨y, hy, rfl⟩) x.id List.mem_cons_self
    rw [if_neg hNe]
  rw [List.map_append, hOthers, List.map_singleton, if_pos rfl]

/-- The name of a constant leads to it. -/
theorem find (h : t.HasConstants caseSensitive owner members)
    (hKeys : (members.map fun x => t.key x.name).Nodup) {x : ConstMember} (hx : x ∈ members)
    {written : String} (hName : IsName written) (hKey : t.key written = t.key x.name) :
    t.find owner written true = some x.id := by
  obtain ⟨s, hScope, -, hNames⟩ := h.names
  have hLookup : (t.scope s).lookup? false (t.key written) = some x.id := by
    have hDeclarations : (t.scope s).declarations.lookup (t.key written) = some x.id := by
      rw [hNames, hKey]
      refine lookup_of_mem ?_ (List.mem_reverse.mpr (List.mem_map.mpr ⟨x, hx, rfl⟩))
      rw [List.map_reverse, List.map_map]
      exact (List.reverse_perm _).nodup_iff.mpr hKeys
    unfold Scope.lookup?
    rw [if_neg (by decide), hDeclarations]
    rfl
  rw [find_segment (.of_isName hName)]
  unfold searchPath enclosing
  rw [enclosingWithin, List.flatMap_cons, List.findSome?_append, scopesWithin, hScope]
  dsimp only
  rw [List.findSome?_cons, hLookup]
  rfl

end HasConstants

/-! ## Modules -/

namespace Holds

theorem lasting : Lasting fun t => t.Holds caseSensitive owner name members := by
  intro t t' hRecords h
  have hRetains := hRecords.toRetains
  have hRoot := hRetains.entity root (Nat.lt_of_le_of_lt (Nat.zero_le _) h.lt)
  have hOwner := hRetains.entity owner h.lt
  exact
    { toHasConstants := h.retains hRetains
      rootKind := hRoot.kind.trans h.rootKind
      rootChildren := hRoot.children.trans h.rootChildren
      ne_root := h.ne_root
      kind := hOwner.kind.trans h.kind
      name := hOwner.name.trans h.name
      anonymous := hOwner.anonymous.trans h.anonymous }

/-- A module gets its name. -/
theorem ofUnnamed (h : t.Unnamed caseSensitive owner) (name : String) :
    ∃ t', t.setName owner name false true = .ok (owner, t') ∧
      t'.Holds caseSensitive owner name [] := by
  have hBases : t.lookupInBases root (t.key name) = none := by
    unfold lookupInBases
    rw [h.rootDefinition]
  have hFree : (t.scope 0).get? (isDeclarationName (t.get owner).kind) (t.key name) = none := by
    unfold Tree.scope
    rw [h.scopes, h.kind]
    rfl
  obtain ⟨t', hSet, hSize, hCase, hScopes, hOwner, hRoot, -⟩ :=
    setName_fresh h.lt h.pos h.ne_root h.parent h.rootScope hBases hFree
  have hLt : (0 : Nat) < t.scopes.size := by
    rw [h.scopes]
    decide
  refine ⟨t', hSet, ?_⟩
  exact
    { caseSensitive := hCase.trans h.caseSensitive
      lt := hSize ▸ h.lt
      supports := by rw [hOwner, h.kind]; rfl
      bases := by
        obtain ⟨d, hDefinition, hNone⟩ := h.definition
        rw [hOwner]
        intro e he
        rw [← Option.some.inj (hDefinition.symm.trans he)]
        exact hNone
      children := by rw [hOwner]; exact h.children
      names := by
        refine ⟨1, by rw [hOwner]; exact h.scope, ?_, ?_⟩
        · rw [hScopes, insertName]
          simp only [Array.size_modify, h.scopes]
          decide
        · rw [scope_eq_of_scopes hScopes, scope_insertName hLt, if_neg (by decide)]
          unfold Tree.scope
          rw [h.scopes]
          rfl
      nodup := List.nodup_nil
      stands := nofun
      rootKind := by rw [hRoot]; exact h.rootKind
      rootChildren := by rw [hRoot]; exact congrArg (· ++ [owner]) h.rootChildren
      ne_root := h.ne_root
      kind := by rw [hOwner]; exact h.kind
      name := by rw [hOwner]
      anonymous := by rw [hOwner]; exact h.anonymous }

/-- One more constant is added to a module and gets its name. -/
theorem declare (h : t.Holds caseSensitive owner name members) {new : String} {d : Declaration}
    {source : SourceId} {span : Span} (hNew : ∀ x ∈ members, t.key x.name ≠ t.key new) :
    ∃ id t₁ t₂, t.add owner .const source span (.declaration d) = .ok (id, t₁) ∧
      t₁.setName id new false true = .ok (id, t₂) ∧
      t₂.Holds caseSensitive owner name (members ++ [⟨id, new, d⟩]) := by
  obtain ⟨id, t₁, t₂, hAdd, hSet, hConstants, hOwner, hKept⟩ := h.toHasConstants.declare hNew
  have hRoot := hKept root (Nat.lt_of_le_of_lt (Nat.zero_le _) h.lt) fun hEq => h.ne_root hEq.symm
  refine ⟨id, t₁, t₂, hAdd, hSet, ?_⟩
  exact
    { toHasConstants := hConstants
      rootKind := by rw [hRoot]; exact h.rootKind
      rootChildren := by rw [hRoot]; exact h.rootChildren
      ne_root := h.ne_root
      kind := by rw [hOwner]; exact h.kind
      name := by rw [hOwner]; exact h.name
      anonymous := by rw [hOwner]; exact h.anonymous }

/-- The declaration of a constant of a module changes. -/
theorem modify (h : t.Holds caseSensitive owner name members) (id : EntityId)
    (f : Declaration → Declaration) :
    (t.modify id (Entity.mapDeclaration f)).Holds caseSensitive owner name (members.map fun x =>
      if x.id = id then { x with declaration := f x.declaration } else x) := by
  have hAlike : ∀ i, Entity.Alike (t.get i) ((t.modify id (Entity.mapDeclaration f)).get i) :=
    alike_modify fun e => Entity.alike_mapDeclaration f e
  have hChildren : ∀ i, ((t.modify id (Entity.mapDeclaration f)).get i).children =
      (t.get i).children :=
    get_modify_congr Entity.children (Entity.children_mapDeclaration f)
  have hAnonymous : ∀ i, ((t.modify id (Entity.mapDeclaration f)).get i).anonymous =
      (t.get i).anonymous :=
    get_modify_congr Entity.anonymous fun e => by unfold Entity.mapDeclaration; split <;> rfl
  exact
    { toHasConstants := h.toHasConstants.modify id f
      rootKind := (hAlike root).kind.trans h.rootKind
      rootChildren := (hChildren root).trans h.rootChildren
      ne_root := h.ne_root
      kind := (hAlike owner).kind.trans h.kind
      name := (hAlike owner).name.trans h.name
      anonymous := (hAnonymous owner).trans h.anonymous }

end Holds

/-! ## Adding declarations -/

/-- Whether a declaration of a sort and a kind can be added to an entity of every tree of which `I` is
known. Of the tree with the entity of the declaration and what was declared, `J` is known then. -/
structure Accepts (sort : Member) (kind : EntityKind) (owner : EntityId) (name : String)
    (I : Tree → Prop) (J : EntityId → Declaration → Tree → Prop) : Prop where
  before : Lasting I
  behind : ∀ id d, Lasting (J id d)
  pos : ∀ id d t, J id d t → 0 < t.size
  admits : ∀ t, I t → (t.get owner).kind.admits sort = true
  declare : ∀ t, I t → ∀ d source span, ∃ id t₁ t₂,
    t.add owner kind source span (.declaration d) = .ok (id, t₁) ∧
      t₁.setName id name false true = .ok (id, t₂) ∧ J id d t₂
  modify : ∀ id d t, J id d t → ∀ f, J id (f d) (t.modify id (Entity.mapDeclaration f))

theorem Blank.hasConstants (h : t.Blank caseSensitive #[{}]) :
    t.HasConstants caseSensitive root [] where
  caseSensitive := h.caseSensitive
  lt := h.pos
  supports := by
    rw [h.rootKind]
    rfl
  bases := by
    rw [h.rootDefinition]
    exact nofun
  children := h.rootChildren
  names := by
    refine ⟨0, h.rootScope, ?_, ?_⟩
    · rw [h.scopes]
      decide
    · unfold Tree.scope
      rw [h.scopes]
      rfl
  nodup := List.nodup_nil
  stands := nofun

/-- What is known about the tree when a constant was read outside of modules. -/
structure Outside (t : Tree) (caseSensitive : Bool) (x : ConstMember) : Prop
    extends t.HasConstants caseSensitive root [x] where
  rootKind : (t.get root).kind = .root

theorem Outside.lasting {x : ConstMember} : Lasting fun t => t.Outside caseSensitive x := by
  intro t t' hRecords h
  exact ⟨h.toHasConstants.retains hRecords.toRetains,
    (hRecords.entity root h.lt).kind.trans h.rootKind⟩

/-- Where nothing was read, any constant is accepted. -/
theorem Outside.accepts (caseSensitive : Bool) (new : String) :
    Accepts .const .const root new (fun t => t.Blank caseSensitive #[{}])
      (fun id d t => t.Outside caseSensitive ⟨id, new, d⟩) where
  before := Blank.lasting
  behind := fun _ _ => Outside.lasting
  pos := fun _ _ _ h => Nat.lt_of_le_of_lt (Nat.zero_le _) h.lt
  admits := by
    intro t h
    rw [h.rootKind]
    rfl
  declare := by
    intro t h d source span
    have hNew : ∀ x ∈ ([] : List ConstMember), t.key x.name ≠ t.key new := nofun
    obtain ⟨id, t₁, t₂, hAdd, hSet, hConstants, hRoot, -⟩ :=
      @HasConstants.declare t caseSensitive root [] h.hasConstants new d source span hNew
    refine ⟨id, t₁, t₂, hAdd, hSet, hConstants, ?_⟩
    rw [hRoot]
    exact h.rootKind
  modify := by
    intro id d t h f
    have hModify := h.toHasConstants.modify id f
    rw [List.map_singleton, if_pos rfl] at hModify
    refine ⟨hModify, ?_⟩
    rw [(alike_modify (fun e => Entity.alike_mapDeclaration f e) root).kind]
    exact h.rootKind

end Tree

end IdlReader
