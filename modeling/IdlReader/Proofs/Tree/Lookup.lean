import IdlReader.Proofs.Tree.Registry

/-!
# Looking names up

A name is looked up in scopes one after the other: the scope of an entity, those of its
bases, and so on for the entities that enclose it (`searchPath`). In each scope a declaration
comes before a definition, or the other way round for the names of types.

The types of declarations name nothing but typedefs and definitions that have names. So
typedefs and forward declarations lead to something that was found by its name.

* `findWithin_found`, `resolvedWithin_found`: what is found is a definition or declaration with a
  name.
* `kind_resolved`: only typedefs lead to entities of another kind.
* `typed_step`: what each step preserves of the types of declarations.
* `Reachable.found_resolved`: what a name stands for is a definition or declaration too.
-/

/-! ## Names -/

namespace IdlReader.Tree

variable {t t' : Tree}

/-! ## Entries -/

theorem get_of_le {i : EntityId} (h : ¬ i < t.size) : t.get i = default := by
  have hNone : t.entities[i]? = none := by
    rw [Array.getElem?_eq_none_iff]
    exact Nat.le_of_not_lt h
  unfold get
  rw [hNone]
  rfl

theorem lt_size_of_scope {i : EntityId} {s : ScopeId} (h : (t.get i).scope = some s) :
    i < t.size := by
  by_cases hi : i < t.size
  · exact hi
  · rw [get_of_le hi] at h
    cases h

theorem lt_size_of_parent {i p : EntityId} (h : (t.get i).parent = some p) : i < t.size := by
  by_cases hi : i < t.size
  · exact hi
  · rw [get_of_le hi] at h
    cases h

/-- Whether an entity is a definition or declaration with a name. -/
def Found (t : Tree) (id : EntityId) : Prop := t.Named id ∧ Registrable (t.get id).kind

namespace WellFormed

theorem found_of_get? (h : t.WellFormed) {owner id : EntityId} {s : ScopeId} {d : Bool}
    {key : String} (hScope : (t.get owner).scope = some s)
    (hGet : (t.scope s).get? d key = some id) : t.Found id := by
  have hLt := h.scope_lt owner s (lt_size_of_scope hScope) hScope
  obtain ⟨hNamed, hRegistrable, -⟩ := h.entry s d key id hLt hGet
  exact ⟨hNamed, hRegistrable⟩

theorem kind_of_get? (h : t.WellFormed) {owner id : EntityId} {s : ScopeId} {d : Bool}
    {key : String} (hScope : (t.get owner).scope = some s)
    (hGet : (t.scope s).get? d key = some id) : isDeclarationName (t.get id).kind = d :=
  (h.entry s d key id (h.scope_lt owner s (lt_size_of_scope hScope) hScope) hGet).2.2.1

/-- Where the name of an entity leads that is no mere forward declaration. -/
theorem get?_full (h : t.WellFormed) {x p : EntityId} {s : ScopeId} (hFound : t.Found x)
    (hFull : (t.get x).forward = false) (hParent : (t.get x).parent = some p)
    (hScope : (t.get p).scope = some s) :
    ∃ y, (t.scope s).get? (isDeclarationName (t.get x).kind) (t.key (t.get x).name) = some y ∧
      (t.get y).kind = (t.get x).kind ∧
      (y = x ∨ (t.get x).kind = .module ∧ (t.get y).scope = (t.get x).scope) := by
  obtain ⟨y, hy, hKind, hSame⟩ := h.registered x p s hFound.1 hFound.2 hParent hScope
  exact ⟨y, hy, hKind, hSame hFull⟩

theorem forward_of_isDeclarationName (h : t.WellFormed) {x : EntityId} (hx : x < t.size)
    (hKind : isDeclarationName (t.get x).kind = true) : (t.get x).forward = false := by
  cases hForward : (t.get x).forward with
  | false => rfl
  | true =>
    have hDefinition := EntityKind.not_isDeclaration_of_isDefinition (h.forward x hx hForward)
    simp [isDeclarationName, hDefinition] at hKind

/-- The entity that a new name stands for. -/
theorem named_naming (h : t.WellFormed) {id found : EntityId} {name : String} {forward : Bool}
    (hOpen : t.Open id) (hName : IsName name) (hNaming : Naming t id name forward found t') :
    t'.Named found ∧ (t'.get found).kind = (t.get id).kind ∧
      (forward = false → (t'.get found).forward = false) := by
  have hFull := (h.unnamed id hOpen.lt hOpen.unnamed).1
  have hSelf : ∀ {e : Entity}, Renames t t' id e → e.name = name → e.kind = (t.get id).kind →
      t'.Named id ∧ (t'.get id).kind = (t.get id).kind := by
    intro e hRenames hNew hKind
    refine ⟨⟨hRenames.size ▸ hOpen.lt, ?_⟩, hRenames.self.kind.trans hKind⟩
    rw [hRenames.self.name, hNew]
    exact hName.ne_empty
  cases hNaming with
  | fresh _ _ _ hRenames =>
    obtain ⟨hNamed, hKind⟩ := hSelf hRenames rfl rfl
    exact ⟨hNamed, hKind, fun hForward => hRenames.self.forward.trans hForward⟩
  | repeated _ hScope hExisting hKind hRenames =>
    have hFound := h.found_of_get? hScope hExisting
    have hNe : found ≠ id := by
      intro hEq
      rw [hEq] at hFound
      exact hFound.1.2 hOpen.unnamed
    have hAlike := hRenames.others found hNe
    refine ⟨⟨hRenames.size ▸ hFound.1.1, ?_⟩, hAlike.kind.trans hKind, nofun⟩
    rw [hAlike.name]
    exact hFound.1.2
  | reopened _ _ _ _ _ hRenames =>
    obtain ⟨hNamed, hKind⟩ := hSelf hRenames rfl rfl
    exact ⟨hNamed, hKind, fun _ => hRenames.self.forward.trans hFull⟩
  | completed _ _ _ _ _ _ hRenames =>
    obtain ⟨hNamed, hKind⟩ := hSelf hRenames rfl rfl
    exact ⟨hNamed, hKind, fun _ => hRenames.self.forward.trans hFull⟩

end WellFormed

/-! ## Paths of scopes -/

/-- The scopes in which an entity finds names without those that enclose it. -/
def scopesWithin (t : Tree) : (budget : Nat) → EntityId → List ScopeId
  | 0, _ => []
  | n + 1, owner =>
    match (t.get owner).scope with
    | none => []
    | some s =>
      s :: match (t.get owner).definition? with
        | none => []
        | some d => d.bases.flatMap (t.scopesWithin n)

/-- The scopes in which a name is looked up from an entity on, in their order. -/
def searchPath (t : Tree) (start : EntityId) : List ScopeId :=
  (t.enclosing start).flatMap (t.scopesWithin (t.size + 1))

theorem findSome?_flatMap {α β γ : Type} (f : α → List β) (g : β → Option γ) (l : List α) :
    (l.flatMap f).findSome? g = l.findSome? fun a => (f a).findSome? g := by
  induction l with
  | nil => rfl
  | cons a l ih =>
    rw [List.flatMap_cons, List.findSome?_append, List.findSome?_cons, ih]
    cases (f a).findSome? g <;> rfl

theorem findSome?_congr {α β : Type} {f g : α → Option β} {l : List α}
    (h : ∀ a ∈ l, f a = g a) : l.findSome? f = l.findSome? g := by
  induction l with
  | nil => rfl
  | cons a l ih =>
    rw [List.findSome?_cons, List.findSome?_cons, h a List.mem_cons_self,
      ih fun b hb => h b (List.mem_cons_of_mem a hb)]

theorem lookupWithin_eq (t : Tree) (definitionsFirst : Bool) (key : String) (n : Nat)
    (owner : EntityId) :
    t.lookupWithin definitionsFirst key n owner =
      (t.scopesWithin n owner).findSome? fun s => (t.scope s).lookup? definitionsFirst key := by
  induction n generalizing owner with
  | zero => rfl
  | succ n ih =>
    rw [lookupWithin, scopesWithin]
    cases (t.get owner).scope with
    | none => rfl
    | some s =>
      dsimp only
      rw [List.findSome?_cons]
      cases (t.scope s).lookup? definitionsFirst key with
      | some id => rfl
      | none =>
        dsimp only
        cases (t.get owner).definition? with
        | none => rfl
        | some d =>
          dsimp only
          rw [findSome?_flatMap]
          exact congrArg (d.bases.findSome? ·) (funext fun b => ih b)

theorem mem_scopesWithin {n : Nat} {owner : EntityId} {s : ScopeId}
    (h : s ∈ t.scopesWithin n owner) : ∃ i, (t.get i).scope = some s := by
  induction n generalizing owner with
  | zero => cases h
  | succ n ih =>
    rw [scopesWithin] at h
    split at h
    · cases h
    · rename_i own hOwn
      rcases List.mem_cons.mp h with rfl | hBases
      · exact ⟨owner, hOwn⟩
      · split at hBases
        · cases hBases
        · obtain ⟨b, -, hb⟩ := List.mem_flatMap.mp hBases
          exact ih hb

theorem lookup?_eq_some {s : Scope} {d : Bool} {key : String} {id : EntityId}
    (h : s.lookup? d key = some id) : ∃ d', s.get? d' key = some id := by
  unfold Scope.lookup? at h
  split at h <;> rcases Option.or_eq_some_iff.mp h with h | ⟨-, h⟩
  · exact ⟨false, h⟩
  · exact ⟨true, h⟩
  · exact ⟨true, h⟩
  · exact ⟨false, h⟩

/-- What comes first is found. -/
theorem lookup?_of_get? {s : Scope} {d first : Bool} {key : String} {id : EntityId}
    (h : s.get? first key = some id) (hFirst : first = !d) : s.lookup? d key = some id := by
  rw [hFirst] at h
  unfold Scope.lookup?
  cases d with
  | false =>
    have hDeclared : s.declarations.lookup key = some id := h
    rw [if_neg Bool.false_ne_true, hDeclared, Option.some_or]
  | true =>
    have hDefined : s.definitions.lookup key = some id := h
    rw [if_pos rfl, hDefined, Option.some_or]

/-! ## Steps of a search -/

/-- What a name that is looked up at an entity leads to; `n` bounds its segments but the
first one. -/
def findFrom (t : Tree) (definitionsFirst : Bool) (n : Nat) (name : List Char)
    (owner : EntityId) : Option EntityId :=
  match t.lookupKey definitionsFirst (t.key (String.ofList (splitSegment name).1)) owner with
  | none => none
  | some found =>
    match (splitSegment name).2 with
    | none => some found
    | some (.scope, tail) => t.findWithin definitionsFirst n (t.resolved found) tail false
    | some (.member, tail) => t.findMemberWithin (tail.length + 1) found tail

theorem findWithin_absolute (definitionsFirst : Bool) (n : Nat) (start : EntityId)
    (name : List Char) (upwards : Bool) :
    t.findWithin definitionsFirst (n + 1) start (':' :: ':' :: name) upwards =
      if name.isEmpty then none else t.findFrom definitionsFirst n name root := by
  rw [findWithin]
  simp only [List.isPrefixOf, beq_self_eq_true, Bool.and_self, if_true, List.drop_succ_cons,
    List.drop_zero, List.findSome?_singleton]
  rfl

theorem findWithin_relative (definitionsFirst : Bool) (n : Nat) (start : EntityId)
    {name : List Char} (h : [':', ':'].isPrefixOf name = false) (upwards : Bool) :
    t.findWithin definitionsFirst (n + 1) start name upwards =
      if name.isEmpty then none
      else (if upwards then t.enclosing start else [start]).findSome?
        (t.findFrom definitionsFirst n name) := by
  rw [findWithin]
  simp only [h, Bool.false_eq_true, if_false]
  rfl

/-! ## What is found -/

namespace WellFormed

theorem lookupWithin_found (h : t.WellFormed) {d : Bool} {key : String} {n : Nat}
    {owner id : EntityId} (hLookup : t.lookupWithin d key n owner = some id) : t.Found id := by
  rw [lookupWithin_eq] at hLookup
  obtain ⟨s, hs, hEntry⟩ := List.exists_of_findSome?_eq_some hLookup
  obtain ⟨i, hi⟩ := mem_scopesWithin hs
  obtain ⟨d', hGet⟩ := lookup?_eq_some hEntry
  exact h.found_of_get? hi hGet

theorem findMemberWithin_found (h : t.WellFormed) {n : Nat} {start id : EntityId}
    {path : List Char} (hFind : t.findMemberWithin n start path = some id) : t.Found id := by
  induction n generalizing start path with
  | zero => cases hFind
  | succ n ih =>
    rw [findMemberWithin] at hFind
    simp only [Option.bind_eq_bind, Option.bind_eq_some_iff] at hFind
    obtain ⟨d, -, definition, -, found, hLookup, hFind⟩ := hFind
    split at hFind
    · cases hFind
      exact h.lookupWithin_found hLookup
    · exact ih hFind

theorem findFrom_found (h : t.WellFormed) {d : Bool} {n : Nat} {owner id : EntityId}
    {name : List Char}
    (hWithin : ∀ {start : EntityId} {name : List Char} {upwards : Bool},
      t.findWithin d n start name upwards = some id → t.Found id)
    (hFind : t.findFrom d n name owner = some id) : t.Found id := by
  unfold findFrom at hFind
  split at hFind
  · cases hFind
  · rename_i found hLookup
    split at hFind
    · cases hFind
      exact h.lookupWithin_found hLookup
    · exact hWithin hFind
    · exact h.findMemberWithin_found hFind

theorem findWithin_found (h : t.WellFormed) {d : Bool} {n : Nat} {start id : EntityId}
    {name : List Char} {upwards : Bool} (hFind : t.findWithin d n start name upwards = some id) :
    t.Found id := by
  induction n generalizing start name upwards with
  | zero => cases hFind
  | succ n ih =>
    cases hAbsolute : [':', ':'].isPrefixOf name with
    | true =>
      obtain ⟨rest, rfl⟩ := List.isPrefixOf_iff_prefix.mp hAbsolute
      rw [List.cons_append, List.cons_append, List.nil_append, findWithin_absolute] at hFind
      split at hFind
      · cases hFind
      · exact h.findFrom_found ih hFind
    | false =>
      rw [findWithin_relative d n start hAbsolute] at hFind
      split at hFind
      · cases hFind
      · obtain ⟨owner, -, hOwner⟩ := List.exists_of_findSome?_eq_some hFind
        exact h.findFrom_found ih hOwner

theorem findType_found (h : t.WellFormed) {start id : EntityId} {name : String}
    (hFind : t.findType start name = some id) : t.Found id := h.findWithin_found hFind

end WellFormed

/-! ## Resolution -/

/-- A lookup in the own scope of an entity comes before its bases. -/
theorem lookupKey_of_get? {owner id : EntityId} {s : ScopeId} {d : Bool} {key : String}
    (hScope : (t.get owner).scope = some s) (hGet : (t.scope s).lookup? d key = some id) :
    t.lookupKey d key owner = some id := by
  rw [lookupKey, lookupWithin, hScope]
  dsimp only
  rw [hGet]

namespace WellFormed

/-- A forward declaration leads to an entity of its kind. -/
theorem lookupKey_forward (h : t.WellFormed) {id p full : EntityId} (hFound : t.Found id)
    (hForward : (t.get id).forward = true) (hParent : (t.get id).parent = some p)
    (hLookup : t.lookupKey true (t.key (t.get id).name) p = some full) :
    (t.get full).kind = (t.get id).kind ∧
      ∃ s, (t.get p).scope = some s ∧
        (t.scope s).get? false (t.key (t.get id).name) = some full := by
  have hDefinition := h.forward id hFound.1.1 hForward
  have hName : isDeclarationName (t.get id).kind = false := by
    simp [isDeclarationName, EntityKind.not_isDeclaration_of_isDefinition hDefinition]
  cases hScope : (t.get p).scope with
  | none =>
    rw [lookupKey, lookupWithin, hScope] at hLookup
    cases hLookup
  | some s =>
    obtain ⟨y, hy, hKind, -⟩ := h.registered id p s hFound.1 hFound.2 hParent hScope
    rw [hName] at hy
    rw [lookupKey_of_get? hScope (lookup?_of_get? hy rfl)] at hLookup
    cases hLookup
    exact ⟨hKind, s, rfl, hy⟩

theorem resolvedWithin_found (h : t.WellFormed) {n : Nat} {id : EntityId}
    (hTypes : ∀ i d x, t.Found i → (t.get i).declaration? = some d → d.type.definition = some x →
      t.Found x) (hFound : t.Found id) : t.Found (t.resolvedWithin n id) := by
  induction n generalizing id with
  | zero => exact hFound
  | succ n ih =>
    rw [resolvedWithin]
    split
    · split
      · rename_i next hNext
        split
        · exact hFound
        · obtain ⟨d, hd, hType⟩ := Option.bind_eq_some_iff.mp hNext
          exact ih (hTypes id d next hFound hd hType)
      · exact hFound
    · split
      · split
        · rename_i full hFull
          split
          · exact hFound
          · obtain ⟨p, -, hLookup⟩ := Option.bind_eq_some_iff.mp hFull
            exact ih (h.lookupWithin_found hLookup)
        · exact hFound
      · exact hFound

/-- Only typedefs lead to entities of another kind. -/
theorem kind_resolvedWithin (h : t.WellFormed) {n : Nat} {id : EntityId} (hFound : t.Found id)
    (hKind : (t.get id).kind ≠ .typedef) :
    (t.get (t.resolvedWithin n id)).kind = (t.get id).kind := by
  induction n generalizing id with
  | zero => rfl
  | succ n ih =>
    rw [resolvedWithin]
    rw [if_neg hKind]
    split
    · rename_i hForward
      split
      · rename_i full hFull
        split
        · rfl
        · obtain ⟨p, hParent, hLookup⟩ := Option.bind_eq_some_iff.mp hFull
          have hSame := (h.lookupKey_forward hFound hForward hParent hLookup).1
          rw [← hSame] at hKind ⊢
          exact ih (h.lookupWithin_found hLookup) hKind
      · rfl
    · rfl

theorem kind_resolved (h : t.WellFormed) {id : EntityId} (hFound : t.Found id)
    (hKind : (t.get id).kind ≠ .typedef) : (t.get (t.resolved id)).kind = (t.get id).kind :=
  h.kind_resolvedWithin hFound hKind

end WellFormed

/-- What is neither a typedef nor a forward declaration stands for itself. -/
theorem resolved_of_full {id : EntityId} (hKind : (t.get id).kind ≠ .typedef)
    (hFull : (t.get id).forward = false) : t.resolved id = id := by
  unfold resolved
  cases t.size with
  | zero => rfl
  | succ n =>
    rw [resolvedWithin]
    rw [if_neg hKind, hFull]
    rfl

end IdlReader.Tree

/-! ## Types of declarations -/

namespace IdlReader

theorem Declaration.Completes.type_eq {d d' : Declaration} (h : Completes d d') :
    d'.type = d.type := by
  rw [h]

theorem DeclaredType.mem_references {type : DeclaredType} {id : EntityId}
    (h : type.definition = some id) : id ∈ type.references := by
  cases type with
  | mk base text definition length decimals key value =>
    have hDefinition : definition = some id := h
    rw [references, hDefinition]
    simp

namespace Tree

variable {t t' : Tree}

/-- Whether the types of all declarations name types. -/
def Typed (t : Tree) : Prop := ∀ i d, (t.get i).declaration? = some d → t.Refers d.type

theorem declaration?_of_le {i : EntityId} (h : ¬ i < t.size) : (t.get i).declaration? = none := by
  rw [get_of_le h]
  rfl

theorem lt_of_declaration? {i : EntityId} {d : Declaration}
    (hd : (t.get i).declaration? = some d) : i < t.size := by
  refine Nat.lt_of_not_le fun hLe => ?_
  rw [declaration?_of_le (Nat.not_lt_of_le hLe)] at hd
  cases hd

theorem declaration?_addRecords_singleton (h : 0 < t.size) (r : Record) (i : EntityId) :
    ((t.addRecords [r]).get i).declaration? = (t.get i).declaration? := by
  rw [addRecords_singleton, id_addRecord]
  have hAttach : ∀ e : Entity, (e.attach r.comments).declaration? = e.declaration? := by
    intro e
    rw [Entity.annotates_attach r.comments e]
    rfl
  rw [get_modify_congr Entity.declaration? hAttach, get_addRecord h]
  split
  · rename_i hNew
    rw [hNew, declaration?_of_le (Nat.lt_irrefl _)]
    rfl
  · split
    · rename_i hRoot
      rw [hRoot]
      exact declaration?_listing _ _
    · rfl

theorem definition?_of_le {i : EntityId} (h : ¬ i < t.size) : (t.get i).definition? = none := by
  rw [get_of_le h]
  rfl

theorem lt_of_definition? {i : EntityId} (h : (t.get i).definition?.isSome = true) : i < t.size := by
  refine Decidable.byContradiction fun hi => ?_
  rw [definition?_of_le hi] at h
  cases h

theorem definition?_addRecords_singleton (h : 0 < t.size) (r : Record) (i : EntityId) :
    ((t.addRecords [r]).get i).definition? = (t.get i).definition? := by
  have hAttach : ∀ e : Entity, (e.attach r.comments).definition? = e.definition? := by
    intro e
    rw [Entity.annotates_attach r.comments e]
    rfl
  rw [addRecords_singleton, get_modify_congr Entity.definition? hAttach, get_addRecord h]
  split
  · rename_i hNew
    rw [hNew, definition?_of_le (Nat.lt_irrefl _)]
    rfl
  · split
    · rename_i hRoot
      rw [hRoot]
      unfold listing
      split
      · rename_i records hData
        simp [Entity.definition?, hData]
      · rfl
    · rfl

/-- A change that leaves the types of declarations as they are. -/
theorem Typed.modify (h : t.Typed) {id : EntityId} {f : Entity → Entity}
    (hf : ∀ e d, (f e).declaration? = some d →
      ∃ d₀, e.declaration? = some d₀ ∧ d.type = d₀.type)
    (i : EntityId) (d : Declaration) (hd : ((t.modify id f).get i).declaration? = some d) :
    t.Refers d.type := by
  rw [get_modify] at hd
  split at hd
  · obtain ⟨d₀, hOld, hType⟩ := hf _ d hd
    rw [hType]
    exact h id d₀ hOld
  · exact h i d hd

theorem declaration?_mapDeclaration {f : Declaration → Declaration}
    (hf : ∀ d, (f d).type = d.type) (e : Entity) (d : Declaration)
    (h : (e.mapDeclaration f).declaration? = some d) :
    ∃ d₀, e.declaration? = some d₀ ∧ d.type = d₀.type := by
  unfold Entity.mapDeclaration at h
  split at h
  · rename_i d₀ hData
    have hd : f d₀ = d := Option.some.inj h
    refine ⟨d₀, ?_, ?_⟩
    · unfold Entity.declaration?
      rw [hData]
    · rw [← hd, hf]
  · exact ⟨d, h, rfl⟩

theorem declaration?_mapDefinition (f : Definition → Definition) (e : Entity) :
    (e.mapDefinition f).declaration? = e.declaration? := by
  unfold Entity.mapDefinition
  split
  · rename_i d hData
    simp [Entity.declaration?, hData]
  · rfl

theorem typed_step (hPos : 0 < t.size) (h : t.Typed) (hStep : Step t t') : t'.Typed := by
  have hExtends := hStep.extends hPos
  suffices hOld : ∀ i d, (t'.get i).declaration? = some d → t.Refers d.type by
    intro i d hd
    exact hExtends.refers (hOld i d hd)
  have hSame : ∀ {f : Entity → Entity}, (∀ e, (f e).declaration? = e.declaration?) →
      ∀ e d, (f e).declaration? = some d →
        ∃ d₀, e.declaration? = some d₀ ∧ d.type = d₀.type := by
    intro f hf e d hd
    rw [hf] at hd
    exact ⟨d, hd, rfl⟩
  cases hStep with
  | record r =>
    intro i d hd
    rw [declaration?_addRecords_singleton hPos] at hd
    exact h i d hd
  | add hReady hStarts hParameter hRefers hAdd =>
    obtain ⟨-, -, -, -, -, hGet⟩ := add_eq_ok hAdd
    intro i d hd
    rw [hGet] at hd
    split at hd
    · unfold Entity.declaration? at hd
      split at hd
      · rename_i d₀ hData
        cases hd
        exact hRefers d hData
      · cases hd
    · exact h i d hd
  | name hOpen hName hForward hListed hSet =>
    obtain ⟨e, hRenames, -⟩ := (naming_of_setName hOpen.lt hSet).renames
    intro i d hd
    rw [hRenames.declaration] at hd
    exact h i d hd
  | inherit => exact h.modify (hSame (declaration?_mapDefinition _))
  | switch => exact h.modify (hSame (declaration?_mapDefinition _))
  | annotate hf =>
    refine h.modify (hSame ?_)
    intro e
    rw [hf e]
    rfl
  | complete hf => exact h.modify (declaration?_mapDeclaration fun d => (hf d).type_eq)
  | start => exact h.modify (declaration?_mapDeclaration fun _ => rfl)
  | finish => exact h.modify (declaration?_mapDeclaration fun _ => rfl)

theorem typed_initial (caseSensitive : Bool) : (initial caseSensitive).Typed := by
  intro i d hd
  by_cases hi : i < (initial caseSensitive).size
  · have hRoot : i = root := Nat.lt_one_iff.mp hi
    rw [hRoot] at hd
    cases hd
  · rw [declaration?_of_le hi] at hd
    cases hd

theorem Reachable.typed (h : t.Reachable) : t.Typed := by
  obtain ⟨caseSensitive, hSteps⟩ := h
  induction hSteps with
  | refl => exact typed_initial caseSensitive
  | tail hBefore hStep ih =>
    exact typed_step (Reachable.size_pos ⟨caseSensitive, hBefore⟩) ih hStep

theorem IsType.found {id : EntityId} (h : t.IsType id) : t.Found id := by
  refine ⟨h.1, ?_⟩
  have hKind := h.2
  revert hKind
  cases (t.get id).kind <;> simp [EntityKind.isType, Registrable, EntityKind.isDefinition,
    EntityKind.isDeclaration]

/-- Typedefs and forward declarations lead from what was found to something that can be found
by its name. -/
theorem Reachable.found_resolved (h : t.Reachable) {id : EntityId} (hFound : t.Found id) :
    t.Found (t.resolved id) := by
  refine (wellFormed_of_reachable h).resolvedWithin_found ?_ hFound
  intro i d x _ hd hDefinition
  exact (h.typed i d hd x (DeclaredType.mem_references hDefinition)).found

end Tree

end IdlReader
