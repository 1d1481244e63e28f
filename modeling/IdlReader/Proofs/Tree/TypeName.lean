import IdlReader.Proofs.Tree.Lookup

/-!
# Names of types

The name of a type that has one segment is looked up on the search path, and a scope in which
only a declaration has the name ends the search. So a declaration hides the types of its name
in the scopes behind its own one, although definitions come first in each single scope.

* `findType_isType_iff`: when the name of a type leads to a type.
* `findType_declared_iff`: what the declaration of a member does to the names of types.
* `Reachable.findType_hidden_iff`: what stays hidden for the members behind it.
-/

namespace IdlReader.Tree

variable {t t' : Tree}

/-- Whether a name has one segment only. -/
def IsSegment (name : String) : Prop :=
  name.toList ≠ [] ∧ (splitSegment name.toList).2 = none

instance (name : String) : Decidable (IsSegment name) := inferInstanceAs (Decidable (_ ∧ _))

/-- Whether a kind has its names among those of definitions. -/
def isTypeName (k : EntityKind) : Bool := k == .typedef || k.isDefinition

/-- Whether the search for a name meets a definition or typedef before, or in the same scope
as, the first declaration of the name. -/
def Visible (t : Tree) (start : EntityId) (name : String) : Prop :=
  ∃ before s after, t.searchPath start = before ++ s :: after ∧
    (∃ id, (t.scope s).get? false (t.key name) = some id) ∧
    ∀ s' ∈ before, (t.scope s').get? true (t.key name) = none

/-! ## Segments -/

theorem splitSegment_of_none {s : List Char} (h : (splitSegment s).2 = none) :
    (splitSegment s).1 = s ∧ [':', ':'].isPrefixOf s = false := by
  fun_induction splitSegment s with
  | case1 => exact ⟨rfl, rfl⟩
  | case2 s => cases h
  | case3 s => cases h
  | case4 c s hColons hPoint r ih =>
    refine ⟨congrArg (c :: ·) (ih h).1, ?_⟩
    cases s with
    | nil => simp [List.isPrefixOf]
    | cons d s =>
      simp only [List.isPrefixOf, Bool.and_true, Bool.and_eq_false_iff, beq_eq_false_iff_ne]
      by_cases hc : c = ':'
      · subst hc
        refine Or.inr ?_
        rintro rfl
        exact hColons s rfl rfl
      · exact Or.inl fun hEq => hc hEq.symm

/-- A name with one segment is that of the first scope on the search path that holds it. -/
theorem findWithin_segment {name : String} (h : IsSegment name) (d : Bool) (start : EntityId) :
    t.findWithin d (name.toList.length + 1) start name.toList true =
      (t.searchPath start).findSome? fun s => (t.scope s).lookup? d (t.key name) := by
  obtain ⟨hSegment, hRelative⟩ := splitSegment_of_none h.2
  have hEmpty : name.toList.isEmpty = false := by simpa using h.1
  have hFrom : ∀ owner, t.findFrom d name.toList.length name.toList owner =
      t.lookupKey d (t.key name) owner := by
    intro owner
    unfold findFrom
    rw [hSegment, h.2, String.ofList_toList]
    cases t.lookupKey d (t.key name) owner <;> rfl
  unfold searchPath
  rw [findWithin_relative _ _ _ hRelative, hEmpty, findSome?_flatMap]
  exact congrArg ((t.enclosing start).findSome? ·)
    (funext fun owner => (hFrom owner).trans (lookupWithin_eq t d _ _ owner))

theorem findType_segment {name : String} (h : IsSegment name) (start : EntityId) :
    t.findType start name =
      (t.searchPath start).findSome? fun s => (t.scope s).lookup? true (t.key name) :=
  findWithin_segment h true start

theorem find_segment {name : String} (h : IsSegment name) (start : EntityId) :
    t.find start name true =
      (t.searchPath start).findSome? fun s => (t.scope s).lookup? false (t.key name) :=
  findWithin_segment h false start

/-! ## Hidden types -/

theorem lookup?_true (s : Scope) (key : String) :
    s.lookup? true key = (s.get? false key).or (s.get? true key) := rfl

namespace WellFormed

theorem isTypeName_of_get? (h : t.WellFormed) {s : ScopeId} {d : Bool} {key : String}
    {i id : EntityId} (hScope : (t.get i).scope = some s)
    (hGet : (t.scope s).get? d key = some id) : isTypeName (t.get id).kind = !d := by
  have hFound := (h.found_of_get? hScope hGet).2
  have hKind := h.kind_of_get? hScope hGet
  unfold Registrable at hFound
  unfold isDeclarationName at hKind
  unfold isTypeName
  revert hFound hKind
  cases (t.get id).kind <;> cases d <;> decide

theorem findType_isType_iff (h : t.WellFormed) {name : String} (hSegment : IsSegment name)
    (start : EntityId) :
    (∃ id, t.findType start name = some id ∧ isTypeName (t.get id).kind = true) ↔
      t.Visible start name := by
  rw [findType_segment hSegment]
  have hScopes : ∀ s ∈ t.searchPath start, ∃ i, (t.get i).scope = some s := by
    intro s hs
    obtain ⟨owner, -, hOwner⟩ := List.mem_flatMap.mp hs
    exact mem_scopesWithin hOwner
  constructor
  · rintro ⟨id, hFind, hType⟩
    obtain ⟨before, s, after, hPath, hHere, hBefore⟩ := List.findSome?_eq_some_iff.mp hFind
    refine ⟨before, s, after, hPath, ?_, ?_⟩
    · rw [lookup?_true] at hHere
      rcases Option.or_eq_some_iff.mp hHere with hGet | ⟨-, hGet⟩
      · exact ⟨id, hGet⟩
      · obtain ⟨i, hi⟩ := hScopes s (by simp [hPath])
        have hNot := h.isTypeName_of_get? hi hGet
        rw [hType] at hNot
        cases hNot
    · intro s' hs'
      have hNone := hBefore s' hs'
      rw [lookup?_true, Option.or_eq_none_iff] at hNone
      exact hNone.2
  · rintro ⟨before, s, after, hPath, ⟨id, hGet⟩, hBefore⟩
    have hHere : (t.scope s).lookup? true (t.key name) = some id := by
      rw [lookup?_true, hGet]
      rfl
    rw [hPath, List.findSome?_append, List.findSome?_cons, hHere]
    cases hFirst : before.findSome? fun s => (t.scope s).lookup? true (t.key name) with
    | none =>
      obtain ⟨i, hi⟩ := hScopes s (by simp [hPath])
      exact ⟨id, rfl, h.isTypeName_of_get? hi hGet⟩
    | some x =>
      obtain ⟨s', hs', hx⟩ := List.exists_of_findSome?_eq_some hFirst
      rw [lookup?_true, hBefore s' hs', Option.or_none] at hx
      obtain ⟨i, hi⟩ := hScopes s' (by simp [hPath, hs'])
      exact ⟨x, rfl, h.isTypeName_of_get? hi hx⟩

end WellFormed

/-! ## Members that are declared -/

theorem scopesWithin_congr (hScope : ∀ i, (t'.get i).scope = (t.get i).scope)
    (hDefinition : ∀ i, (t'.get i).definition? = (t.get i).definition?) (n : Nat)
    (owner : EntityId) : t'.scopesWithin n owner = t.scopesWithin n owner := by
  induction n generalizing owner with
  | zero => rfl
  | succ n ih =>
    have hFun : t'.scopesWithin n = t.scopesWithin n := funext ih
    rw [scopesWithin, scopesWithin, hScope, hDefinition, hFun]

theorem enclosingWithin_congr (hParent : ∀ i, (t'.get i).parent = (t.get i).parent) (n : Nat)
    (id : EntityId) : t'.enclosingWithin n id = t.enclosingWithin n id := by
  induction n generalizing id with
  | zero => rfl
  | succ n ih =>
    have hFun : t'.enclosingWithin n = t.enclosingWithin n := funext ih
    rw [enclosingWithin, enclosingWithin, hParent, hFun]

/-- The search path of an entity starts with its own scope. -/
theorem searchPath_eq_cons {start : EntityId} {s : ScopeId} (h : (t.get start).scope = some s) :
    ∃ rest, t.searchPath start = s :: rest := by
  unfold searchPath enclosing
  rw [enclosingWithin, List.flatMap_cons, scopesWithin, h]
  exact ⟨_, rfl⟩

namespace WellFormed

/-- What the declaration of a member does. -/
theorem declared (h : t.WellFormed) {id found : EntityId} {name : String}
    (hKind : isDeclarationName (t.get id).kind = true)
    (hNaming : Naming t id name false found t') :
    ∃ parent s, (t.get id).parent = some parent ∧ (t.get parent).scope = some s ∧
      Renames t t' id { t.get id with name, forward := false } ∧
      ∀ s' d k, (t'.scope s').get? d k =
        if s' = s ∧ d = true ∧ k = t.key name then some id else (t.scope s').get? d k := by
  have hLt : ∀ {parent : EntityId} {s : ScopeId}, (t.get parent).scope = some s →
      s < t.scopes.size := fun hScope => h.scope_lt _ _ (lt_size_of_scope hScope) hScope
  cases hNaming with
  | @fresh _ _ parent s hParent hScope hFree hRenames hScopes =>
    refine ⟨parent, s, hParent, hScope, hRenames, ?_⟩
    intro s' d k
    rw [scope_eq_of_scopes hScopes, scope_insertName (hLt hScope), hKind]
    by_cases hs : s' = s
    · subst hs
      simp [Scope.get?_insert]
    · simp [hs]
  | reopened hParent hScope hExisting hModule hSame =>
    rw [hSame] at hKind
    cases hKind
  | completed hParent hScope hExisting hSame hModule hForward =>
    have hLt := (h.found_of_get? hScope hExisting).1.1
    rw [h.forward_of_isDeclarationName hLt (hSame ▸ hKind)] at hForward
    cases hForward

/-- After the declaration of a member, the name of a type still leads to a type unless it is
the name of the member and the type belongs to an enclosing entity or to a base. -/
theorem findType_declared_iff (h : t.WellFormed) {id found parent : EntityId}
    {name type : String} (hKind : isDeclarationName (t.get id).kind = true)
    (hParent : (t.get id).parent = some parent) (hNaming : Naming t id name false found t')
    (hSegment : IsSegment type)
    (hBefore : ∃ x, t.findType parent type = some x ∧ isTypeName (t.get x).kind = true) :
    (∃ x, t'.findType parent type = some x ∧ isTypeName (t'.get x).kind = true) ↔
      t.key type ≠ t.key name ∨
        ∃ s x, (t.get parent).scope = some s ∧ (t.scope s).get? false (t.key type) = some x := by
  obtain ⟨p, s, hp, hScope, hRenames, hGet⟩ := h.declared hKind hNaming
  rw [hParent] at hp
  cases hp
  have hSame : ∀ {α : Type} (f : Entity → α), (∀ e e', Entity.Alike e e' → f e' = f e) →
      f { t.get id with name, forward := false } = f (t.get id) →
      ∀ i, f (t'.get i) = f (t.get i) := by
    intro α f hf hId i
    by_cases hi : i = id
    · rw [hi, hf _ _ hRenames.self, hId]
    · exact hf _ _ (hRenames.others i hi)
  have hKinds := hSame Entity.kind (fun _ _ hAlike => hAlike.kind) rfl
  have hPath : t'.searchPath parent = t.searchPath parent := by
    have hParents := hSame Entity.parent (fun _ _ hAlike => hAlike.parent) rfl
    have hScopes := hSame Entity.scope (fun _ _ hAlike => hAlike.scope) rfl
    unfold searchPath enclosing
    rw [hRenames.size, enclosingWithin_congr hParents,
      funext (scopesWithin_congr hScopes hRenames.definition (t.size + 1))]
  have hKey := key_eq_of_caseSensitive hRenames.caseSensitive type
  rw [findType_segment hSegment] at hBefore ⊢
  rw [hPath, hKey]
  simp only [hKinds]
  by_cases hName : t.key type = t.key name
  · obtain ⟨rest, hRest⟩ := searchPath_eq_cons hScope
    have hOwn : (t'.scope s).lookup? true (t.key type) =
        ((t.scope s).get? false (t.key type)).or (some id) := by
      rw [lookup?_true, hGet, hGet, if_neg (by simp), if_pos ⟨rfl, rfl, hName⟩]
    have hNot : isTypeName (t.get id).kind = false := by
      revert hKind
      unfold isDeclarationName isTypeName
      cases (t.get id).kind <;> decide
    rw [hRest, List.findSome?_cons, hOwn]
    cases hType : (t.scope s).get? false (t.key type) with
    | none =>
      rw [hName] at hType
      simp [hName, hScope, hType, hNot]
    | some x =>
      have hx := h.isTypeName_of_get? hScope hType
      rw [hName] at hType
      simp [hName, hScope, hType, hx]
  · have hLookup : ∀ s', (t'.scope s').lookup? true (t.key type) =
        (t.scope s').lookup? true (t.key type) := by
      intro s'
      rw [lookup?_true, lookup?_true, hGet, hGet, if_neg (by simp),
        if_neg fun hHere => hName hHere.2.2]
    simp only [hLookup]
    exact ⟨fun _ => Or.inl hName, fun _ => hBefore⟩

/-! ## Types that stay hidden -/

/-- A step keeps the names of a scope, up to what they stand for. -/
theorem get?_isSome_step (h : t.WellFormed) (hStep : Step t t') {s : ScopeId}
    (hs : s < t.scopes.size) {d : Bool} {k : String}
    (hSome : ((t.scope s).get? d k).isSome = true) :
    s < t'.scopes.size ∧ ((t'.scope s).get? d k).isSome = true := by
  have hSame : t'.scopes = t.scopes → s < t'.scopes.size ∧
      ((t'.scope s).get? d k).isSome = true := by
    intro hScopes
    rw [scope_eq_of_scopes hScopes, hScopes]
    exact ⟨hs, hSome⟩
  have hInsert : ∀ {p : EntityId} {scope : ScopeId} {declaration : Bool} {key : String}
      {id : EntityId}, (t.get p).scope = some scope →
      t'.scopes = (t.insertName scope declaration key id).scopes → s < t'.scopes.size ∧
        ((t'.scope s).get? d k).isSome = true := by
    intro p scope declaration key id hScope hScopes
    have hLt := h.scope_lt p scope (lt_size_of_scope hScope) hScope
    constructor
    · rw [hScopes]
      simpa [insertName] using hs
    · rw [scope_eq_of_scopes hScopes, scope_insertName hLt]
      split
      · rename_i hHere
        rw [Scope.get?_insert]
        split
        · rfl
        · rw [← hHere]
          exact hSome
      · exact hSome
  rcases hStep.cases_names with ⟨id, f, -, rfl⟩ | ⟨r, rfl⟩ | ⟨_, _, _, _, _, _, -, -, -, hAdd⟩ |
    ⟨_, _, _, _, _, -, -, -, -, hNaming⟩
  · exact hSame rfl
  · exact hSame rfl
  · obtain ⟨-, -, -, -, hScopes, -⟩ := add_eq_ok hAdd
    split at hScopes
    · have hOld : t'.scope s = t.scope s := by
        unfold scope
        rw [hScopes, Array.getElem?_push_lt hs, Array.getElem?_eq_getElem hs]
      rw [hOld, hScopes, Array.size_push]
      exact ⟨Nat.lt_succ_of_lt hs, hSome⟩
    · exact hSame hScopes
  · cases hNaming with
    | fresh _ hScope _ _ hScopes => exact hInsert hScope hScopes
    | repeated _ _ _ _ _ hScopes => exact hSame hScopes
    | reopened _ _ _ _ _ _ hScopes => exact hSame hScopes
    | completed _ hScope _ _ _ _ _ hScopes => exact hInsert hScope hScopes

/-- A declaration in the scope of an entity hides all types that are no part of it. -/
theorem findType_hidden_iff (h : t.WellFormed) {start : EntityId} {s : ScopeId} {type : String}
    (hScope : (t.get start).scope = some s)
    (hDeclared : ((t.scope s).get? true (t.key type)).isSome = true)
    (hSegment : IsSegment type) :
    (∃ x, t.findType start type = some x ∧ isTypeName (t.get x).kind = true) ↔
      ∃ x, (t.scope s).get? false (t.key type) = some x := by
  obtain ⟨declared, hDeclared⟩ := Option.isSome_iff_exists.mp hDeclared
  obtain ⟨rest, hRest⟩ := searchPath_eq_cons hScope
  rw [findType_segment hSegment, hRest, List.findSome?_cons, lookup?_true, hDeclared]
  cases hType : (t.scope s).get? false (t.key type) with
  | none =>
    have hNot := h.isTypeName_of_get? hScope hDeclared
    simp [hNot]
  | some x =>
    have hx := h.isTypeName_of_get? hScope hType
    simp [hx]

end WellFormed

/-- In all trees that steps lead to, a type stays hidden behind a declaration. -/
theorem Reachable.findType_hidden_iff (h : t.Reachable) (hSteps : Steps t t')
    {start : EntityId} {s : ScopeId} {type : String}
    (hSettled : start = root ∨ (t.get start).name ≠ "")
    (hScope : (t.get start).scope = some s)
    (hDeclared : ((t.scope s).get? true (t.key type)).isSome = true)
    (hSegment : IsSegment type) :
    (∃ x, t'.findType start type = some x ∧ isTypeName (t'.get x).kind = true) ↔
      ∃ x, (t'.scope s).get? false (t'.key type) = some x := by
  have hStays : s < t'.scopes.size ∧ ((t'.scope s).get? true (t.key type)).isSome = true := by
    induction hSteps with
    | refl =>
      exact ⟨(wellFormed_of_reachable h).scope_lt start s (lt_size_of_scope hScope) hScope,
        hDeclared⟩
    | tail hBefore hStep ih =>
      exact (wellFormed_of_reachable (h.steps hBefore)).get?_isSome_step hStep ih.1 ih.2
  have hExtends := hSteps.extends h.size_pos
  have hScope' := (hExtends.settled start (lt_size_of_scope hScope) hSettled).2.2.trans hScope
  rw [← key_eq_of_caseSensitive hExtends.caseSensitive type] at hStays
  exact (wellFormed_of_reachable (h.steps hSteps)).findType_hidden_iff hScope' hStays.2 hSegment

end IdlReader.Tree
