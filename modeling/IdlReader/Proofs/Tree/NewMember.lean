import IdlReader.Proofs.Tree.Constants
import IdlReader.Proofs.Tree.Precedence
import IdlReader.Proofs.Tree.ScopedName
import IdlReader.Proofs.Tree.TypeName

/-!
# One member more

A declaration becomes a member of an entity in which its name is free (`Tree.Free`). It is all that
the tree has more then (`Tree.Gets`), as far as directives are not recorded on the way, and names of
types lead to what they led to while none but those are recorded.

* `Retains.lookupKey`, `Retains.findType`: what stays found.
* `Gets.accepts`: an entity accepts a declaration with a name that is free.
-/

namespace IdlReader.Tree

variable {t t' t'' : Tree} {owner x : EntityId} {kind : EntityKind} {name : String} {d : Declaration}

/-! ## What stays found -/

section Retains

variable (hRetains : Retains t t')
include hRetains

theorem Retains.lookupWithin (h : t.Reachable) (first : Bool) (key : String) (n : Nat)
    {owner : EntityId} (hOwner : owner < t.size) :
    t'.lookupWithin first key n owner = t.lookupWithin first key n owner := by
  induction n generalizing owner with
  | zero => rfl
  | succ n ih =>
    have hEntity := hRetains.entity owner hOwner
    rw [Tree.lookupWithin, Tree.lookupWithin, hEntity.scope, hEntity.definition]
    cases (t.get owner).scope with
    | none => rfl
    | some s =>
      dsimp only
      rw [scope_eq_of_scopes hRetains.scopes]
      cases (t.scope s).lookup? first key with
      | some id => rfl
      | none =>
        dsimp only
        cases hd : (t.get owner).definition? with
        | none => rfl
        | some d =>
          refine findSome?_congr fun b hb => ih ?_
          exact Nat.lt_trans ((h.heads hd).bases b hb).1 hOwner

/-- What is found in an entity stays the same when directives are recorded. -/
theorem Retains.lookupKey (h : t.Reachable) (first : Bool) (key : String) {owner : EntityId}
    (hOwner : owner < t.size) : t'.lookupKey first key owner = t.lookupKey first key owner :=
  (hRetains.lookupWithin h first key _ hOwner).trans
    (h.lookupWithin_of_lt first key (Nat.lt_succ_of_lt (Nat.lt_of_lt_of_le hOwner hRetains.size)))

theorem Retains.lookupInBases (h : t.Reachable) (key : String) {owner : EntityId}
    (hOwner : owner < t.size) : t'.lookupInBases owner key = t.lookupInBases owner key := by
  unfold Tree.lookupInBases
  rw [(hRetains.entity owner hOwner).definition]
  cases hd : (t.get owner).definition? with
  | none => rfl
  | some d =>
    refine findSome?_congr fun b hb => ?_
    exact hRetains.lookupKey h false key (Nat.lt_trans ((h.heads hd).bases b hb).1 hOwner)

theorem Retains.enclosing (h : t.Framed) {id : EntityId} (hLt : id < t.size) :
    t'.enclosing id = t.enclosing id ∧ ∀ a ∈ t.enclosing id, a < t.size := by
  have hWithin : ∀ n {id : EntityId}, id < t.size →
      t'.enclosingWithin n id = t.enclosingWithin n id ∧ ∀ a ∈ t.enclosingWithin n id, a < t.size := by
    intro n
    induction n with
    | zero => exact fun _ => ⟨rfl, nofun⟩
    | succ n ih =>
      intro id hLt
      rw [enclosingWithin, enclosingWithin, (hRetains.entity id hLt).parent]
      cases hParent : (t.get id).parent with
      | none => exact ⟨rfl, fun a ha => List.mem_singleton.mp ha ▸ hLt⟩
      | some p =>
        obtain ⟨hSame, hAll⟩ := ih (h.parent_lt_size hLt hParent)
        refine ⟨congrArg (id :: ·) hSame, fun a ha => ?_⟩
        rcases List.mem_cons.mp ha with rfl | ha
        · exact hLt
        · exact hAll a ha
  refine ⟨(hWithin _ hLt).1.trans (h.enclosingWithin_eq hLt ?_ (Nat.lt_succ_of_lt hLt)),
    (hWithin _ hLt).2⟩
  exact Nat.lt_succ_of_lt (Nat.lt_of_lt_of_le hLt hRetains.size)

omit hRetains in
/-- A name with one segment is that of the first of the enclosing entities that knows it. -/
theorem findType_enclosing (hSegment : IsSegment name) (start : EntityId) :
    t.findType start name =
      (t.enclosing start).findSome? (t.lookupKey true (t.key name)) := by
  rw [findType_segment hSegment, searchPath, findSome?_flatMap]
  exact congrArg ((t.enclosing start).findSome? ·)
    (funext fun owner => (lookupWithin_eq t true _ _ owner).symm)

/-- The name of a type leads to what it led to. -/
theorem Retains.findType (h : t.Reachable) (hSegment : IsSegment name) {start : EntityId}
    (hStart : start < t.size) : t'.findType start name = t.findType start name := by
  obtain ⟨hSame, hAll⟩ := hRetains.enclosing (wellFormed_of_reachable h).toFramed hStart
  rw [findType_enclosing hSegment, findType_enclosing hSegment, hSame,
    key_eq_of_caseSensitive hRetains.caseSensitive]
  exact findSome?_congr fun a ha => hRetains.lookupKey h true _ (hAll a ha)

end Retains

/-! ## The new member -/

/-- Whether no declaration in an entity has a name, and no base of it does. -/
structure Free (t : Tree) (owner : EntityId) (name : String) : Prop where
  own : ∃ s, (t.get owner).scope = some s ∧ (t.scope s).get? true (t.key name) = none
  inherited : t.lookupInBases owner (t.key name) = none

theorem Free.lt (h : t.Free owner name) : owner < t.size := by
  obtain ⟨s, hScope, -⟩ := h.own
  exact lt_size_of_scope hScope

/-- Whether a tree has a declaration more than another one, as the last member of `owner`, and
otherwise nothing but recorded directives. -/
structure Gets (t t' : Tree) (owner x : EntityId) (kind : EntityKind) (name : String)
    (d : Declaration) : Prop where
  caseSensitive : t'.caseSensitive = t.caseSensitive
  old : owner < t.size
  new : t.size ≤ x
  lt : x < t'.size
  kind : (t'.get x).kind = kind
  hasName : (t'.get x).name = name
  parent : (t'.get x).parent = some owner
  full : (t'.get x).forward = false
  declaration : (t'.get x).declaration? = some d
  children : (t'.get owner).children = (t.get owner).children ++ [x]
  holder : (t.get owner).Retains { t'.get owner with children := (t.get owner).children }
  others : ∀ i, i < t.size → i ≠ owner → (t.get i).Retains (t'.get i)
  added : ∀ i, t.size ≤ i → i < t'.size → i ≠ x → (t'.get i).kind = .directive
  scopes : ∃ s, (t.get owner).scope = some s ∧ t'.scopes = (t.insertName s true (t.key name) x).scopes

namespace Gets

theorem records (h : t.Gets t' owner x kind name d) (hRecords : Records t' t'') :
    t.Gets t'' owner x kind name d := by
  have hMember := hRecords.entity x h.lt
  have hGrown := Nat.le_trans h.new (Nat.le_of_lt h.lt)
  have hOwner := hRecords.entity owner (Nat.lt_of_lt_of_le h.old hGrown)
  exact
    { caseSensitive := hRecords.caseSensitive.trans h.caseSensitive
      old := h.old
      new := h.new
      lt := Nat.lt_of_lt_of_le h.lt hRecords.size
      kind := hMember.kind.trans h.kind
      hasName := hMember.name.trans h.hasName
      parent := hMember.parent.trans h.parent
      full := hMember.forward.trans h.full
      declaration := hMember.declaration.trans h.declaration
      children := hOwner.children.trans h.children
      holder := h.holder.trans ⟨hOwner.kind, hOwner.name, hOwner.parent, rfl, hOwner.scope,
        hOwner.forward, hOwner.anonymous, hOwner.definition, hOwner.declaration⟩
      others := fun i hi hNe =>
        (h.others i hi hNe).trans (hRecords.entity i (Nat.lt_of_lt_of_le hi hGrown))
      added := by
        intro i hi hLt hNe
        by_cases hOld : i < t'.size
        · rw [(hRecords.entity i hOld).kind]
          exact h.added i hi hOld hNe
        · exact hRecords.added i (Nat.le_of_not_lt hOld) hLt
      scopes := by
        rw [hRecords.scopes]
        exact h.scopes }

/-- What is declared changes. -/
theorem modify (h : t.Gets t' owner x kind name d) (f : Declaration → Declaration) :
    t.Gets (t'.modify x (Entity.mapDeclaration f)) owner x kind name (f d) := by
  have hSelf := get_modify_self h.lt (Entity.mapDeclaration f)
  have hAlike := Entity.alike_mapDeclaration f (t'.get x)
  have hOld : ∀ i, i < t.size → (t'.modify x (Entity.mapDeclaration f)).get i = t'.get i :=
    fun i hi => get_modify_of_ne (Nat.ne_of_lt (Nat.lt_of_lt_of_le hi h.new)) _
  exact
    { caseSensitive := h.caseSensitive
      old := h.old
      new := h.new
      lt := by
        rw [size_modify]
        exact h.lt
      kind := by
        rw [hSelf]
        exact hAlike.kind.trans h.kind
      hasName := by
        rw [hSelf]
        exact hAlike.name.trans h.hasName
      parent := by
        rw [hSelf]
        exact hAlike.parent.trans h.parent
      full := by
        rw [hSelf]
        exact hAlike.forward.trans h.full
      declaration := by
        rw [declaration?_modify, if_pos rfl, h.declaration]
        rfl
      children := by
        rw [hOld owner h.old]
        exact h.children
      holder := by
        rw [hOld owner h.old]
        exact h.holder
      others := by
        intro i hi hNe
        rw [hOld i hi]
        exact h.others i hi hNe
      added := by
        intro i hi hLt hNe
        rw [size_modify] at hLt
        rw [get_modify_of_ne hNe]
        exact h.added i hi hLt hNe
      scopes := h.scopes }

/-- A declaration with a name that is free is added and gets this name. -/
theorem exists_setName (h : t.Reachable) (hFree : t.Free owner name) (hRecords : Records t t')
    (hKind : isDeclarationName kind = true) (hPlain : kind.supportsChildren = false)
    (d : Declaration) (source : SourceId) (span : Span) : ∃ x t₁ t₂,
      t'.add owner kind source span (.declaration d) = .ok (x, t₁) ∧
        t₁.setName x name false true = .ok (x, t₂) ∧ t.Gets t₂ owner x kind name d := by
  obtain ⟨s, hScope, hNone⟩ := hFree.own
  have hLt := hFree.lt
  have hWellFormed := wellFormed_of_reachable h
  have hOwner := hRecords.entity owner hLt
  have hOwner' := Nat.lt_of_lt_of_le hLt hRecords.size
  have hSupports : (t'.get owner).kind.supportsChildren = true := by
    rw [hOwner.kind, ← hWellFormed.hasScope owner hLt, hScope]
    rfl
  obtain ⟨t₁, hAdd⟩ := exists_add hSupports kind source span (.declaration d)
  obtain ⟨-, -, hSize, hCase, hScopes, hGet⟩ := add_eq_ok hAdd
  rw [hPlain] at hScopes hGet
  have hOld : ∀ i, i < t'.size → t₁.get i = t'.get i := fun i hi => by
    rw [hGet, if_neg (Nat.ne_of_lt hi)]
  have hSelf := hGet t'.size
  rw [if_pos rfl] at hSelf
  -- Up to the name, the entity makes no difference to those that were there.
  have hRetains : Retains t t₁ := by
    refine hRecords.toRetains.trans ⟨by omega, hCase, hScopes, fun i hi => ?_⟩
    rw [hOld i hi]
    exact .refl _
  have hKey := key_eq_of_caseSensitive hRetains.caseSensitive name
  have hNewKind : (t₁.get t'.size).kind = kind := by rw [hSelf]
  have hBases : t₁.lookupInBases owner (t₁.key name) = none := by
    rw [hKey, hRetains.lookupInBases h _ hLt]
    exact hFree.inherited
  have hFresh : (t₁.scope s).get? (isDeclarationName (t₁.get t'.size).kind) (t₁.key name) =
      none := by
    rw [hNewKind, hKind, hKey, scope_eq_of_scopes hRetains.scopes]
    exact hNone
  have hNext : t'.size < t₁.size := hSize ▸ Nat.lt_succ_self _
  obtain ⟨t₂, hSet, hSize₂, hCase₂, hScopes₂, hId, hOwner₂, hOthers⟩ :=
    setName_fresh hNext (Nat.lt_trans hOwner' hNext) (Nat.ne_of_gt hOwner')
      (by rw [hSelf]) ((hRetains.entity owner hLt).scope.trans hScope) hBases hFresh
  rw [hSelf] at hId
  refine ⟨t'.size, t₁, t₂, hAdd, hSet, ?_⟩
  exact
    { caseSensitive := hCase₂.trans hRetains.caseSensitive
      old := hLt
      new := hRecords.size
      lt := hSize₂ ▸ hNext
      kind := by rw [hId]
      hasName := by rw [hId]
      parent := by rw [hId]
      full := by rw [hId]
      declaration := by
        rw [hId]
        rfl
      children := by
        rw [hOwner₂, ← (hRetains.entity owner hLt).children]
      holder := by
        have hEntity := hRetains.entity owner hLt
        rw [hOwner₂]
        exact ⟨hEntity.kind, hEntity.name, hEntity.parent, rfl, hEntity.scope, hEntity.forward,
          hEntity.anonymous, hEntity.definition, hEntity.declaration⟩
      others := by
        intro i hi hNe
        rw [hOthers i (Nat.ne_of_lt (Nat.lt_of_lt_of_le hi hRecords.size)) hNe]
        exact hRetains.entity i hi
      added := by
        intro i hi hLt₂ hNe
        have hLt' : i < t'.size := by omega
        have hNeOwner : i ≠ owner := Nat.ne_of_gt (Nat.lt_of_lt_of_le hLt hi)
        rw [hOthers i hNe hNeOwner, hOld i hLt']
        exact hRecords.added i hi hLt'
      scopes := by
        refine ⟨s, hScope, ?_⟩
        rw [hScopes₂, hNewKind, hKind, hKey, insertName, insertName, hRetains.scopes] }

/-- An entity accepts a declaration with a name that is free there. -/
theorem accepts (h : t.Reachable) {sort : Member} (hAdmits : (t.get owner).kind.admits sort = true)
    (hFree : t.Free owner name) (hKind : isDeclarationName kind = true)
    (hPlain : kind.supportsChildren = false) :
    Accepts sort kind owner name (Records t) (fun x d t' => t.Gets t' owner x kind name d) where
  before := fun _ _ hRecords hBefore => hBefore.trans hRecords
  behind := fun _ _ _ _ hRecords hGets => hGets.records hRecords
  pos := fun _ _ _ hGets => Nat.zero_lt_of_lt hGets.lt
  admits := by
    intro t' hRecords
    rw [(hRecords.entity owner hFree.lt).kind]
    exact hAdmits
  declare := fun _ hRecords d source span => exists_setName h hFree hRecords hKind hPlain d source span
  modify := fun _ _ _ hGets f => hGets.modify f

end Gets

end IdlReader.Tree
