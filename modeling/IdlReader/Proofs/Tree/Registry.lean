import IdlReader.Proofs.Tree.Frame

/-!
# The registry of names

What holds of names in every reachable tree: a name in a scope leads to an entity of that name,
and the name of every entity leads to it, or to what it goes on with.

* `WellFormed.step`: what a step preserves.
* `wellFormed_of_reachable`: every reachable tree is well formed.
-/

namespace IdlReader

theorem isName_recordName (k : RecordKind) : IsName (Tree.recordName k) := by
  cases k <;> decide

namespace Scope

theorem get?_insert (s : Scope) (d d' : Bool) (k k' : String) (id : EntityId) :
    (s.insert d k id).get? d' k' = if d' = d ∧ k' = k then some id else s.get? d' k' := by
  unfold insert get?
  by_cases hKey : k' = k
  · subst hKey
    cases d <;> cases d' <;> simp
  · have hBeq : (k' == k) = false := by simpa using hKey
    cases d <;> cases d' <;> simp [List.lookup_cons, hBeq, hKey]

theorem get?_empty (d : Bool) (k : String) : ({} : Scope).get? d k = none := by
  cases d <;> rfl

end Scope

namespace Tree

/-- What a scope holds behind a new name. -/
theorem get?_of_insertName {t : Tree} {scope s : ScopeId} {d d' : Bool} {k k' : String}
    {id x : EntityId} (h : ((t.insertName scope d k id).scope s).get? d' k' = some x) :
    x = id ∧ k' = k ∨ (t.scope s).get? d' k' = some x := by
  by_cases hLt : scope < t.scopes.size
  · rw [scope_insertName hLt] at h
    split at h
    · rename_i hSame
      rw [Scope.get?_insert] at h
      split at h
      · rename_i hHere
        exact Or.inl ⟨(Option.some.inj h).symm, hHere.2⟩
      · exact Or.inr (hSame ▸ h)
    · exact Or.inr h
  · have hSame : t.scopes.modify scope (·.insert d k id) = t.scopes := by
      refine Array.ext Array.size_modify fun i _ hi => ?_
      have hNe : scope ≠ i := fun hHere => hLt (hHere ▸ hi)
      rw [Array.getElem_modify, if_neg hNe]
    have hScope : (t.insertName scope d k id).scope s = t.scope s := scope_eq_of_scopes hSame s
    exact Or.inr (hScope ▸ h)

/-- What holds in every reachable tree. -/
structure WellFormed (t : Tree) : Prop extends Framed t where
  /-- A name in a scope leads to an entity of that name. -/
  entry : ∀ s d k x, s < t.scopes.size → (t.scope s).get? d k = some x →
    t.Named x ∧ Registrable (t.get x).kind ∧ isDeclarationName (t.get x).kind = d ∧
      k = t.key (t.get x).name ∧ ∃ p, (t.get x).parent = some p ∧ (t.get p).scope = some s
  /-- The name of an entity leads to it, or to what it goes on with. -/
  registered : ∀ x p s, t.Named x → Registrable (t.get x).kind → (t.get x).parent = some p →
    (t.get p).scope = some s →
    ∃ y, (t.scope s).get? (isDeclarationName (t.get x).kind) (t.key (t.get x).name) = some y ∧
      (t.get y).kind = (t.get x).kind ∧
      ((t.get x).forward = false →
        y = x ∨ (t.get x).kind = .module ∧ (t.get y).scope = (t.get x).scope)

theorem wellFormed_initial (caseSensitive : Bool) : (initial caseSensitive).WellFormed where
  toFramed := framed_initial caseSensitive
  entry := by
    intro s d k x hs hEntry
    have hZero : s = 0 := Nat.lt_one_iff.mp hs
    rw [hZero] at hEntry
    cases d <;> cases hEntry
  registered := by
    intro x p s hNamed
    have hRoot : x = root := Nat.lt_one_iff.mp hNamed.1
    rw [Named, hRoot] at hNamed
    exact absurd rfl hNamed.2

namespace WellFormed

variable {t t' : Tree}

theorem congr (h : t.WellFormed) (hSize : t'.size = t.size)
    (hCase : t'.caseSensitive = t.caseSensitive) (hScopes : t'.scopes = t.scopes)
    (hAlike : ∀ i, Entity.Alike (t.get i) (t'.get i)) : t'.WellFormed := by
  have hKind : ∀ i, (t'.get i).kind = (t.get i).kind := fun i => (hAlike i).kind
  have hName : ∀ i, (t'.get i).name = (t.get i).name := fun i => (hAlike i).name
  have hParent : ∀ i, (t'.get i).parent = (t.get i).parent := fun i => (hAlike i).parent
  have hScope : ∀ i, (t'.get i).scope = (t.get i).scope := fun i => (hAlike i).scope
  have hForward : ∀ i, (t'.get i).forward = (t.get i).forward := fun i => (hAlike i).forward
  have hNames : ∀ s, t'.scope s = t.scope s := scope_eq_of_scopes hScopes
  have hKey : ∀ n, t'.key n = t.key n := key_eq_of_caseSensitive hCase
  refine { h.toFramed.congr hSize hScopes hAlike with entry := ?_, registered := ?_ }
  · simpa only [Named, hSize, hScopes, hNames, hKind, hName, hKey, hParent, hScope] using h.entry
  · simpa only [Named, hSize, hNames, hKind, hName, hKey, hParent, hScope, hForward]
      using h.registered

end WellFormed

/-! ## An entity more -/

namespace Joins

variable {t t' : Tree} {e : Entity}

theorem wellFormed (h : t.WellFormed) (hJoins : Joins t t' e) (hNew : Admissible t e) :
    t'.WellFormed := by
  have hKey : ∀ n, t'.key n = t.key n := key_eq_of_caseSensitive hJoins.caseSensitive
  refine { hJoins.framed h.toFramed hNew with entry := ?_, registered := ?_ }
  · intro s d k x hs hEntry
    by_cases hOld : s < t.scopes.size
    · rw [hJoins.scope_of_lt hOld] at hEntry
      obtain ⟨hNamed, hRegistrable, hd, hk, q, hq, hqs⟩ := h.entry s d k x hOld hEntry
      have hx := hJoins.old x hNamed.1
      have hqOld := hJoins.old q (h.parent_lt_size hNamed.1 hq)
      refine ⟨(hJoins.named_iff hNamed.1).mpr hNamed, ?_, ?_, ?_, q, ?_, ?_⟩
      · rw [hx.kind]
        exact hRegistrable
      · rw [hx.kind]
        exact hd
      · rw [hx.name, hKey]
        exact hk
      · rw [hx.parent]
        exact hq
      · rw [hqOld.scope]
        exact hqs
    · rw [hJoins.scope_of_le hs hOld, Scope.get?_empty] at hEntry
      cases hEntry
  · intro x q s hNamed hRegistrable hq hs
    have hx : x < t.size := by
      rcases hJoins.lt_or_eq hNamed.1 with hx | rfl
      · exact hx
      · rw [hJoins.new.kind] at hRegistrable
        rcases hNew.name with ⟨-, hEmpty⟩ | ⟨hDirective, -⟩
        · exact absurd (hJoins.new.name.trans hEmpty) hNamed.2
        · rw [hDirective] at hRegistrable
          rcases hRegistrable with hFalse | hFalse <;> cases hFalse
    have hxOld := hJoins.old x hx
    rw [hxOld.kind] at hRegistrable ⊢
    rw [hxOld.parent] at hq
    have hqLt := h.parent_lt_size hx hq
    rw [(hJoins.old q hqLt).scope] at hs
    have hsLt := h.scope_lt q s hqLt hs
    obtain ⟨y, hy, hyKind, hySame⟩ :=
      h.registered x q s ((hJoins.named_iff hx).mp hNamed) hRegistrable hq hs
    have hyOld := hJoins.old y (h.entry s _ _ y hsLt hy).1.1
    refine ⟨y, ?_, ?_, ?_⟩
    · rw [hJoins.scope_of_lt hsLt, hxOld.name, hKey]
      exact hy
    · rw [hyOld.kind]
      exact hyKind
    · rw [hxOld.forward, hxOld.scope, hyOld.scope]
      exact hySame

end Joins

namespace WellFormed

variable {t t' : Tree}

theorem record (h : t.WellFormed) (r : Record) : (t.addRecords [r]).WellFormed := by
  have hJoins : Joins t (t.addRecords [r]) (recorded r) :=
    { size := size_addRecords_singleton t r
      caseSensitive := rfl
      scopes := rfl
      old := fun i hi => alike_addRecords_singleton h.pos r hi
      new := get_addRecords_singleton_size h.pos r
      scope := rfl }
  exact hJoins.wellFormed h
    { parent := ⟨root, rfl, h.pos, Or.inl rfl, by rw [h.rootKind]; rfl,
        by simp [h.rootKind, recorded]⟩
      forward := rfl
      kind := nofun
      name := Or.inr ⟨rfl, isName_recordName r.kind⟩
      definition := nofun }

theorem add (h : t.WellFormed) {parent id : EntityId} {kind : EntityKind} {source : SourceId}
    {span : Span} {data : EntityData} (hReady : t.Ready parent) (hStarts : data.Starts kind)
    (hParameter : kind = .parameter ↔ (t.get parent).kind = .operation)
    (hAdd : t.add parent kind source span data = .ok (id, t')) : t'.WellFormed := by
  obtain ⟨hSupports, -, hSize, hCase, hScopes, hGet⟩ := add_eq_ok hAdd
  have hJoins : Joins t t'
      { kind, parent := some parent, source, span, data
        scope := if kind.supportsChildren then some t.scopes.size else none } :=
    { size := hSize
      caseSensitive := hCase
      scopes := hScopes
      old := fun i hi => by
        rw [hGet, if_neg (Nat.ne_of_lt hi)]
        exact Entity.Alike.refl _
      new := by
        rw [hGet, if_pos rfl]
        exact Entity.Alike.refl _
      scope := rfl }
  have hFull : parent = root ∨ (t.get parent).name ≠ "" ∧ (t.get parent).forward = false := by
    by_cases hRoot : parent = root
    · exact Or.inl hRoot
    · exact Or.inr ⟨hReady.calm parent hRoot hReady.lt, hReady.full⟩
  have hKind : kind ≠ .root ∧ kind ≠ .directive := by
    cases hStarts with
    | definition hKind => constructor <;> rintro rfl <;> cases hKind
    | declaration hKind => constructor <;> rintro rfl <;> cases hKind
  refine hJoins.wellFormed h
    { parent := ⟨parent, rfl, hReady.lt, hFull, hSupports, hParameter⟩
      forward := rfl
      kind := hKind.1
      name := Or.inl ⟨hKind.2, rfl⟩
      definition := ?_ }
  intro hSome
  cases hStarts with
  | definition hKind => exact hKind
  | declaration => cases hSome

end WellFormed

/-! ## A name more -/

namespace Renames

variable {t t' : Tree} {id : EntityId} {e : Entity}

/-- What the scopes held before stays right, for it does not lead to `id`. -/
theorem entry (h : t.WellFormed) (hOpen : t.Open id) (hRenames : Renames t t' id e)
    {s : ScopeId} {d : Bool} {k : String} {x : EntityId} (hs : s < t.scopes.size)
    (hx : (t.scope s).get? d k = some x) :
    t'.Named x ∧ Registrable (t'.get x).kind ∧ isDeclarationName (t'.get x).kind = d ∧
      k = t'.key (t'.get x).name ∧
        ∃ p, (t'.get x).parent = some p ∧ (t'.get p).scope = some s := by
  obtain ⟨hNamed, hRegistrable, hd, hk, p, hp, hps⟩ := h.entry s d k x hs hx
  have hxId := hNamed.ne_of_open hOpen
  have hAlike := hRenames.others x hxId
  rw [hRenames.named_iff hxId, hAlike.kind, hAlike.name, hAlike.parent,
    key_eq_of_caseSensitive hRenames.caseSensitive]
  have hPlace := hRenames.place h.toFramed hOpen hNamed.1 hp hps
  exact ⟨hNamed, hRegistrable, hd, hk, p, hp, hPlace.1⟩

/-- Where the names of the entities besides `id` led before. -/
theorem registered (h : t.WellFormed) (hOpen : t.Open id) (hRenames : Renames t t' id e)
    {x p : EntityId} {s : ScopeId} (hx : x ≠ id) (hNamed : t'.Named x)
    (hRegistrable : Registrable (t'.get x).kind) (hp : (t'.get x).parent = some p)
    (hs : (t'.get p).scope = some s) :
    ∃ y, (t.scope s).get? (isDeclarationName (t'.get x).kind) (t'.key (t'.get x).name) = some y ∧
      (t.get y).kind = (t'.get x).kind ∧ (t'.get y).kind = (t'.get x).kind ∧
      ((t'.get x).forward = false →
        y = x ∨ (t'.get x).kind = .module ∧ (t'.get y).scope = (t'.get x).scope) := by
  have hAlike := hRenames.others x hx
  rw [hRenames.named_iff hx] at hNamed
  rw [hAlike.kind] at hRegistrable ⊢
  rw [hAlike.parent] at hp
  rw [(hRenames.others p (h.ne_of_open hOpen hNamed.1 hp)).scope] at hs
  obtain ⟨y, hy, hyKind, hySame⟩ := h.registered x p s hNamed hRegistrable hp hs
  have hsLt := (hRenames.place h.toFramed hOpen hNamed.1 hp hs).2
  have hyAlike := hRenames.others y ((h.entry s _ _ y hsLt hy).1.ne_of_open hOpen)
  refine ⟨y, ?_, hyKind, hyAlike.kind.trans hyKind, ?_⟩
  · rw [hAlike.name, key_eq_of_caseSensitive hRenames.caseSensitive]
    exact hy
  · rw [hAlike.forward, hAlike.scope, hyAlike.scope]
    exact hySame

/-- The name of `id` leads to an entity that had this name before. -/
theorem wellFormed_kept (h : t.WellFormed) (hOpen : t.Open id) (hRenames : Renames t t' id e)
    (hNew : Renamed t id e) {parent existing : EntityId} {scope : ScopeId}
    (hParent : (t.get id).parent = some parent) (hScope : (t.get parent).scope = some scope)
    (hExisting : (t.scope scope).get? (isDeclarationName (t.get id).kind) (t.key e.name) =
      some existing)
    (hKind : (t.get existing).kind = (t.get id).kind)
    (hSame : (t'.get id).forward = false →
      (t.get id).kind = .module ∧ (t.get existing).scope = (t'.get id).scope)
    (hScopes : t'.scopes = t.scopes) : t'.WellFormed := by
  have hNames := scope_eq_of_scopes hScopes
  have hPlace := hRenames.place h.toFramed hOpen hOpen.lt hParent hScope
  have hExistingId := (h.entry scope _ _ existing hPlace.2 hExisting).1.ne_of_open hOpen
  have hAlike := hRenames.others existing hExistingId
  refine { hRenames.framed h.toFramed hOpen (by rw [hScopes]) hNew with
    entry := ?_, registered := ?_ }
  · intro s d k x hs hx
    rw [hNames] at hx
    exact hRenames.entry h hOpen (hScopes ▸ hs) hx
  · intro x p s hNamed hRegistrable hp hs
    rw [hNames]
    by_cases hx : x = id
    · rw [hx] at hp ⊢
      rw [hRenames.self.parent, hNew.parent, hParent] at hp
      cases hp
      rw [hPlace.1] at hs
      cases hs
      rw [hRenames.self.kind, hNew.kind, hRenames.self.name,
        key_eq_of_caseSensitive hRenames.caseSensitive]
      refine ⟨existing, hExisting, hAlike.kind.trans hKind, fun hFull => Or.inr ?_⟩
      rw [hAlike.scope]
      exact hSame hFull
    · obtain ⟨y, hy, -, hyKind, hySame⟩ :=
        hRenames.registered h hOpen hx hNamed hRegistrable hp hs
      exact ⟨y, hy, hyKind, hySame⟩

/-- The name of `id` leads to it. An entity that had this name before was only declared. -/
theorem wellFormed_entered (h : t.WellFormed) (hOpen : t.Open id) (hRenames : Renames t t' id e)
    (hNew : Renamed t id e) {parent : EntityId} {scope : ScopeId}
    (hParent : (t.get id).parent = some parent) (hScope : (t.get parent).scope = some scope)
    (hOld : ∀ x, (t.scope scope).get? (isDeclarationName (t.get id).kind) (t.key e.name) = some x →
      (t.get x).kind = (t.get id).kind ∧ (t.get x).forward = true ∧ (t.get id).kind ≠ .module)
    (hScopes : t'.scopes =
      (t.insertName scope (isDeclarationName (t.get id).kind) (t.key e.name) id).scopes) :
    t'.WellFormed := by
  have hKey : ∀ n, t'.key n = t.key n := key_eq_of_caseSensitive hRenames.caseSensitive
  have hIdKind : (t'.get id).kind = (t.get id).kind := hRenames.self.kind.trans hNew.kind
  have hIdParent : (t'.get id).parent = (t.get id).parent :=
    hRenames.self.parent.trans hNew.parent
  have hIdNamed : t'.Named id := by
    refine ⟨hRenames.size ▸ hOpen.lt, ?_⟩
    rw [hRenames.self.name]
    exact hNew.name.ne_empty
  obtain ⟨hScope', hLt⟩ := hRenames.place h.toFramed hOpen hOpen.lt hParent hScope
  have hSize : t'.scopes.size = t.scopes.size := by
    rw [hScopes]
    simp [insertName]
  have hGet : ∀ s d k, (t'.scope s).get? d k =
      if s = scope ∧ d = isDeclarationName (t.get id).kind ∧ k = t.key e.name then some id
      else (t.scope s).get? d k := by
    intro s d k
    rw [scope_eq_of_scopes hScopes, scope_insertName hLt]
    by_cases hs : s = scope
    · subst hs
      simp [Scope.get?_insert]
    · simp [hs]
  refine { hRenames.framed h.toFramed hOpen hSize hNew with entry := ?_, registered := ?_ }
  · intro s d k x hs hx
    rw [hGet] at hx
    split at hx
    · rename_i hHere
      cases hx
      obtain ⟨rfl, rfl, rfl⟩ := hHere
      rw [hIdKind, hRenames.self.name, hIdParent, hKey]
      exact ⟨hIdNamed, h.registrable_of_open hOpen, rfl, rfl, parent, hParent, hScope'⟩
    · exact hRenames.entry h hOpen (hSize ▸ hs) hx
  · intro x p s hNamed hRegistrable hp hs
    by_cases hx : x = id
    · rw [hx] at hp ⊢
      rw [hIdParent, hParent] at hp
      cases hp
      rw [hScope'] at hs
      cases hs
      refine ⟨id, ?_, rfl, fun _ => Or.inl rfl⟩
      rw [hGet, if_pos ⟨rfl, by rw [hIdKind], by rw [hRenames.self.name, hKey]⟩]
    · obtain ⟨y, hy, hyOld, hyKind, hySame⟩ :=
        hRenames.registered h hOpen hx hNamed hRegistrable hp hs
      by_cases hHere : s = scope ∧
          isDeclarationName (t'.get x).kind = isDeclarationName (t.get id).kind ∧
          t'.key (t'.get x).name = t.key e.name
      · -- The name of `x` led to `y`, which is only declared, so that `x` is so too.
        rw [hHere.1, hHere.2.1, hHere.2.2] at hy
        obtain ⟨hyId, hyForward, hModule⟩ := hOld y hy
        have hyNamed := (h.entry scope _ _ y hLt hy).1.ne_of_open hOpen
        refine ⟨id, ?_, ?_, ?_⟩
        · rw [hGet, if_pos hHere]
        · rw [hIdKind, ← hyId, hyOld]
        · intro hFull
          rcases hySame hFull with hSame | ⟨hxModule, -⟩
          · rw [← hSame, (hRenames.others y hyNamed).forward, hyForward] at hFull
            cases hFull
          · rw [← hyOld, hyId] at hxModule
            exact absurd hxModule hModule
      · refine ⟨y, ?_, hyKind, hySame⟩
        rw [hGet, if_neg hHere]
        exact hy

end Renames

namespace WellFormed

variable {t t' : Tree} {id found : EntityId} {name : String} {forward : Bool}

theorem renamed (h : t.WellFormed) (hOpen : t.Open id) (hName : IsName name)
    (hForward : forward = true → (t.get id).kind.isDefinition = true)
    (hNaming : Naming t id name forward found t') :
    ∃ e, Renames t t' id e ∧ Renamed t id e ∧ e.name = name := by
  have hOld : (t.get id).forward = true → (t.get id).kind.isDefinition = true :=
    h.forward id hOpen.lt
  cases hNaming with
  | fresh _ _ _ hRenames =>
    exact ⟨_, hRenames, ⟨rfl, rfl, hName, rfl, hForward, Or.inl rfl⟩, rfl⟩
  | repeated _ _ _ _ hRenames =>
    exact ⟨_, hRenames, ⟨rfl, rfl, hName, rfl, fun _ => hForward rfl, Or.inl rfl⟩, rfl⟩
  | @reopened _ parent existing scope hParent hScope hExisting hKind hSame hRenames hScopes =>
    have hLt : scope < t.scopes.size :=
      h.scope_lt parent scope (h.parent_lt_size hOpen.lt hParent) hScope
    have hLt : existing < t.size := (h.entry scope _ _ existing hLt hExisting).1.1
    exact ⟨_, hRenames,
      ⟨rfl, rfl, hName, rfl, hOld, Or.inr ⟨existing, hLt, hKind, hSame, rfl⟩⟩, rfl⟩
  | completed _ _ _ _ _ _ hRenames =>
    exact ⟨_, hRenames, ⟨rfl, rfl, hName, rfl, hOld, Or.inl rfl⟩, rfl⟩

/-- What the scopes hold when the entity `id` was named. -/
inductive Enters (t t' : Tree) (id : EntityId) (name : String) : Prop where
  /-- The name leads to `id`. What it led to before, if anything, was only declared. -/
  | entered {parent : EntityId} {scope : ScopeId} (hParent : (t.get id).parent = some parent)
      (hScope : (t.get parent).scope = some scope)
      (hOld : ∀ x, (t.scope scope).get? (isDeclarationName (t.get id).kind) (t.key name) = some x →
        (t.get x).kind = (t.get id).kind ∧ (t.get x).forward = true ∧
          (t.get id).kind ≠ .module)
      (hScopes : t'.scopes =
        (t.insertName scope (isDeclarationName (t.get id).kind) (t.key name) id).scopes) :
      Enters t t' id name
  /-- The name leads to `existing`, as before. -/
  | kept {parent existing : EntityId} {scope : ScopeId} (hParent : (t.get id).parent = some parent)
      (hScope : (t.get parent).scope = some scope)
      (hExisting : (t.scope scope).get? (isDeclarationName (t.get id).kind) (t.key name) =
        some existing)
      (hKind : (t.get existing).kind = (t.get id).kind)
      (hSame : (t'.get id).forward = false →
        (t.get id).kind = .module ∧ (t.get existing).scope = (t'.get id).scope)
      (hScopes : t'.scopes = t.scopes) : Enters t t' id name

theorem enters (hNaming : Naming t id name forward found t') : Enters t t' id name := by
  cases hNaming with
  | fresh hParent hScope hFree hRenames hScopes =>
    refine .entered hParent hScope ?_ hScopes
    intro x hx
    rw [hFree] at hx
    cases hx
  | repeated hParent hScope hExisting hKind hRenames hScopes =>
    refine .kept hParent hScope hExisting hKind ?_ hScopes
    intro hForward
    rw [hRenames.self.forward] at hForward
    cases hForward
  | reopened hParent hScope hExisting hKind hSame hRenames hScopes =>
    exact .kept hParent hScope hExisting (hKind.trans hSame.symm)
      (fun _ => ⟨hSame, hRenames.self.scope.symm⟩) hScopes
  | completed hParent hScope hExisting hKind hModule hForward hRenames hScopes =>
    refine .entered hParent hScope ?_ hScopes
    intro x hx
    rw [hExisting] at hx
    cases hx
    exact ⟨hKind, hForward, hModule⟩

theorem naming (h : t.WellFormed) (hOpen : t.Open id) (hName : IsName name)
    (hForward : forward = true → (t.get id).kind.isDefinition = true)
    (hNaming : Naming t id name forward found t') : t'.WellFormed := by
  obtain ⟨e, hRenames, hNew, rfl⟩ := h.renamed hOpen hName hForward hNaming
  cases enters hNaming with
  | entered hParent hScope hOld hScopes =>
    exact hRenames.wellFormed_entered h hOpen hNew hParent hScope hOld hScopes
  | kept hParent hScope hExisting hKind hSame hScopes =>
    exact hRenames.wellFormed_kept h hOpen hNew hParent hScope hExisting hKind hSame hScopes

theorem step (h : t.WellFormed) (hStep : Step t t') : t'.WellFormed := by
  rcases hStep.cases_names with ⟨id, f, hf, rfl⟩ | ⟨r, rfl⟩ |
    ⟨_, _, _, _, _, _, hReady, hStarts, hParameter, hAdd⟩ |
    ⟨_, _, _, _, _, hOpen, hName, hForward, -, hNaming⟩
  · exact h.congr (size_modify _ _ _) rfl rfl (alike_modify hf)
  · exact h.record r
  · exact h.add hReady hStarts hParameter hAdd
  · exact h.naming hOpen hName hForward hNaming

end WellFormed

theorem wellFormed_of_reachable {t : Tree} (h : t.Reachable) : t.WellFormed := by
  obtain ⟨caseSensitive, hSteps⟩ := h
  induction hSteps with
  | refl => exact wellFormed_initial caseSensitive
  | tail _ hStep ih => exact ih.step hStep

end Tree

end IdlReader
