import IdlReader.Proofs.Tree.Members

/-!
# What types stand for

A typedef stands for what its type names, and the types of typedefs name what was read before, so
that following them ends (`resolved_typedef`). A forward declaration stands for its full
definition as soon as there is one. Apart from that nothing changes what an entity stands for
when a tree grows.

* `Reachable.resolved_typedef`, `Reachable.resolved_forward`: one step each.
* `Reachable.resolved_steps`: what a type stands for later.
* `Reachable.fields_prefix`: fields come behind those that are there.
-/

namespace IdlReader.Tree

variable {t t' : Tree}

/-! ## Following typedefs and forward declarations -/

theorem resolvedWithin_of_full {id : EntityId} (n : Nat) (hKind : (t.get id).kind ≠ .typedef)
    (hFull : (t.get id).forward = false) : t.resolvedWithin n id = id := by
  cases n with
  | zero => rfl
  | succ n =>
    rw [resolvedWithin]
    rw [if_neg hKind, hFull]
    rfl

/-- Where the name of a forward declaration leads. -/
theorem WellFormed.exists_forward (h : t.WellFormed) {id : EntityId} (hFound : t.Found id)
    (hForward : (t.get id).forward = true) :
    ∃ p s full, (t.get id).parent = some p ∧ (t.get p).scope = some s ∧
      (t.scope s).get? false (t.key (t.get id).name) = some full ∧
      t.lookupKey true (t.key (t.get id).name) p = some full ∧
      (t.get full).kind = (t.get id).kind := by
  have hDefinition := h.forward id hFound.1.1 hForward
  have hRoot : id ≠ root := by
    rintro rfl
    rw [h.rootKind] at hDefinition
    cases hDefinition
  obtain ⟨p, hParent, hLt, -, hSupports, -⟩ := h.parent id hRoot hFound.1.1
  have hHasScope := h.hasScope p (Nat.lt_trans hLt hFound.1.1)
  rw [hSupports] at hHasScope
  obtain ⟨s, hs⟩ := Option.isSome_iff_exists.mp hHasScope
  have hName : isDeclarationName (t.get id).kind = false := by
    simp [isDeclarationName, EntityKind.not_isDeclaration_of_isDefinition hDefinition]
  obtain ⟨full, hFull, hKind, -⟩ := h.registered id p s hFound.1 hFound.2 hParent hs
  rw [hName] at hFull
  exact ⟨p, s, full, hParent, hs, hFull, lookupKey_of_get? hs (lookup?_of_get? hFull rfl),
    hKind⟩

/-- A forward declaration leads to what its name stands for, unless that is forward as well. -/
theorem resolvedWithin_forward {id p full : EntityId} (n : Nat)
    (hKind : (t.get id).kind ≠ .typedef) (hForward : (t.get id).forward = true)
    (hParent : (t.get id).parent = some p)
    (hLookup : t.lookupKey true (t.key (t.get id).name) p = some full)
    (hSame : (t.get full).kind = (t.get id).kind) :
    t.resolvedWithin (n + 1) id = if (t.get full).forward then id else full := by
  rw [resolvedWithin]
  rw [if_neg hKind, if_pos hForward, hParent, Option.bind_some, hLookup]
  dsimp only
  cases hFull : (t.get full).forward with
  | true => simp
  | false =>
    have hNe : full ≠ id := by
      rintro rfl
      rw [hForward] at hFull
      cases hFull
    rw [if_neg (by simpa using hNe), resolvedWithin_of_full n (hSame ▸ hKind) hFull]
    rfl

/-- A typedef of a type without a definition stands for itself. -/
theorem resolved_typedef_none {id : EntityId} {d : Declaration}
    (hKind : (t.get id).kind = .typedef) (hd : (t.get id).declaration? = some d)
    (hNext : d.type.definition = none) : t.resolved id = id := by
  unfold resolved
  cases t.size with
  | zero => rfl
  | succ n =>
    rw [resolvedWithin]
    rw [if_pos hKind, hd, Option.bind_some, hNext]

/-- Only definitions are declared in advance, and they have names. -/
theorem WellFormed.found_of_forward (h : t.WellFormed) {id : EntityId}
    (hForward : (t.get id).forward = true) : t.Found id := by
  have hLt : id < t.size := by
    refine Decidable.byContradiction fun hLe => ?_
    rw [get_of_le hLe] at hForward
    cases hForward
  refine ⟨⟨hLt, fun hUnnamed => ?_⟩, Or.inl (h.forward id hLt hForward)⟩
  rw [(h.unnamed id hLt hUnnamed).1] at hForward
  cases hForward

namespace Reachable

/-- Following typedefs and forward declarations ends before the budget does. -/
theorem resolvedWithin_eq (h : t.Reachable) {n m : Nat} {id : EntityId} (hn : id < n)
    (hm : id < m) : t.resolvedWithin n id = t.resolvedWithin m id := by
  induction n generalizing m id with
  | zero => cases hn
  | succ n ih =>
    cases m with
    | zero => cases hm
    | succ m =>
      by_cases hKind : (t.get id).kind = .typedef
      · rw [resolvedWithin, resolvedWithin, if_pos hKind, if_pos hKind]
        cases hNext : (t.get id).declaration?.bind fun d => d.type.definition with
        | none => rfl
        | some next =>
          dsimp only
          obtain ⟨d, hd, hType⟩ := Option.bind_eq_some_iff.mp hNext
          have hMem := DeclaredType.mem_references hType
          have hLt := h.references_lt hd next hMem
          rw [if_neg (Nat.ne_of_lt hLt), if_neg (Nat.ne_of_lt hLt)]
          exact ih (Nat.lt_of_lt_of_le hLt (Nat.le_of_lt_succ hn))
            (Nat.lt_of_lt_of_le hLt (Nat.le_of_lt_succ hm))
      · cases hForward : (t.get id).forward with
        | false => rw [resolvedWithin_of_full _ hKind hForward, resolvedWithin_of_full _ hKind hForward]
        | true =>
          have hWellFormed := wellFormed_of_reachable h
          obtain ⟨p, -, full, hParent, -, -, hLookup, hSame⟩ :=
            hWellFormed.exists_forward (hWellFormed.found_of_forward hForward) hForward
          rw [resolvedWithin_forward n hKind hForward hParent hLookup hSame,
            resolvedWithin_forward m hKind hForward hParent hLookup hSame]

/-- A typedef stands for what its type names. -/
theorem resolved_typedef (h : t.Reachable) {id next : EntityId} {d : Declaration}
    (hKind : (t.get id).kind = .typedef) (hd : (t.get id).declaration? = some d)
    (hNext : d.type.definition = some next) : t.resolved id = t.resolved next := by
  have hMem := DeclaredType.mem_references hNext
  have hLt := h.references_lt hd next hMem
  have hSize := lt_of_declaration? hd
  unfold resolved
  obtain ⟨n, hn⟩ := Nat.exists_eq_succ_of_ne_zero (Nat.ne_of_gt (Nat.zero_lt_of_lt hSize))
  rw [hn] at hSize ⊢
  rw [resolvedWithin, if_pos hKind, hd, Option.bind_some, hNext]
  dsimp only
  rw [if_neg (Nat.ne_of_lt hLt)]
  exact h.resolvedWithin_eq (Nat.lt_of_lt_of_le hLt (Nat.le_of_lt_succ hSize))
    (Nat.lt_trans hLt hSize)

/-- A forward declaration stands for its full definition if there is one. -/
theorem resolved_forward (h : t.Reachable) {id : EntityId} (hFound : t.Found id)
    (hForward : (t.get id).forward = true) :
    ∃ p s full, (t.get id).parent = some p ∧ (t.get p).scope = some s ∧
      (t.scope s).get? false (t.key (t.get id).name) = some full ∧
      (t.get full).kind = (t.get id).kind ∧
      t.resolved id = if (t.get full).forward then id else full := by
  have hWellFormed := wellFormed_of_reachable h
  obtain ⟨p, s, full, hParent, hs, hGet, hLookup, hSame⟩ :=
    hWellFormed.exists_forward hFound hForward
  refine ⟨p, s, full, hParent, hs, hGet, hSame, ?_⟩
  have hKind : (t.get id).kind ≠ .typedef := by
    intro hTypedef
    have hDefinition := hWellFormed.forward id hFound.1.1 hForward
    rw [hTypedef] at hDefinition
    cases hDefinition
  unfold resolved
  obtain ⟨n, hn⟩ := Nat.exists_eq_succ_of_ne_zero (Nat.ne_of_gt (Nat.zero_lt_of_lt hFound.1.1))
  rw [hn]
  exact resolvedWithin_forward n hKind hForward hParent hLookup hSame

end Reachable

/-! ## Growth -/

/-- Whether an entity is a full definition to which a name in a scope leads. -/
structure Defines (t : Tree) (s : ScopeId) (key : String) (x : EntityId) : Prop where
  found : t.Found x
  full : (t.get x).forward = false
  definition : isDeclarationName (t.get x).kind = false
  module : (t.get x).kind ≠ .module
  key : key = t.key (t.get x).name
  place : ∃ p, (t.get x).parent = some p ∧ (t.get p).scope = some s

theorem WellFormed.defines (h : t.WellFormed) {p x : EntityId} {s : ScopeId} {key : String}
    (hScope : (t.get p).scope = some s) (hGet : (t.scope s).get? false key = some x)
    (hFull : (t.get x).forward = false) (hModule : (t.get x).kind ≠ .module) :
    t.Defines s key x := by
  obtain ⟨hNamed, hRegistrable, hName, hKey, hPlace⟩ :=
    h.entry s false key x (h.scope_lt p s (lt_size_of_scope hScope) hScope) hGet
  exact ⟨⟨hNamed, hRegistrable⟩, hFull, hName, hModule, hKey, hPlace⟩

/-- No other definition has the name. -/
theorem Defines.eq {s : ScopeId} {key : String} {x y : EntityId} (h : t.Defines s key x)
    (hWellFormed : t.WellFormed) (hGet : (t.scope s).get? false key = some y) : y = x := by
  obtain ⟨p, hParent, hScope⟩ := h.place
  obtain ⟨z, hz, -, hCase⟩ := hWellFormed.get?_full h.found h.full hParent hScope
  rw [h.definition, ← h.key, hGet] at hz
  cases hz
  exact hCase.resolve_right fun hShared => h.module hShared.1

/-- A definition that was there before leads to the same from there on, and back. -/
theorem defines_iff (h : t.WellFormed) (hCalm : t.Calm) (hExtends : Extends t t') {s : ScopeId}
    {key : String} {x : EntityId} (hLt : x < t.size) :
    t'.Defines s key x ↔ t.Defines s key x := by
  have hKind := hExtends.kind x hLt
  have hParent := hExtends.parent x hLt
  have hSettled : ∀ i, i < t.size → i = root ∨ (t.get i).name ≠ "" := fun i hi => by
    by_cases hRoot : i = root
    · exact Or.inl hRoot
    · exact Or.inr (hCalm i hRoot hi)
  obtain ⟨hName, hForward, -⟩ := hExtends.settled x hLt (hSettled x hLt)
  have hPlace : (∃ p, (t'.get x).parent = some p ∧ (t'.get p).scope = some s) ↔
      ∃ p, (t.get x).parent = some p ∧ (t.get p).scope = some s := by
    rw [hParent]
    refine exists_congr fun p => and_congr_right fun hp => ?_
    have hpLt := h.toFramed.parent_lt_size hLt hp
    rw [(hExtends.settled p hpLt (hSettled p hpLt)).2.2]
  have hFound : t'.Found x ↔ t.Found x := by
    unfold Found Named
    rw [hKind, hName]
    exact and_congr_left fun _ => and_congr_left fun _ =>
      ⟨fun _ => hLt, fun _ => Nat.lt_of_lt_of_le hLt hExtends.size⟩
  have hKey := key_eq_of_caseSensitive hExtends.caseSensitive (t.get x).name
  constructor
  · intro hDefines
    exact ⟨hFound.mp hDefines.found, hForward ▸ hDefines.full, hKind ▸ hDefines.definition,
      hKind ▸ hDefines.module, by rw [hDefines.key, hName, hKey], hPlace.mp hDefines.place⟩
  · intro hDefines
    exact ⟨hFound.mpr hDefines.found, hForward.trans hDefines.full,
      hKind.symm ▸ hDefines.definition, hKind.symm ▸ hDefines.module,
      by rw [hDefines.key, hName, hKey], hPlace.mpr hDefines.place⟩

namespace Reachable

/-- What a forward declaration stands for stays, unless it gets its definition. -/
theorem resolved_forward_steps (h : t.Reachable) (hCalm : t.Calm) (hSteps : Steps t t')
    {id : EntityId} (hType : t.IsType id) (hForward : (t.get id).forward = true) :
    t'.resolved id = t.resolved id ∨ (t.get (t.resolved id)).forward = true ∧
      t.size ≤ t'.resolved id ∧ (t'.get (t'.resolved id)).kind = (t.get (t.resolved id)).kind := by
  have h' := h.steps hSteps
  have hExtends := hSteps.extends h.size_pos
  have hWellFormed := wellFormed_of_reachable h
  have hWellFormed' := wellFormed_of_reachable h'
  have hLt := hType.1.1
  have hSame := hExtends.settled id hLt (Or.inr hType.1.2)
  have hModule : (t.get id).kind ≠ .module := by
    intro hModule
    have hIsType := hType.2
    rw [hModule] at hIsType
    cases hIsType
  obtain ⟨p, s, full, hParent, hs, hGet, hKind, hResolved⟩ :=
    h.resolved_forward hType.found hForward
  obtain ⟨p', s', full', hParent', hs', hGet', hKind', hResolved'⟩ :=
    h'.resolved_forward (hExtends.isType hType).found (hSame.2.1.trans hForward)
  -- The name leads to the same scope.
  have hpLt := hWellFormed.toFramed.parent_lt_size hLt hParent
  have hpSettled : p = root ∨ (t.get p).name ≠ "" := by
    by_cases hRoot : p = root
    · exact Or.inl hRoot
    · exact Or.inr (hCalm p hRoot hpLt)
  have hpScope := (hExtends.settled p hpLt hpSettled).2.2.trans hs
  rw [hExtends.parent id hLt, hParent] at hParent'
  cases hParent'
  rw [hpScope] at hs'
  cases hs'
  rw [hSame.1, key_eq_of_caseSensitive hExtends.caseSensitive] at hGet'
  rw [hExtends.kind id hLt] at hKind'
  cases hFull : (t.get full).forward with
  | false =>
    have hDefines := hWellFormed.defines hs hGet hFull (hKind ▸ hModule)
    have hDefines' := (defines_iff hWellFormed hCalm hExtends hDefines.found.1.1).mpr hDefines
    rw [hDefines'.eq hWellFormed' hGet', hDefines'.full] at hResolved'
    rw [hFull] at hResolved
    exact Or.inl (hResolved'.trans hResolved.symm)
  | true =>
    rw [hFull, if_pos rfl] at hResolved
    cases hFull' : (t'.get full').forward with
    | true =>
      rw [hFull', if_pos rfl] at hResolved'
      exact Or.inl (hResolved'.trans hResolved.symm)
    | false =>
      rw [hFull'] at hResolved'
      have hResolved' : t'.resolved id = full' := hResolved'
      rw [hResolved, hResolved']
      refine Or.inr ⟨hForward, Nat.le_of_not_lt fun hOld => ?_, hKind'⟩
      -- A definition that was there would have been found before.
      have hDefines' := hWellFormed'.defines hpScope hGet' hFull' (hKind' ▸ hModule)
      have hDefines := (defines_iff hWellFormed hCalm hExtends hOld).mp hDefines'
      rw [hDefines.eq hWellFormed hGet, hDefines.full] at hFull
      cases hFull

/-- What a type stands for stays, unless it is only declared and gets its definition. -/
theorem resolved_steps (h : t.Reachable) (hCalm : t.Calm) (hSteps : Steps t t') {id : EntityId}
    (hType : t.IsType id) :
    t'.resolved id = t.resolved id ∨ (t.get (t.resolved id)).forward = true ∧
      t.size ≤ t'.resolved id ∧ (t'.get (t'.resolved id)).kind = (t.get (t.resolved id)).kind := by
  have hExtends := hSteps.extends h.size_pos
  induction id using Nat.strongRecOn with
  | ind id ih =>
    have hLt := hType.1.1
    have hKind := hExtends.kind id hLt
    by_cases hTypedef : (t.get id).kind = .typedef
    · have hSome := h.isDeclaration hLt
      rw [hTypedef] at hSome
      obtain ⟨d, hd⟩ := Option.isSome_iff_exists.mp hSome
      obtain ⟨d', hd', hSameType⟩ := Steps.type h.size_pos hSteps hd
      cases hNext : d.type.definition with
      | none =>
        rw [resolved_typedef_none hTypedef hd hNext,
          resolved_typedef_none (hKind.trans hTypedef) hd' (hSameType ▸ hNext)]
        exact Or.inl rfl
      | some next =>
        rw [h.resolved_typedef hTypedef hd hNext,
          (h.steps hSteps).resolved_typedef (hKind.trans hTypedef) hd' (hSameType ▸ hNext)]
        have hMem := DeclaredType.mem_references hNext
        exact ih next (h.references_lt hd next hMem) (h.typed id d hd next hMem)
    · cases hForward : (t.get id).forward with
      | false =>
        have hForward' := (hExtends.settled id hLt (Or.inr hType.1.2)).2.1.trans hForward
        rw [resolved_of_full hTypedef hForward, resolved_of_full (hKind ▸ hTypedef) hForward']
        exact Or.inl rfl
      | true => exact h.resolved_forward_steps hCalm hSteps hType hForward

end Reachable

/-! ## Fields -/

/-- The fields of a definition. -/
def fields (t : Tree) (D : EntityId) : List EntityId :=
  (t.get D).children.filter fun c => (t.get c).kind = .field

/-- Fields come behind those that are there. -/
theorem Reachable.fields_prefix (h : t.Reachable) (hSteps : Steps t t') (D : EntityId) :
    t.fields D <+: t'.fields D := by
  obtain ⟨l, hl, -, -⟩ := hSteps.children h D
  have hSame : (t'.get D).children.filter (fun c => (t'.get c).kind = .field) =
      t.fields D ++ l.filter fun c => (t'.get c).kind = .field := by
    rw [hl, List.filter_append]
    congr 1
    refine List.filter_congr fun c hc => ?_
    rw [(hSteps.extends h.size_pos).kind c (h.parent_of_mem_children hc).1.1]
  exact ⟨_, hSame.symm⟩

/-- A definition that is only declared has no fields. -/
theorem Reachable.fields_forward (h : t.Reachable) {D : EntityId}
    (hForward : (t.get D).forward = true) : t.fields D = [] := by
  have hFramed := (wellFormed_of_reachable h).toFramed
  have hNone : (t.get D).children = [] := by
    refine List.eq_nil_iff_forall_not_mem.mpr fun c hc => ?_
    obtain ⟨hNamed, hParent, -⟩ := h.parent_of_mem_children hc
    obtain ⟨p, hp, -, hFull, -⟩ := hFramed.parent c (hFramed.ne_root_of_parent hParent) hNamed.1
    rw [hParent] at hp
    cases hp
    rcases hFull with rfl | ⟨-, hFull⟩
    · have hDefinition := hFramed.forward root hFramed.pos hForward
      rw [hFramed.rootKind] at hDefinition
      cases hDefinition
    · rw [hForward] at hFull
      cases hFull
  unfold fields
  rw [hNone]
  rfl

end IdlReader.Tree
