import IdlReader.Proofs.Tree.Members
import IdlReader.Proofs.Tree.ScopedName

/-!
# What a scoped name tells

A scoped name tells the names that it was put together from, and two trees that give one scoped name
to two entities give them the same names. Inside of a tree the names lead to one full definition or
operation only, but for modules that go on with each other.

* `join_inj`: a text tells the names that were joined to it.
* `WellFormed.names_eq_of_scopedName`: what two scoped names have in common.
* `WellFormed.eq_or_modules`: entities of the same names.
* `Reachable.isDefinition`, `Reachable.kind_of_switchType`: the data of a kind.
-/

namespace IdlReader.Tree

variable {t t' u : Tree}

/-! ## Joined names -/

theorem splitSegment_join {name : String} (h : IsName name) (names : List String) :
    splitSegment ("::".intercalate (name :: names)).toList =
      (name.toList, if names = [] then none else
        some (.scope, ("::".intercalate names).toList)) := by
  obtain ⟨hEnd, hTail⟩ := splitSegment_word h.isWord
  cases names with
  | nil => rw [String.intercalate_singleton, hEnd, if_pos rfl]
  | cons next names =>
    have hText : ("::".intercalate (name :: next :: names)).toList =
        name.toList ++ ':' :: ':' :: ("::".intercalate (next :: names)).toList := by
      rw [String.intercalate_cons_cons]
      simp
    rw [hText, hTail, if_neg (List.cons_ne_nil _ _)]

theorem join_inj {names names' : List String} (h : ∀ name ∈ names, IsName name)
    (h' : ∀ name ∈ names', IsName name)
    (hJoin : "::".intercalate names = "::".intercalate names') : names = names' := by
  induction names generalizing names' with
  | nil =>
    have hLength := length_le_join h'
    rw [← hJoin] at hLength
    exact (List.eq_nil_of_length_eq_zero (Nat.le_zero.mp hLength)).symm
  | cons name names ih =>
    cases names' with
    | nil =>
      have hLength := length_le_join h
      rw [hJoin] at hLength
      exact absurd hLength (Nat.not_succ_le_zero _)
    | cons name' names' =>
      have hSplit := splitSegment_join (h name List.mem_cons_self) names
      rw [hJoin, splitSegment_join (h' name' List.mem_cons_self) names', Prod.mk.injEq] at hSplit
      obtain ⟨hFirst, hRest⟩ := hSplit
      have hBelow := @ih names' (fun x hx => h x (List.mem_cons_of_mem name hx))
        fun x hx => h' x (List.mem_cons_of_mem name' hx)
      rw [String.toList_inj.mp hFirst]
      refine congrArg _ ?_
      by_cases hNil : names = []
      · by_cases hNil' : names' = []
        · rw [hNil, hNil']
        · rw [if_pos hNil, if_neg hNil'] at hRest
          cases hRest
      · by_cases hNil' : names' = []
        · rw [if_neg hNil, if_pos hNil'] at hRest
          cases hRest
        · rw [if_neg hNil, if_neg hNil', Option.some.injEq, Prod.mk.injEq] at hRest
          exact hBelow (String.toList_inj.mp hRest.2.symm)

theorem colon_mem_join {names : List String} (h : 1 < names.length) :
    ':' ∈ ("::".intercalate names).toList := by
  match names, h with
  | name :: next :: names, _ =>
    rw [String.intercalate_cons_cons]
    simp

theorem blank_notMem_join {names : List String} (h : ∀ name ∈ names, IsName name) :
    ' ' ∉ ("::".intercalate names).toList := by
  have hName : ∀ {name : String}, IsName name → ' ' ∉ name.toList := by
    intro name hName hBlank
    have hWord := hName.isWord ' ' hBlank
    revert hWord
    decide
  induction names with
  | nil => simp
  | cons name names ih =>
    have hFirst := hName (h name List.mem_cons_self)
    have hRest := ih fun x hx => h x (List.mem_cons_of_mem name hx)
    cases names with
    | nil => rwa [String.intercalate_singleton]
    | cons next names =>
      rw [String.intercalate_cons_cons, String.toList_append, String.toList_append,
        List.mem_append, List.mem_append, not_or, not_or]
      exact ⟨⟨hFirst, by decide⟩, hRest⟩

/-! ## Names of entities -/

theorem Framed.length_names (h : t.Framed) {i p : EntityId} (hParent : (t.get i).parent = some p) :
    (t.names i).length = (t.names p).length + 1 := by
  rw [h.names_of_parent (lt_size_of_parent hParent) hParent, List.length_append]
  rfl

namespace WellFormed

theorem names_eq_of_scopedName (h : t.WellFormed) (h' : u.WellFormed) {i j : EntityId}
    (hi : t.Named i) (hj : u.Named j) (hName : t.scopedName i = u.scopedName j) :
    t.names i = u.names j := by
  rw [scopedName_eq, scopedName_eq] at hName
  exact join_inj (fun _ => h.isName_of_mem_names hi) (fun _ => h'.isName_of_mem_names hj) hName

/-- What lies below two entities of one scoped name lies below entities of the same names. -/
theorem names_parent_eq (h : t.WellFormed) (h' : u.WellFormed) {i j p q : EntityId}
    (hi : t.Named i) (hj : u.Named j) (hp : (t.get i).parent = some p)
    (hq : (u.get j).parent = some q) (hName : t.scopedName i = u.scopedName j) :
    t.names p = u.names q := by
  have hNames := h.names_eq_of_scopedName h' hi hj hName
  rw [h.names_of_parent hi.1 hp, h'.names_of_parent hj.1 hq] at hNames
  exact (List.append_inj' hNames rfl).1

theorem colon_mem_scopedName (h : t.WellFormed) {i p : EntityId}
    (hParent : (t.get i).parent = some p) (hNamed : t.Named p) (hRoot : p ≠ root) :
    ':' ∈ (t.scopedName i).toList := by
  have hPos := List.length_pos_iff.mpr (h.names_ne_nil hNamed hRoot)
  rw [scopedName_eq]
  refine colon_mem_join ?_
  rw [h.length_names hParent]
  exact Nat.succ_lt_succ hPos

theorem blank_notMem_scopedName (h : t.WellFormed) {i : EntityId} (hi : t.Named i) :
    ' ' ∉ (t.scopedName i).toList :=
  blank_notMem_join fun _ => h.isName_of_mem_names hi

/-- What has members and is no operation stands among the definitions of its scope. -/
theorem isDeclarationName_of_supportsChildren {k : EntityKind} (h : k.supportsChildren = true) :
    isDeclarationName k = (k == .operation) := by
  revert h
  cases k <;> decide

/-- Two full entities of the same names are one, or are modules that go on with each other. -/
theorem eq_or_modules (h : t.WellFormed) {i j : EntityId} (hi : t.Found i) (hj : t.Found j)
    (hFull : (t.get i).forward = false) (hFull' : (t.get j).forward = false)
    (hParameter : (t.get i).kind ≠ .parameter) (hParameter' : (t.get j).kind ≠ .parameter)
    (hClass : isDeclarationName (t.get i).kind = isDeclarationName (t.get j).kind)
    (hNames : t.names i = t.names j) :
    i = j ∨ (t.get i).kind = .module ∧ (t.get j).kind = .module ∧
      (t.get i).scope = (t.get j).scope := by
  induction i using Nat.strongRecOn generalizing j with
  | _ i ih =>
    obtain ⟨p, hp, hpLt, -⟩ := h.parent i (h.ne_root_of_found hi) hi.1.1
    obtain ⟨q, hq, -⟩ := h.parent j (h.ne_root_of_found hj) hj.1.1
    obtain ⟨-, hPlace, ⟨s, hs⟩, hOperation⟩ := h.parent_place hi.1.1 hp
    obtain ⟨-, hPlace', ⟨s', hs'⟩, hOperation'⟩ := h.parent_place hj.1.1 hq
    rw [h.names_of_parent hi.1.1 hp, h.names_of_parent hj.1.1 hq] at hNames
    obtain ⟨hAbove, hOwn⟩ := List.append_inj' hNames rfl
    have hOwn : (t.get i).name = (t.get j).name := List.singleton_inj.mp hOwn
    -- The scopes are the same: those of the root, or of parents of the same names.
    have hScope : s = s' := by
      have hSame : p = q ∨ (t.get p).kind = .module ∧ (t.get q).kind = .module ∧
          (t.get p).scope = (t.get q).scope := by
        by_cases hRoot : p = root
        · by_cases hRoot' : q = root
          · exact Or.inl (hRoot.trans hRoot'.symm)
          · obtain hFalse | ⟨hFound', -⟩ := hPlace'
            · exact absurd hFalse hRoot'
            · rw [hRoot, h.names_root] at hAbove
              exact absurd hAbove.symm (h.names_ne_nil hFound'.1 hRoot')
        · obtain hFalse | ⟨hFound, hFullParent⟩ := hPlace
          · exact absurd hFalse hRoot
          · obtain hRoot' | ⟨hFound', hFullParent'⟩ := hPlace'
            · rw [hRoot', h.names_root] at hAbove
              exact absurd hAbove (h.names_ne_nil hFound.1 hRoot)
            · have hSupports := h.kind_of_scope hs
              have hSupports' := h.kind_of_scope hs'
              have hNot : (t.get p).kind ≠ .operation := mt hOperation.mpr hParameter
              have hNot' : (t.get q).kind ≠ .operation := mt hOperation'.mpr hParameter'
              refine ih p hpLt hFound hFound' hFullParent hFullParent' ?_ ?_ ?_ hAbove
              · intro hFalse
                rw [hFalse] at hSupports
                cases hSupports
              · intro hFalse
                rw [hFalse] at hSupports'
                cases hSupports'
              · rw [isDeclarationName_of_supportsChildren hSupports,
                  isDeclarationName_of_supportsChildren hSupports', beq_eq_false_iff_ne.mpr hNot,
                  beq_eq_false_iff_ne.mpr hNot']
      rcases hSame with rfl | ⟨-, -, hEq⟩
      · exact Option.some.inj (hs.symm.trans hs')
      · exact Option.some.inj (hs.symm.trans (hEq.trans hs'))
    subst hScope
    obtain ⟨y, hy, hKind, hLeads⟩ := h.get?_full hi hFull hp hs
    obtain ⟨y', hy', hKind', hLeads'⟩ := h.get?_full hj hFull' hq hs'
    rw [hClass, hOwn, hy'] at hy
    cases hy
    rcases hLeads with rfl | ⟨hModule, hSame⟩
    · rcases hLeads' with hEq | ⟨hModule', hSame'⟩
      · exact Or.inl hEq
      · exact Or.inr ⟨hKind'.trans hModule', hModule', hSame'⟩
    · refine Or.inr ⟨hModule, hKind'.symm.trans (hKind.trans hModule), ?_⟩
      rcases hLeads' with rfl | ⟨-, hSame'⟩
      · exact hSame.symm
      · exact hSame.symm.trans hSame'

end WellFormed

/-! ## The data of a kind -/

/-- A step may fill in a definition, but gives the type of a discriminator to unions only. -/
theorem Step.definition? (hPos : 0 < t.size) (h : Step t t') {i : EntityId} (hi : i < t.size) :
    ∃ f : Definition → Definition,
      (∀ d, (f d).switchType = d.switchType ∨ (t.get i).kind = .union) ∧
        (t'.get i).definition? = (t.get i).definition?.map f := by
  have hSame : (t'.get i).definition? = (t.get i).definition? →
      ∃ f : Definition → Definition,
        (∀ d, (f d).switchType = d.switchType ∨ (t.get i).kind = .union) ∧
          (t'.get i).definition? = (t.get i).definition?.map f := by
    intro hEq
    exact ⟨fun d => d, fun _ => Or.inl rfl, hEq.trans Option.map_id'.symm⟩
  have hMap : ∀ {id : EntityId} {f : Definition → Definition},
      (∀ d, (f d).switchType = d.switchType ∨ (t.get id).kind = .union) →
      ∃ g : Definition → Definition,
        (∀ d, (g d).switchType = d.switchType ∨ (t.get i).kind = .union) ∧
          ((t.modify id (Entity.mapDefinition f)).get i).definition? =
            (t.get i).definition?.map g := by
    intro id f hf
    rw [definition?_modify]
    split
    · rename_i hId
      rw [hId]
      exact ⟨f, hf, rfl⟩
    · exact ⟨fun d => d, fun _ => Or.inl rfl, Option.map_id'.symm⟩
  cases h with
  | record r => exact hSame (definition?_addRecords_singleton hPos r i)
  | add hReady hStarts hParameter hRefers hAdd =>
    obtain ⟨-, -, -, -, -, hGet⟩ := add_eq_ok hAdd
    refine hSame ?_
    rw [hGet, if_neg (Nat.ne_of_lt hi)]
  | name hOpen hName hForward hListed hSet =>
    obtain ⟨e, hRenames, -⟩ := (naming_of_setName hOpen.lt hSet).renames
    exact hSame (hRenames.definition i)
  | inherit => exact hMap fun _ => Or.inl rfl
  | switch hOpen hKind => exact hMap fun _ => Or.inr hKind
  | annotate hf =>
    refine hSame (get_modify_congr Entity.definition? ?_ i)
    intro e
    rw [hf e]
    rfl
  | complete => exact hSame (get_modify_congr Entity.definition? (Entity.definition?_mapDeclaration _) i)
  | start => exact hSame (get_modify_congr Entity.definition? (Entity.definition?_mapDeclaration _) i)
  | finish => exact hSame (get_modify_congr Entity.definition? (Entity.definition?_mapDeclaration _) i)

/-- An entity has the data of a definition if its kind says so. -/
theorem Reachable.isDefinition (h : t.Reachable) {i : EntityId}
    (hKind : (t.get i).kind.isDefinition = true) : ∃ d, (t.get i).definition? = some d := by
  have hi : i < t.size := by
    by_cases hLt : i < t.size
    · exact hLt
    · rw [get_of_le hLt] at hKind
      cases hKind
  obtain ⟨caseSensitive, hSteps⟩ := h
  induction hSteps generalizing i with
  | refl =>
    rw [Nat.lt_one_iff.mp hi] at hKind
    cases hKind
  | @tail t t' hBefore hStep ih =>
    have hPos := Reachable.size_pos ⟨caseSensitive, hBefore⟩
    by_cases hOld : i < t.size
    · obtain ⟨f, -, hMap⟩ := hStep.definition? hPos hOld
      rw [(hStep.extends hPos).kind i hOld] at hKind
      obtain ⟨d, hd⟩ := ih hKind hOld
      exact ⟨f d, by rw [hMap, hd]; rfl⟩
    · obtain ⟨-, ⟨hDirective, -⟩ | ⟨kind, data, hStarts, -, hNew, hData⟩⟩ := hStep.new hPos hOld hi
      · rw [hDirective] at hKind
        cases hKind
      · unfold Entity.definition?
        rw [hData]
        rw [hNew] at hKind
        cases hStarts with
        | definition => exact ⟨_, rfl⟩
        | declaration hDeclaration =>
          rw [EntityKind.not_isDeclaration_of_isDefinition hKind] at hDeclaration
          cases hDeclaration

/-- Only unions have a type of a discriminator. -/
theorem Reachable.kind_of_switchType (h : t.Reachable) {i : EntityId} {d : Definition}
    (hd : (t.get i).definition? = some d) (hSwitch : d.switchType.isSome = true) :
    (t.get i).kind = .union := by
  have hi := lt_of_definition? (Option.isSome_of_eq_some hd)
  obtain ⟨caseSensitive, hSteps⟩ := h
  induction hSteps generalizing i d with
  | refl =>
    rw [Nat.lt_one_iff.mp hi] at hd
    cases hd
  | @tail t t' hBefore hStep ih =>
    have hPos := Reachable.size_pos ⟨caseSensitive, hBefore⟩
    by_cases hOld : i < t.size
    · obtain ⟨f, hf, hMap⟩ := hStep.definition? hPos hOld
      rw [(hStep.extends hPos).kind i hOld]
      rw [hMap] at hd
      obtain ⟨d₀, hd₀, rfl⟩ := Option.map_eq_some_iff.mp hd
      rcases hf d₀ with hSame | hUnion
      · rw [hSame] at hSwitch
        exact ih hd₀ hSwitch hOld
      · exact hUnion
    · cases hStep with
      | record r =>
        rw [definition?_addRecords_singleton hPos, definition?_of_le hOld] at hd
        cases hd
      | add hReady hStarts hParameter hRefers hAdd =>
        obtain ⟨-, -, hSize, -, -, hGet⟩ := add_eq_ok hAdd
        rw [hSize] at hi
        rw [hGet, if_pos (Nat.le_antisymm (Nat.le_of_lt_succ hi) (Nat.le_of_not_lt hOld))] at hd
        cases hStarts with
        | definition _ isLocal =>
          cases hd
          cases hSwitch
        | declaration => cases hd
      | name hOpen hName hForward hListed hSet =>
        obtain ⟨e, hRenames, -⟩ := (naming_of_setName hOpen.lt hSet).renames
        exact absurd (hRenames.size ▸ hi) hOld
      | _ => exact absurd (size_modify _ _ _ ▸ hi) hOld

end IdlReader.Tree
