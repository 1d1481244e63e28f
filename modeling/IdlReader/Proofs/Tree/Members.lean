import IdlReader.Proofs.Tree.Outline
import IdlReader.Proofs.Tree.Lookup

/-!
# Members

What steps do to the members of entities and to declarations. The list of members of an entity
grows at its end only, by entities that get their names, and holds every declaration and
definition below the entity. Declarations keep their types, which name earlier entities.

* `Steps.type`: declarations keep their types.
* `Steps.children`: how the list of members grows.
* `Step.naming`: how entities get their names.
* `Reachable.listed`: nothing is missing from the lists of members.
-/

namespace IdlReader.Tree

variable {t t' : Tree}

theorem children_of_le {i : EntityId} (h : ¬ i < t.size) : (t.get i).children = [] := by
  rw [get_of_le h]
  rfl

/-! ## Declarations -/

theorem declaration?_modify {id : EntityId} (f : Declaration → Declaration) (i : EntityId) :
    ((t.modify id (Entity.mapDeclaration f)).get i).declaration? =
      if i = id then (t.get i).declaration?.map f else (t.get i).declaration? := by
  by_cases hi : i = id
  · rw [if_pos hi, get_modify]
    by_cases hLt : id < t.size
    · rw [if_pos ⟨hi, hLt⟩, Entity.declaration?_mapDeclaration, hi]
    · rw [if_neg fun h => hLt h.2, declaration?_of_le (hi ▸ hLt)]
      rfl
  · rw [if_neg hi, get_modify_of_ne hi]

theorem definition?_modify {id : EntityId} (f : Definition → Definition) (i : EntityId) :
    ((t.modify id (Entity.mapDefinition f)).get i).definition? =
      if i = id then (t.get i).definition?.map f else (t.get i).definition? := by
  by_cases hi : i = id
  · rw [if_pos hi, get_modify]
    by_cases hLt : id < t.size
    · rw [if_pos ⟨hi, hLt⟩, Entity.definition?_mapDefinition, hi]
    · rw [if_neg fun h => hLt h.2, definition?_of_le (hi ▸ hLt)]
      rfl
  · rw [if_neg hi, get_modify_of_ne hi]

/-- A step may fill in a declaration, but never changes its type. -/
theorem Step.declaration? (hPos : 0 < t.size) (h : Step t t') {i : EntityId} (hi : i < t.size) :
    ∃ f : Declaration → Declaration, (∀ d, (f d).type = d.type) ∧
      (t'.get i).declaration? = (t.get i).declaration?.map f := by
  have hMap : ∀ {id : EntityId} {f : Declaration → Declaration}, (∀ d, (f d).type = d.type) →
      ∃ g : Declaration → Declaration, (∀ d, (g d).type = d.type) ∧
        ((t.modify id (Entity.mapDeclaration f)).get i).declaration? =
          (t.get i).declaration?.map g := by
    intro id f hf
    rw [declaration?_modify]
    split
    · exact ⟨f, hf, rfl⟩
    · exact ⟨fun d => d, fun _ => rfl, Option.map_id'.symm⟩
  have hSame : (t'.get i).declaration? = (t.get i).declaration? →
      ∃ g : Declaration → Declaration, (∀ d, (g d).type = d.type) ∧
        (t'.get i).declaration? = (t.get i).declaration?.map g := by
    intro hEq
    exact ⟨fun d => d, fun _ => rfl, hEq.trans Option.map_id'.symm⟩
  cases h with
  | record r => exact hSame (declaration?_addRecords_singleton hPos r i)
  | add hReady hStarts hParameter hRefers hAdd =>
    obtain ⟨-, -, -, -, -, hGet⟩ := add_eq_ok hAdd
    refine hSame ?_
    rw [hGet, if_neg (Nat.ne_of_lt hi)]
  | name hOpen hName hForward hListed hSet =>
    obtain ⟨e, hRenames, -⟩ := (naming_of_setName hOpen.lt hSet).renames
    exact hSame (hRenames.declaration i)
  | inherit => exact hSame (get_modify_congr Entity.declaration? (declaration?_mapDefinition _) i)
  | switch => exact hSame (get_modify_congr Entity.declaration? (declaration?_mapDefinition _) i)
  | annotate hf =>
    refine hSame (get_modify_congr Entity.declaration? ?_ i)
    intro e
    rw [hf e]
    rfl
  | complete hf => exact hMap fun d => (hf d).type_eq
  | start => exact hMap fun _ => rfl
  | finish => exact hMap fun _ => rfl

/-- Declarations keep their types. -/
theorem Steps.type (hPos : 0 < t.size) (h : Steps t t') {i : EntityId} {d : Declaration}
    (hd : (t.get i).declaration? = some d) :
    ∃ d', (t'.get i).declaration? = some d' ∧ d'.type = d.type := by
  induction h with
  | refl => exact ⟨d, hd, rfl⟩
  | tail hBefore hStep ih =>
    obtain ⟨d', hd', hType⟩ := ih
    have hExtends := Steps.extends hPos hBefore
    obtain ⟨f, hf, hMap⟩ := hStep.declaration? (Nat.lt_of_lt_of_le hPos hExtends.size)
      (lt_of_declaration? hd')
    refine ⟨f d', ?_, (hf d').trans hType⟩
    rw [hMap, hd']
    rfl

/-- Whether a type of characters, if it has a name, has that of a typedef of characters. -/
def Lettered (t : Tree) (type : DeclaredType) : Prop :=
  type.base.isCharacter = true → ∀ x ∈ type.definition, (t.get x).kind = .typedef ∧
    ∃ d, (t.get x).declaration? = some d ∧ d.type.base.isCharacter = true

theorem Lettered.steps {type : DeclaredType} (hPos : 0 < t.size) (h : t.Lettered type)
    (hSteps : Steps t t') : t'.Lettered type := by
  intro hCharacter x hx
  obtain ⟨hKind, d, hd, hBase⟩ := h hCharacter x hx
  obtain ⟨d', hd', hType⟩ := Steps.type hPos hSteps hd
  refine ⟨?_, d', hd', hType ▸ hBase⟩
  rw [(Steps.extends hPos hSteps).kind x (lt_of_declaration? hd)]
  exact hKind

/-- Whether a type may be that of a declaration. -/
structure Declarable (t : Tree) (type : DeclaredType) : Prop where
  refers : t.Refers type
  lettered : t.Lettered type

theorem Declarable.steps {type : DeclaredType} (hPos : 0 < t.size) (h : t.Declarable type)
    (hSteps : Steps t t') : t'.Declarable type :=
  ⟨(Steps.extends hPos hSteps).refers h.refers, h.lettered.steps hPos hSteps⟩

/-- The entity that a step adds, if it adds one. -/
theorem Step.new (hPos : 0 < t.size) (h : Step t t') {i : EntityId} (hNew : ¬ i < t.size)
    (hi : i < t'.size) :
    i = t.size ∧
      ((t'.get i).kind = .directive ∧ (t'.get i).isRecord = true ∨
        ∃ kind data, EntityData.Starts kind data ∧
          (∀ d, data = .declaration d → t.Refers d.type) ∧ (t'.get i).kind = kind ∧
          (t'.get i).data = data) := by
  have hSame : t'.size = t.size → False := fun hSize => hNew (hSize ▸ hi)
  cases h with
  | record r =>
    rw [size_addRecords_singleton] at hi
    have hId : i = t.size := Nat.le_antisymm (Nat.le_of_lt_succ hi) (Nat.le_of_not_lt hNew)
    refine ⟨hId, Or.inl ⟨?_, ?_⟩⟩
    · rw [hId, (get_addRecords_singleton_size hPos r).kind]
      rfl
    · rw [hId, get_addRecords_singleton_self hPos, (Entity.annotates_attach _ _).isRecord]
      rfl
  | add hReady hStarts hParameter hRefers hAdd =>
    obtain ⟨-, -, hSize, -, -, hGet⟩ := add_eq_ok hAdd
    rw [hSize] at hi
    have hId : i = t.size := Nat.le_antisymm (Nat.le_of_lt_succ hi) (Nat.le_of_not_lt hNew)
    refine ⟨hId, Or.inr ⟨_, _, hStarts, hRefers, ?_, ?_⟩⟩
    · rw [hGet, if_pos hId]
    · rw [hGet, if_pos hId]
  | name hOpen hName hForward hListed hSet =>
    obtain ⟨e, hRenames, -⟩ := (naming_of_setName hOpen.lt hSet).renames
    exact (hSame hRenames.size).elim
  | inherit => exact (hSame (size_modify _ _ _)).elim
  | switch => exact (hSame (size_modify _ _ _)).elim
  | annotate => exact (hSame (size_modify _ _ _)).elim
  | complete => exact (hSame (size_modify _ _ _)).elim
  | start => exact (hSame (size_modify _ _ _)).elim
  | finish => exact (hSame (size_modify _ _ _)).elim

/-- An entity has the data of a declaration if its kind says so. -/
theorem Reachable.isDeclaration (h : t.Reachable) {i : EntityId} (hi : i < t.size) :
    (t.get i).declaration?.isSome = (t.get i).kind.isDeclaration := by
  obtain ⟨caseSensitive, hSteps⟩ := h
  induction hSteps generalizing i with
  | refl =>
    have hRoot : i = root := Nat.lt_one_iff.mp hi
    rw [hRoot]
    rfl
  | @tail t t' hBefore hStep ih =>
    have hPos := Reachable.size_pos ⟨caseSensitive, hBefore⟩
    by_cases hOld : i < t.size
    · obtain ⟨f, -, hMap⟩ := hStep.declaration? hPos hOld
      rw [hMap, Option.isSome_map, (hStep.extends hPos).kind i hOld]
      exact ih hOld
    · obtain ⟨-, ⟨hKind, hRecord⟩ | ⟨kind, data, hStarts, -, hKind, hData⟩⟩ :=
        hStep.new hPos hOld hi
      · rw [hKind, Entity.declaration?_of_isRecord hRecord]
        rfl
      · unfold Entity.declaration?
        rw [hKind, hData]
        cases hStarts with
        | definition hDefinition =>
          exact (EntityKind.not_isDeclaration_of_isDefinition hDefinition).symm
        | declaration hDeclaration => exact hDeclaration.symm

/-- The types of declarations name entities that were there before. -/
theorem Reachable.references_lt (h : t.Reachable) {i : EntityId} {d : Declaration}
    (hd : (t.get i).declaration? = some d) : ∀ x ∈ d.type.references, x < i := by
  obtain ⟨caseSensitive, hSteps⟩ := h
  induction hSteps generalizing i d with
  | refl =>
    have hRoot : i = root := Nat.lt_one_iff.mp (lt_of_declaration? hd)
    rw [hRoot] at hd
    cases hd
  | @tail t t' hBefore hStep ih =>
    have hPos := Reachable.size_pos ⟨caseSensitive, hBefore⟩
    by_cases hOld : i < t.size
    · obtain ⟨f, hf, hMap⟩ := hStep.declaration? hPos hOld
      rw [hMap] at hd
      obtain ⟨d₀, hd₀, rfl⟩ := Option.map_eq_some_iff.mp hd
      rw [hf]
      exact ih hd₀
    · obtain ⟨hId, ⟨-, hRecord⟩ | ⟨kind, data, -, hRefers, -, hData⟩⟩ :=
        hStep.new hPos hOld (lt_of_declaration? hd)
      · rw [Entity.declaration?_of_isRecord hRecord] at hd
        cases hd
      · unfold Entity.declaration? at hd
        rw [hData] at hd
        split at hd
        · rename_i d'
          cases hd
          intro x hx
          rw [hId]
          exact (hRefers _ rfl x hx).1.1
        · cases hd

/-! ## Entries of enumerations -/

/-- Whether an entity, if it is an entry of an enumeration, has this enumeration as its type. -/
def Entry (t : Tree) (i : EntityId) : Prop :=
  (t.get i).kind = .enumEntry → ∃ p, (t.get i).parent = some p ∧ (t.get p).kind = .enum ∧
    ∀ d, (t.get i).declaration? = some d → d.type.definition = some p

theorem entry_of_le {i : EntityId} (h : ¬ i < t.size) : t.Entry i := by
  intro hKind
  rw [get_of_le h] at hKind
  cases hKind

/-- Entries keep their types. -/
theorem entry_iff (h : t.Reachable) (hSteps : Steps t t') {i : EntityId} (hi : i < t.size) :
    t'.Entry i ↔ t.Entry i := by
  have hExtends := hSteps.extends h.size_pos
  unfold Entry
  rw [hExtends.kind i hi, hExtends.parent i hi]
  refine imp_congr_right fun hKind => exists_congr fun p => and_congr_right fun hParent => ?_
  have hLt := (wellFormed_of_reachable h).toFramed.parent_lt_size hi hParent
  have hSome := h.isDeclaration hi
  rw [hKind] at hSome
  obtain ⟨d, hd⟩ := Option.isSome_iff_exists.mp hSome
  obtain ⟨d', hd', hType⟩ := Steps.type h.size_pos hSteps hd
  rw [hExtends.kind p hLt, hd, hd']
  simp [hType]

theorem entry_initial (caseSensitive : Bool) (i : EntityId) :
    (initial caseSensitive).Entry i := by
  by_cases hi : i < (initial caseSensitive).size
  · rw [Nat.lt_one_iff.mp hi]
    intro hKind
    cases hKind
  · exact entry_of_le hi

theorem entry_of_size (h : t'.size = t.size) (i : EntityId) (hi : t.size ≤ i)
    (hLt : i < t'.size) : t'.Entry i := absurd hi (Nat.not_le_of_lt (h ▸ hLt))

/-- An entry of an enumeration that is added. -/
theorem entry_add {parent id : EntityId} {kind : EntityKind} {source : SourceId} {span : Span}
    {data : EntityData} (hLt : parent < t.size)
    (hEntry : kind = .enumEntry → (t.get parent).kind = .enum ∧
      ∀ d, data = .declaration d → d.type.definition = some parent)
    (h : t.add parent kind source span data = .ok (id, t')) (i : EntityId) (hi : t.size ≤ i)
    (hNew : i < t'.size) : t'.Entry i := by
  obtain ⟨-, -, hSize, -, -, hGet⟩ := add_eq_ok h
  rw [hSize] at hNew
  have hId : i = t.size := Nat.le_antisymm (Nat.le_of_lt_succ hNew) hi
  unfold Entry
  rw [hGet i, if_pos hId]
  intro hKind
  obtain ⟨hEnum, hType⟩ := hEntry hKind
  refine ⟨parent, rfl, ?_, fun d hd => hType d ?_⟩
  · rw [hGet, if_neg (Nat.ne_of_lt hLt)]
    exact hEnum
  · unfold Entity.declaration? at hd
    split at hd
    · rename_i hData
      cases hd
      exact hData
    · cases hd

/-- Entries keep the property if those that are added have it. -/
theorem entries_steps (h : t.Reachable) (hEntries : ∀ i, t.Entry i) (hSteps : Steps t t')
    (hNew : ∀ i, t.size ≤ i → i < t'.size → t'.Entry i) (i : EntityId) : t'.Entry i := by
  by_cases hOld : i < t.size
  · exact (entry_iff h hSteps hOld).mpr (hEntries i)
  · by_cases hi : i < t'.size
    · exact hNew i (Nat.le_of_not_lt hOld) hi
    · exact entry_of_le hi

/-! ## Lists of members -/

/-- What giving a name does to lists of members: the entity becomes the last member of its
parent, unless it is not to be listed or declares again what is known. -/
theorem children_setName {id found : EntityId} {name : String} {forward listed : Bool}
    (hPlace : ∀ p, (t.get id).parent = some p → p < t.size)
    (h : t.setName id name forward listed = .ok (found, t')) :
    (listed = false ∨ forward = true) ∧ (∀ i, (t'.get i).children = (t.get i).children) ∨
      listed = true ∧ ∃ p, (t.get id).parent = some p ∧
        ∀ i, (t'.get i).children =
          if i = p then (t.get i).children ++ [id] else (t.get i).children := by
  have hModify : ∀ (u : Tree) {i : EntityId} {f : Entity → Entity},
      (∀ e, (f e).children = e.children) → ∀ j, ((u.modify i f).get j).children =
        (u.get j).children := fun u _ _ hf j => get_modify_congr Entity.children hf j
  obtain ⟨parent, scope, hParent, -, -, h⟩ := setName_eq_ok.mp h
  have hNamed : ∀ j, ((t.rename id name).get j).children = (t.get j).children := by
    unfold rename
    apply hModify
    intro e
    rfl
  have hSize : (t.rename id name).size = t.size := size_modify _ _ _
  unfold enterName at h
  dsimp only at h
  rw [kind_rename] at h
  generalize t.rename id name = u at h hNamed hSize
  -- The list of members after a change that keeps all of them.
  have hList : ∀ v : Tree, v.size = t.size →
      (∀ j, (v.get j).children = (t.get j).children) →
      ∀ j, ((if listed then v.addChild parent id else v).get j).children =
        if listed = true ∧ j = parent then (t.get j).children ++ [id]
        else (t.get j).children := by
    intro v hv hChildren j
    cases listed with
    | false => exact hChildren j
    | true =>
      have hLt : parent < v.size := hv ▸ hPlace parent hParent
      simp only [if_true, true_and]
      rw [addChild, get_modify]
      by_cases hj : j = parent
      · rw [if_pos ⟨hj, hLt⟩, if_pos hj, hj]
        exact congrArg (· ++ [id]) (hChildren parent)
      · rw [if_neg fun hEq => hj hEq.1, if_neg hj]
        exact hChildren j
  have hDone : ∀ v : Tree, v.size = t.size →
      (∀ j, (v.get j).children = (t.get j).children) →
      t' = (if listed then v.addChild parent id else v) →
      (listed = false ∨ forward = true) ∧
        (∀ i, (t'.get i).children = (t.get i).children) ∨
      listed = true ∧ ∃ p, (t.get id).parent = some p ∧
        ∀ i, (t'.get i).children =
          if i = p then (t.get i).children ++ [id] else (t.get i).children := by
    intro v hv hChildren hEq
    have hAll := hList v hv hChildren
    rw [← hEq] at hAll
    cases listed with
    | false => exact Or.inl ⟨Or.inl rfl, fun i => by simpa using hAll i⟩
    | true => exact Or.inr ⟨rfl, parent, hParent, fun i => by simpa using hAll i⟩
  cases hOutcome : u.nameOutcome (t.get id).kind forward
      ((u.scope scope).get? (isDeclarationName (t.get id).kind) (u.key name)) with
  | error cause =>
    rw [hOutcome] at h
    cases h
  | ok outcome =>
    rw [hOutcome] at h
    rcases nameOutcome_eq_ok hOutcome with ⟨-, rfl⟩ | ⟨x, -, -, hCase⟩
    · cases h
      refine hDone _ ?_ ?_ rfl
      · rw [size_modify]
        exact hSize
      · intro j
        rw [hModify]
        · exact hNamed j
        · exact fun _ => rfl
    · rcases hCase with ⟨hForward, rfl⟩ | ⟨-, -, rfl⟩ | ⟨-, -, -, rfl⟩
      · cases h
        refine Or.inl ⟨Or.inr hForward, fun i => ?_⟩
        rw [hModify]
        · exact hNamed i
        · exact fun _ => rfl
      · cases h
        refine hDone _ ?_ ?_ rfl
        · rw [size_modify]
          exact hSize
        · intro j
          rw [hModify]
          · exact hNamed j
          · exact fun _ => rfl
      · cases h
        exact hDone (u.insertName scope _ _ id) hSize hNamed rfl

theorem children_addRecords_singleton (h : 0 < t.size) (r : Record) (i : EntityId) :
    ((t.addRecords [r]).get i).children = (t.get i).children := by
  have hAttach : ∀ e : Entity, (e.attach r.comments).children = e.children := by
    intro e
    rw [Entity.annotates_attach r.comments e]
  rw [addRecords_singleton, get_modify_congr Entity.children hAttach, get_addRecord h]
  split
  · rename_i hNew
    rw [hNew, children_of_le (Nat.lt_irrefl _)]
    rfl
  · split
    · rename_i hRoot
      rw [hRoot]
      unfold listing
      split <;> rfl
    · rfl

/-- What an entity must be that becomes a member in the growth of a tree. -/
structure Joining (t t' : Tree) (p c : EntityId) : Prop where
  named : t'.Named c
  unnamed : ¬ t.Named c
  parent : (t'.get c).parent = some p
  kind : (t'.get c).kind ≠ .parameter
  directive : (t'.get c).kind ≠ .directive

theorem Step.children (h : t.Framed) (hStep : Step t t') (i : EntityId) :
    ∃ l, (t'.get i).children = (t.get i).children ++ l ∧ l.Nodup ∧
      ∀ c ∈ l, Joining t t' i c := by
  have hSame : (t'.get i).children = (t.get i).children →
      ∃ l, (t'.get i).children = (t.get i).children ++ l ∧ l.Nodup ∧
        ∀ c ∈ l, Joining t t' i c :=
    fun hEq => ⟨[], by rw [hEq, List.append_nil], List.nodup_nil, nofun⟩
  have hModify : ∀ {id : EntityId} {f : Entity → Entity}, (∀ e, (f e).children = e.children) →
      ((t.modify id f).get i).children = (t.get i).children :=
    fun hf => get_modify_congr Entity.children hf i
  have hDefinition : ∀ (f : Definition → Definition) (e : Entity),
      (e.mapDefinition f).children = e.children := by
    intro f e
    unfold Entity.mapDefinition
    split <;> rfl
  cases hStep with
  | record r => exact hSame (children_addRecords_singleton h.pos r i)
  | add hReady hStarts hParameter hRefers hAdd =>
    refine hSame ?_
    obtain ⟨-, -, -, -, -, hGet⟩ := add_eq_ok hAdd
    rw [hGet]
    split
    · rename_i hi
      rw [children_of_le (hi ▸ Nat.lt_irrefl _)]
    · rfl
  | @name _ id found name forward listed hOpen hName hForward hListed hSet =>
    have hPlace : ∀ p, (t.get id).parent = some p → p < t.size := fun p hp =>
      h.parent_lt_size hOpen.lt hp
    rcases children_setName hPlace hSet with ⟨-, hAll⟩ | ⟨hTrue, p, hParent, hAll⟩
    · exact hSame (hAll i)
    · by_cases hi : i = p
      · rw [hi]
        refine ⟨[id], by rw [hAll, if_pos rfl], List.pairwise_singleton _ id, fun c hc => ?_⟩
        rw [List.mem_singleton.mp hc]
        obtain ⟨e, hRenames, hKind, hSame, hNew⟩ := (naming_of_setName hOpen.lt hSet).renames
        refine ⟨⟨?_, ?_⟩, ?_, ?_, ?_, ?_⟩
        · rw [hRenames.size]
          exact hOpen.lt
        · rw [hRenames.self.name, hNew]
          exact hName.ne_empty
        · exact fun hNamed => hNamed.2 hOpen.unnamed
        · rw [hRenames.self.parent, hSame]
          exact hParent
        · rw [hRenames.self.kind, hKind]
          exact hListed.mp hTrue
        · rw [hRenames.self.kind, hKind]
          exact (h.unnamed id hOpen.lt hOpen.unnamed).2
      · exact hSame (by rw [hAll, if_neg hi])
  | inherit => exact hSame (hModify (hDefinition _))
  | switch => exact hSame (hModify (hDefinition _))
  | annotate hf =>
    refine hSame (hModify fun e => ?_)
    rw [hf e]
  | complete => exact hSame (hModify (Entity.children_mapDeclaration _))
  | start => exact hSame (hModify (Entity.children_mapDeclaration _))
  | finish => exact hSame (hModify (Entity.children_mapDeclaration _))

/-- The list of members of an entity grows at its end, by entities that get their names. -/
theorem Steps.children (hReachable : t.Reachable) (h : Steps t t') (i : EntityId) :
    ∃ l, (t'.get i).children = (t.get i).children ++ l ∧ l.Nodup ∧
      ∀ c ∈ l, Joining t t' i c := by
  induction h with
  | refl => exact ⟨[], (List.append_nil _).symm, List.nodup_nil, nofun⟩
  | @tail u t' hBefore hStep ih =>
    obtain ⟨l, hl, hNodup, hJoining⟩ := ih
    have hReachable' := hReachable.steps hBefore
    have hExtends := hStep.extends hReachable'.size_pos
    obtain ⟨k, hk, hNodup', hJoining'⟩ :=
      hStep.children (wellFormed_of_reachable hReachable').toFramed i
    have hApart : ∀ c ∈ l, ∀ c' ∈ k, c ≠ c' := by
      rintro c hc c' hc' rfl
      exact (hJoining' c hc').unnamed (hJoining c hc).named
    refine ⟨l ++ k, by rw [hk, hl, List.append_assoc],
      List.nodup_append.mpr ⟨hNodup, hNodup', hApart⟩, fun c hc => ?_⟩
    rcases List.mem_append.mp hc with hc | hc
    · have hOld := hJoining c hc
      refine ⟨hExtends.named hOld.named, hOld.unnamed, ?_, ?_, ?_⟩
      · rw [hExtends.parent c hOld.named.1]
        exact hOld.parent
      · rw [hExtends.kind c hOld.named.1]
        exact hOld.kind
      · rw [hExtends.kind c hOld.named.1]
        exact hOld.directive
    · have hNew := hJoining' c hc
      refine ⟨hNew.named, fun hNamed => hNew.unnamed ?_, hNew.parent, hNew.kind, hNew.directive⟩
      exact (Steps.extends hReachable.size_pos hBefore).named hNamed

/-- All members of an entity got their names one after the other. -/
theorem Reachable.children (h : t.Reachable) (p : EntityId) :
    (t.get p).children.Nodup ∧ ∀ c ∈ (t.get p).children,
      t.Named c ∧ (t.get c).parent = some p ∧ (t.get c).kind ≠ .parameter := by
  obtain ⟨caseSensitive, hSteps⟩ := h
  obtain ⟨l, hl, hNodup, hJoining⟩ := Steps.children ⟨caseSensitive, .refl⟩ hSteps p
  have hNone : ((initial caseSensitive).get p).children = [] := by
    by_cases hp : p < (initial caseSensitive).size
    · rw [Nat.lt_one_iff.mp hp]
      rfl
    · exact children_of_le hp
  rw [hl, hNone, List.nil_append]
  exact ⟨hNodup, fun c hc => ⟨(hJoining c hc).named, (hJoining c hc).parent, (hJoining c hc).kind⟩⟩

/-- The members of an entity lie below it. -/
theorem Reachable.parent_of_mem_children (h : t.Reachable) {p c : EntityId}
    (hc : c ∈ (t.get p).children) :
    t.Named c ∧ (t.get c).parent = some p ∧ (t.get c).kind ≠ .parameter :=
  (h.children p).2 c hc

/-- What only declares a name stays a forward declaration. -/
theorem Naming.forward_self {id found : EntityId} {name : String}
    (h : Naming t id name true found t') : (t'.get id).forward = true := by
  cases h with
  | fresh _ _ _ hRenames => exact hRenames.self.forward
  | repeated _ _ _ _ hRenames => exact hRenames.self.forward

/-- Whether an entity belongs into the list of members of its parent. -/
structure Listed (t : Tree) (c : EntityId) : Prop where
  named : t.Named c
  full : (t.get c).forward = false
  parameter : (t.get c).kind ≠ .parameter
  directive : (t.get c).kind ≠ .directive

/-- An entity gets its name in one step, unless it is a recorded directive. -/
theorem Step.naming (hPos : 0 < t.size) (hStep : Step t t') {c : EntityId} (hOld : ¬ t.Named c)
    (hNamed : t'.Named c) (hKind : (t'.get c).kind ≠ .directive) :
    ∃ found name forward listed, t.Open c ∧ IsName name ∧
      (listed = true ↔ (t.get c).kind ≠ .parameter) ∧
      t.setName c name forward listed = .ok (found, t') := by
  have hAlike : ∀ {id : EntityId} {f : Entity → Entity}, (∀ e, Entity.Alike e (f e)) →
      t' ≠ t.modify id f := by
    rintro id f hf rfl
    refine hOld ⟨?_, ?_⟩
    · simpa using hNamed.1
    · rw [← (alike_modify hf c).name]
      exact hNamed.2
  cases hStep with
  | record r =>
    by_cases hc : c < t.size
    · refine absurd ⟨hc, ?_⟩ hOld
      rw [← (alike_addRecords_singleton hPos r hc).name]
      exact hNamed.2
    · have hLt := hNamed.1
      rw [size_addRecords_singleton] at hLt
      have hId : c = t.size := Nat.le_antisymm (Nat.le_of_lt_succ hLt) (Nat.le_of_not_lt hc)
      refine absurd ?_ hKind
      rw [hId, (get_addRecords_singleton_size hPos r).kind]
      rfl
  | add hReady hStarts hParameter hRefers hAdd =>
    obtain ⟨-, -, hSize, -, -, hGet⟩ := add_eq_ok hAdd
    unfold Named at hNamed
    rw [hGet, hSize] at hNamed
    split at hNamed
    · exact absurd rfl hNamed.2
    · rename_i hc
      exact absurd ⟨lt_of_lt_succ hNamed.1 hc, hNamed.2⟩ hOld
  | @name _ id found name forward listed hOpen hName hForward hListed hSet =>
    obtain ⟨e, hRenames, -⟩ := (naming_of_setName hOpen.lt hSet).renames
    have hc : c = id := by
      refine Decidable.byContradiction fun hc => hOld ?_
      unfold Named at hNamed ⊢
      rw [hRenames.size, (hRenames.others c hc).name] at hNamed
      exact hNamed
    rw [hc]
    exact ⟨found, name, forward, listed, hOpen, hName, hListed, hSet⟩
  | inherit => exact (hAlike (fun e => Entity.alike_mapDefinition _ e) rfl).elim
  | switch => exact (hAlike (fun e => Entity.alike_mapDefinition _ e) rfl).elim
  | annotate hf => exact (hAlike (fun e => (hf e).alike) rfl).elim
  | complete => exact (hAlike (fun e => Entity.alike_mapDeclaration _ e) rfl).elim
  | start => exact (hAlike (fun e => Entity.alike_mapDeclaration _ e) rfl).elim
  | finish => exact (hAlike (fun e => Entity.alike_mapDeclaration _ e) rfl).elim

/-- Everything below an entity that is defined or declared is a member of it. -/
theorem Reachable.listed (h : t.Reachable) {p c : EntityId} (hListed : t.Listed c)
    (hParent : (t.get c).parent = some p) : c ∈ (t.get p).children := by
  obtain ⟨caseSensitive, hSteps⟩ := h
  induction hSteps with
  | refl =>
    have hRoot : c = root := Nat.lt_one_iff.mp hListed.named.1
    rw [hRoot] at hParent
    cases hParent
  | @tail t t' hBefore hStep ih =>
    have hReachable : t.Reachable := ⟨caseSensitive, hBefore⟩
    have hFramed := (wellFormed_of_reachable hReachable).toFramed
    have hExtends := hStep.extends hReachable.size_pos
    by_cases hNamed : t.Named c
    · obtain ⟨l, hl, -, -⟩ := hStep.children hFramed p
      obtain ⟨-, hForward, -⟩ := hExtends.settled c hNamed.1 (Or.inr hNamed.2)
      have hKind := hExtends.kind c hNamed.1
      rw [hl]
      refine List.mem_append_left l (ih ⟨hNamed, ?_, ?_, ?_⟩ ?_)
      · exact hForward.symm.trans hListed.full
      · exact hKind ▸ hListed.parameter
      · exact hKind ▸ hListed.directive
      · exact (hExtends.parent c hNamed.1).symm.trans hParent
    · -- Only a name that is given makes the entity a named one.
      obtain ⟨found, name, forward, listed, hOpen, -, hSelf, hSet⟩ :=
        hStep.naming hReachable.size_pos hNamed hListed.named hListed.directive
      have hPlace := hExtends.parent c hOpen.lt
      have hTrue : listed = true := by
        refine hSelf.mpr ?_
        rw [← hExtends.kind c hOpen.lt]
        exact hListed.parameter
      rcases children_setName (fun p hp => hFramed.parent_lt_size hOpen.lt hp) hSet with
        ⟨hUnlisted | hAgain, -⟩ | ⟨-, q, hq, hAll⟩
      · rw [hTrue] at hUnlisted
        cases hUnlisted
      · have hNaming := naming_of_setName hOpen.lt hSet
        rw [hAgain] at hNaming
        have hFull := hListed.full
        rw [hNaming.forward_self] at hFull
        cases hFull
      · rw [← hPlace, hParent] at hq
        cases hq
        rw [hAll, if_pos rfl]
        exact List.mem_append_right _ (List.mem_singleton.mpr rfl)

end IdlReader.Tree
