import IdlReader.Proofs.Grammar.Growth

/-!
# What is added to trees

Reading adds entities and leaves the data of those that are there as it is (`Tree.Adds`). What is
read in the innermost definition becomes a member of it or a parameter of an operation there, and
waits for its evaluation (`Tree.Fresh`).

* `Grown.trans`: a definition gets members, and more of them.
* `Declares.fresh`, `Opens.grown`: a declaration becomes a member, and so does a definition that is
  only declared.
-/

namespace IdlReader

/-- What kinds of declarations may stand in a definition of a kind. Entries of enumerations and
cases of unions stand in these only, and enumerations hold nothing else. -/
structure EntityKind.Belongs (kind owner : EntityKind) : Prop where
  case : kind = .caseEntry → owner = .union
  entry : kind = .enumEntry ↔ owner = .enum

namespace Tree

variable {t t' t'' : Tree}

/-! ## What is added -/

/-- Whether a tree goes on with another one without changing the data of its entities. What is
added, directives aside, has a property. -/
structure Adds (t t' : Tree) (p : EntityId → Prop) : Prop where
  size : t.size ≤ t'.size
  kind : ∀ i, i < t.size → (t'.get i).kind = (t.get i).kind
  parent : ∀ i, i < t.size → (t'.get i).parent = (t.get i).parent
  declaration? : ∀ i, i < t.size → (t'.get i).declaration? = (t.get i).declaration?
  definition? : ∀ i, i < t.size → (t'.get i).definition? = (t.get i).definition?
  new : ∀ i, t.size ≤ i → i < t'.size → (t'.get i).kind ≠ .directive → p i

theorem Adds.refl (t : Tree) (p : EntityId → Prop) : Adds t t p :=
  ⟨Nat.le_refl _, fun _ _ => rfl, fun _ _ => rfl, fun _ _ => rfl, fun _ _ => rfl,
    fun _ hi hLt => absurd hi (Nat.not_le_of_lt hLt)⟩

theorem Adds.mono {p q : EntityId → Prop} (h : Adds t t' p)
    (hpq : ∀ i, t.size ≤ i → i < t'.size → p i → q i) : Adds t t' q :=
  { h with new := fun i hi hLt hKind => hpq i hi hLt (h.new i hi hLt hKind) }

theorem Adds.trans {p q : EntityId → Prop} (h : Adds t t' p) (h' : Adds t' t'' q) :
    Adds t t'' fun i => p i ∨ q i where
  size := Nat.le_trans h.size h'.size
  kind := fun i hi => (h'.kind i (Nat.lt_of_lt_of_le hi h.size)).trans (h.kind i hi)
  parent := fun i hi => (h'.parent i (Nat.lt_of_lt_of_le hi h.size)).trans (h.parent i hi)
  declaration? := fun i hi =>
    (h'.declaration? i (Nat.lt_of_lt_of_le hi h.size)).trans (h.declaration? i hi)
  definition? := fun i hi =>
    (h'.definition? i (Nat.lt_of_lt_of_le hi h.size)).trans (h.definition? i hi)
  new := by
    intro i hi hLt hKind
    by_cases hOld : i < t'.size
    · refine Or.inl (h.new i hi hOld ?_)
      rw [← h'.kind i hOld]
      exact hKind
    · exact Or.inr (h'.new i (Nat.le_of_not_lt hOld) hLt hKind)

/-- A change of what was added before. -/
theorem Adds.modify {p : EntityId → Prop} (h : Adds t t' p) {id : EntityId} (hid : t.size ≤ id)
    {f : Entity → Entity} (hf : ∀ e, (f e).kind = e.kind) : Adds t (t'.modify id f) p := by
  have hSame : ∀ i, i < t.size → (t'.modify id f).get i = t'.get i := fun i hi =>
    get_modify_of_ne (Nat.ne_of_lt (Nat.lt_of_lt_of_le hi hid)) f
  refine ⟨?_, ?_, ?_, ?_, ?_, ?_⟩
  · rw [size_modify]
    exact h.size
  · exact fun i hi => (congrArg Entity.kind (hSame i hi)).trans (h.kind i hi)
  · exact fun i hi => (congrArg Entity.parent (hSame i hi)).trans (h.parent i hi)
  · exact fun i hi => (congrArg Entity.declaration? (hSame i hi)).trans (h.declaration? i hi)
  · exact fun i hi => (congrArg Entity.definition? (hSame i hi)).trans (h.definition? i hi)
  · intro i hi hLt hKind
    rw [size_modify] at hLt
    rw [get_modify_congr Entity.kind hf] at hKind
    exact h.new i hi hLt hKind

/-- Notes add nothing but directives. -/
theorem Note.adds (h : Note t t') : Adds t t' fun _ => False := by
  cases h with
  | record hPos r =>
    have hSize := size_addRecords_singleton t r
    have hAlike := fun i hi => alike_addRecords_singleton hPos r (i := i) hi
    refine ⟨by omega, fun i hi => (hAlike i hi).kind, fun i hi => (hAlike i hi).parent,
      fun i _ => declaration?_addRecords_singleton hPos r i,
      fun i _ => definition?_addRecords_singleton hPos r i, ?_⟩
    intro i hi hLt hKind
    have hNew : i = t.size := by omega
    refine hKind ?_
    rw [hNew, (get_addRecords_singleton_size hPos r).kind]
    rfl
  | @annotate id f hf =>
    have hData : ∀ e, (f e).data = e.data := fun e => by rw [hf e]
    have hSame : ∀ i, ((t.modify id f).get i).data = (t.get i).data :=
      get_modify_congr Entity.data hData
    have hAlike : ∀ i, Entity.Alike (t.get i) ((t.modify id f).get i) :=
      alike_modify fun e => (hf e).alike
    refine ⟨Nat.le_of_eq (size_modify _ _ _).symm, fun i _ => (hAlike i).kind,
      fun i _ => (hAlike i).parent, fun i _ => ?_, fun i _ => ?_, ?_⟩
    · unfold Entity.declaration?
      rw [hSame]
    · unfold Entity.definition?
      rw [hSame]
    · intro i hi hLt
      rw [size_modify] at hLt
      exact absurd hi (Nat.not_le_of_lt hLt)

theorem Noted.adds (h : Noted t t') : Adds t t' fun _ => False := by
  induction h with
  | refl => exact Adds.refl t _
  | tail _ hNote ih => exact (ih.trans hNote.adds).mono fun _ _ _ hFalse => hFalse.elim id id

/-- Adding an entity changes no other one. -/
theorem adds_add {parent id : EntityId} {kind : EntityKind} {source : SourceId} {span : Span}
    {data : EntityData} (h : t.add parent kind source span data = .ok (id, t')) :
    Adds t t' (· = id) := by
  obtain ⟨-, rfl, hSize, -, -, hGet⟩ := add_eq_ok h
  have hOld : ∀ i, i < t.size → t'.get i = t.get i := fun i hi => by
    rw [hGet, if_neg (Nat.ne_of_lt hi)]
  refine ⟨by omega, fun i hi => by rw [hOld i hi], fun i hi => by rw [hOld i hi],
    fun i hi => by rw [hOld i hi], fun i hi => by rw [hOld i hi], ?_⟩
  intro i hi hLt _
  rw [hSize] at hLt
  exact Nat.le_antisymm (Nat.le_of_lt_succ hLt) hi

/-- Giving a name changes no data. -/
theorem adds_setName {id found : EntityId} {name : String} {forward listed : Bool}
    (hLt : id < t.size) (h : t.setName id name forward listed = .ok (found, t')) :
    Adds t t' fun _ => False := by
  obtain ⟨e, hRenames, hKind, hParent, -⟩ := (naming_of_setName hLt h).renames
  refine ⟨Nat.le_of_eq hRenames.size.symm, fun i _ => ?_, fun i _ => ?_,
    fun i _ => hRenames.declaration i, fun i _ => hRenames.definition i,
    fun i hi hLt => absurd hi (Nat.not_le_of_lt (hRenames.size ▸ hLt))⟩
  · by_cases hi : i = id
    · rw [hi, hRenames.self.kind, hKind]
    · exact (hRenames.others i hi).kind
  · by_cases hi : i = id
    · rw [hi, hRenames.self.parent, hParent]
    · exact (hRenames.others i hi).parent

/-! ## Members -/

/-- Whether a declaration, if there is one, waits for its evaluation. -/
def Pending (t : Tree) (i : EntityId) : Prop :=
  ∀ d, (t.get i).declaration? = some d → d.progress = .pending ∧ t.Lettered d.type

theorem Pending.adds {p : EntityId → Prop} {i : EntityId} (h : t.Pending i) (hi : i < t.size)
    (hAdds : Adds t t' p) (hSteps : Steps t t') : t'.Pending i := by
  intro d hd
  rw [hAdds.declaration? i hi] at hd
  obtain ⟨hPending, hLettered⟩ := h d hd
  exact ⟨hPending, hLettered.steps (Nat.zero_lt_of_lt hi) hSteps⟩

/-- Completing declarations evaluates none. -/
theorem Pending.complete {i id : EntityId} {f : Declaration → Declaration} (h : t.Pending i)
    (hf : ∀ d, Declaration.Completes d (f d))
    (hStep : Step t (t.modify id (Entity.mapDeclaration f))) :
    (t.modify id (Entity.mapDeclaration f)).Pending i := by
  intro d hd
  have hPos : 0 < t.size := Nat.zero_lt_of_lt
    ((size_modify t id (Entity.mapDeclaration f)) ▸ lt_of_declaration? hd)
  have hOld : ∃ d₀, (t.get i).declaration? = some d₀ ∧ d.progress = d₀.progress ∧
      d.type = d₀.type := by
    rw [declaration?_modify] at hd
    split at hd
    · obtain ⟨d₀, hd₀, rfl⟩ := Option.map_eq_some_iff.mp hd
      exact ⟨d₀, hd₀, by rw [hf d₀], (hf d₀).type_eq⟩
    · exact ⟨d, hd, rfl, rfl⟩
  obtain ⟨d₀, hd₀, hProgress, hType⟩ := hOld
  obtain ⟨hPending, hLettered⟩ := h d₀ hd₀
  rw [hProgress, hType]
  exact ⟨hPending, hLettered.steps hPos (.single hStep)⟩

/-- Whether an entity stands in another one, or is a parameter of an operation there. -/
def Under (t : Tree) (o i : EntityId) : Prop :=
  (t.get i).parent = some o ∧ (t.get i).kind ≠ .parameter ∨ (t.get i).kind = .parameter ∧
    ∃ q, (t.get i).parent = some q ∧ (t.get q).parent = some o ∧ i ∈ t.parameters q

/-- What holds of an entity that is a new member of another one. -/
structure Fresh (t : Tree) (o i : EntityId) : Prop where
  owner : o < t.size
  place : t.Under o i
  belongs : (t.get i).kind.Belongs (t.get o).kind
  pending : t.Pending i

theorem lt_of_mem_parameters {q i : EntityId} (h : i ∈ t.parameters q) : q < t.size := by
  unfold parameters at h
  cases hd : (t.get q).declaration? with
  | none =>
    rw [hd] at h
    cases h
  | some d => exact lt_of_declaration? hd

theorem Adds.parameters {p : EntityId → Prop} (h : Adds t t' p) {q : EntityId} (hq : q < t.size) :
    t'.parameters q = t.parameters q := by
  unfold Tree.parameters
  rw [h.declaration? q hq]

theorem Under.adds {p : EntityId → Prop} {o i : EntityId} (h : t.Under o i) (hi : i < t.size)
    (hAdds : Adds t t' p) : t'.Under o i := by
  rcases h with ⟨hParent, hKind⟩ | ⟨hKind, q, hParent, hPlace, hListed⟩
  · left
    rw [hAdds.parent i hi, hAdds.kind i hi]
    exact ⟨hParent, hKind⟩
  · have hq := lt_of_mem_parameters hListed
    right
    refine ⟨(hAdds.kind i hi).trans hKind, q, ?_, ?_, ?_⟩
    · rw [hAdds.parent i hi]
      exact hParent
    · rw [hAdds.parent q hq]
      exact hPlace
    · rw [hAdds.parameters hq]
      exact hListed

theorem Fresh.adds {p : EntityId → Prop} {o i : EntityId} (h : t.Fresh o i) (hi : i < t.size)
    (hAdds : Adds t t' p) (hSteps : Steps t t') : t'.Fresh o i := by
  refine ⟨Nat.lt_of_lt_of_le h.owner hAdds.size, h.place.adds hi hAdds, ?_,
    h.pending.adds hi hAdds hSteps⟩
  rw [hAdds.kind i hi, hAdds.kind o h.owner]
  exact h.belongs

/-- Whether a tree goes on with another one by members of an entity. -/
structure Grown (o : EntityId) (t t' : Tree) : Prop where
  steps : Steps t t'
  calm : t.Calm → t'.Calm
  adds : Adds t t' (t'.Fresh o)

theorem Grown.refl (o : EntityId) (t : Tree) : Grown o t t := ⟨.refl, id, Adds.refl t _⟩

theorem Grown.trans {o : EntityId} (h : Grown o t t') (h' : Grown o t' t'') : Grown o t t'' where
  steps := h.steps.trans h'.steps
  calm := fun hCalm => h'.calm (h.calm hCalm)
  adds := by
    have hFirst : Adds t t' fun i => t''.Fresh o i := h.adds.mono fun i _ hLt hFresh =>
      hFresh.adds hLt h'.adds h'.steps
    exact (hFirst.trans h'.adds).mono fun _ _ _ hFresh => hFresh.elim id id

theorem Noted.grown (o : EntityId) (h : Noted t t') : Grown o t t' :=
  ⟨h.quiet.steps, h.quiet.calm, h.adds.mono fun _ _ _ hFalse => hFalse.elim⟩

instance (o : EntityId) : Growth (Grown o) where
  steps h := h.steps
  refl := Grown.refl o
  trans := Grown.trans
  noted := Noted.grown o

/-! ## Declarations -/

/-- A declaration that is added waits for its evaluation. -/
theorem pending_add {parent id : EntityId} {kind : EntityKind} {source : SourceId} {span : Span}
    {d : Declaration} (hPos : 0 < t.size) (hSteps : Steps t t') (hPending : d.progress = .pending)
    (hLettered : t.Lettered d.type)
    (h : t.add parent kind source span (.declaration d) = .ok (id, t')) : t'.Pending id := by
  obtain ⟨-, hId, -, -, -, hGet⟩ := add_eq_ok h
  intro d' hd
  rw [hGet, if_pos hId] at hd
  cases hd
  exact ⟨hPending, hLettered.steps hPos hSteps⟩

/-- Whether an entity is a parameter of an operation that waits for its evaluation. -/
structure Parameter (t : Tree) (operation i : EntityId) : Prop where
  parent : (t.get i).parent = some operation
  kind : (t.get i).kind = .parameter
  pending : t.Pending i

theorem Parameter.adds {p : EntityId → Prop} {q i : EntityId} (h : t.Parameter q i)
    (hi : i < t.size) (hAdds : Adds t t' p) (hSteps : Steps t t') : t'.Parameter q i := by
  refine ⟨?_, ?_, h.pending.adds hi hAdds hSteps⟩
  · rw [hAdds.parent i hi]
    exact h.parent
  · rw [hAdds.kind i hi]
    exact h.kind

/-- Whether a tree goes on with another one by an entity with a name. -/
structure Introduces (t t' : Tree) (owner id : EntityId) (kind : EntityKind) : Prop where
  adds : Adds t t' (· = id)
  new : t.size ≤ id
  named : t'.Named id
  full : (t'.get id).forward = false
  parent : (t'.get id).parent = some owner
  kind : (t'.get id).kind = kind

/-- An entity that was added gets its name. -/
theorem introduces_setName {owner id found : EntityId} {name : String} {listed : Bool}
    (hAdds : Adds t t' (· = id)) (hNew : t.size ≤ id) (hReachable : t'.Reachable)
    (hOpen : t'.Open id) (hParent : (t'.get id).parent = some owner) (hName : IsName name)
    (h : t'.setName id name false listed = .ok (found, t'')) :
    found = id ∧ Introduces t t'' owner id (t'.get id).kind := by
  have hNaming := naming_of_setName hOpen.lt h
  have hFound : found = id := by cases hNaming <;> rfl
  obtain ⟨hNamed, hKind, hFull⟩ :=
    (wellFormed_of_reachable hReachable).named_naming hOpen hName hNaming
  rw [hFound] at hNamed hKind hFull
  have hSet := adds_setName hOpen.lt h
  refine ⟨hFound, ⟨?_, hNew, hNamed, hFull rfl, ?_, hKind⟩⟩
  · exact (hAdds.trans hSet).mono fun _ _ _ hCase => hCase.elim (fun hEq => hEq) False.elim
  · exact (hSet.parent id hOpen.lt).trans hParent

theorem Introduces.noted {owner id : EntityId} {kind : EntityKind}
    (h : Introduces t t' owner id kind) (hPos : 0 < t'.size) (hNoted : Noted t' t'') :
    Introduces t t'' owner id kind where
  adds := (h.adds.trans hNoted.adds).mono fun _ _ _ hNew => hNew.elim (fun hEq => hEq) False.elim
  new := h.new
  named := (hNoted.quiet.steps.extends hPos).named h.named
  full := by
    rw [((hNoted.quiet.steps.extends hPos).settled id h.named.1 (Or.inr h.named.2)).2.1]
    exact h.full
  parent := (hNoted.adds.parent id h.named.1).trans h.parent
  kind := (hNoted.adds.kind id h.named.1).trans h.kind

theorem Introduces.modify {owner id : EntityId} {kind : EntityKind}
    (h : Introduces t t' owner id kind) {f : Entity → Entity} (hf : ∀ e, Entity.Alike e (f e)) :
    Introduces t (t'.modify id f) owner id kind where
  adds := h.adds.modify h.new fun e => (hf e).kind
  new := h.new
  named := by
    unfold Named
    rw [size_modify, (alike_modify hf id).name]
    exact h.named
  full := (alike_modify hf id).forward.trans h.full
  parent := (alike_modify hf id).parent.trans h.parent
  kind := (alike_modify hf id).kind.trans h.kind

/-- Whether a tree goes on with another one by a declaration and the parameters that were read
for it. -/
structure Declares (t t' : Tree) (owner id : EntityId) (kind : EntityKind)
    (parameters : List EntityId) : Prop where
  adds : Adds t t' fun i => i = id ∨ kind = .operation ∧ i ∈ parameters ∧ t'.Parameter id i
  new : t.size ≤ id
  parent : (t'.get id).parent = some owner
  kind : (t'.get id).kind = kind
  pending : t'.Pending id

namespace Declares

variable {owner id : EntityId} {kind : EntityKind} {parameters : List EntityId}

theorem lt (h : Declares t t' owner id kind parameters) : id < t'.size :=
  lt_size_of_parent h.parent

theorem of_introduces (h : Introduces t t' owner id kind) (hPending : t'.Pending id) :
    Declares t t' owner id kind parameters where
  adds := h.adds.mono fun _ _ _ hEq => Or.inl hEq
  new := h.new
  parent := h.parent
  kind := h.kind
  pending := hPending

theorem trans (h : Declares t t' owner id kind parameters)
    (hAdds : Adds t' t'' fun i => kind = .operation ∧ i ∈ parameters ∧ t''.Parameter id i)
    (hSteps : Steps t' t'') : Declares t t'' owner id kind parameters where
  adds := by
    refine (h.adds.trans hAdds).mono fun i _ _ hi => ?_
    rcases hi with (hEq | ⟨hKind, hMem, hParameter⟩) | hNew
    · exact Or.inl hEq
    · exact Or.inr ⟨hKind, hMem,
        hParameter.adds (lt_size_of_parent hParameter.parent) hAdds hSteps⟩
    · exact Or.inr hNew
  new := h.new
  parent := (hAdds.parent id h.lt).trans h.parent
  kind := (hAdds.kind id h.lt).trans h.kind
  pending := h.pending.adds h.lt hAdds hSteps

theorem noted (h : Declares t t' owner id kind parameters) (hNoted : Noted t' t'') :
    Declares t t'' owner id kind parameters :=
  h.trans (hNoted.adds.mono fun _ _ _ hFalse => hFalse.elim) hNoted.quiet.steps

/-- A declaration that lists its parameters is a member, and so is all that was read for it. -/
theorem fresh (h : Declares t t' owner id kind parameters) (hOwner : owner < t.size)
    (hMember : kind ≠ .parameter) (hBelongs : kind.Belongs (t.get owner).kind)
    (hListed : kind = .operation → t'.parameters id = parameters) :
    Adds t t' (t'.Fresh owner) := by
  refine h.adds.mono fun i _ _ hi => ?_
  have hLt : owner < t'.size := Nat.lt_of_lt_of_le hOwner h.adds.size
  have hOwnerKind : (t'.get owner).kind = (t.get owner).kind := h.adds.kind owner hOwner
  rcases hi with rfl | ⟨hKind, hMem, hParameter⟩
  · refine ⟨hLt, Or.inl ⟨h.parent, ?_⟩, ?_, h.pending⟩
    · rw [h.kind]
      exact hMember
    · rw [h.kind, hOwnerKind]
      exact hBelongs
  · refine ⟨hLt, Or.inr ⟨hParameter.kind, id, hParameter.parent, h.parent, ?_⟩, ?_,
      hParameter.pending⟩
    · rw [hListed hKind]
      exact hMem
    · rw [hParameter.kind, hOwnerKind]
      refine ⟨nofun, nofun, fun hEnum => ?_⟩
      have hEntry := hBelongs.entry.mpr hEnum
      rw [hKind] at hEntry
      cases hEntry

/-- Completing the declaration. -/
theorem complete {f : Declaration → Declaration} (h : Declares t t' owner id kind parameters)
    (hf : ∀ d, Declaration.Completes d (f d))
    (hStep : Step t' (t'.modify id (Entity.mapDeclaration f))) :
    Declares t (t'.modify id (Entity.mapDeclaration f)) owner id kind parameters := by
  have hAlike : ∀ i, Entity.Alike (t'.get i) ((t'.modify id (Entity.mapDeclaration f)).get i) :=
    alike_modify fun e => Entity.alike_mapDeclaration _ e
  refine ⟨?_, h.new, (hAlike id).parent.trans h.parent, (hAlike id).kind.trans h.kind,
    h.pending.complete hf hStep⟩
  refine (h.adds.modify h.new fun e => (Entity.alike_mapDeclaration _ e).kind).mono ?_
  intro i _ _ hi
  refine hi.imp (fun hEq => hEq) fun ⟨hKind, hMem, hParameter⟩ => ⟨hKind, hMem, ?_⟩
  exact ⟨(hAlike i).parent.trans hParameter.parent, (hAlike i).kind.trans hParameter.kind,
    hParameter.pending.complete hf hStep⟩

end Declares

/-- The parameters that a declaration lists when it was completed. -/
theorem parameters_complete {id : EntityId} {f : Declaration → Declaration}
    {parameters : List EntityId} (hReachable : t.Reachable) (hLt : id < t.size)
    (hKind : (t.get id).kind.isDeclaration = true)
    (hParameters : ∀ d, (f d).parameters = parameters) :
    (t.modify id (Entity.mapDeclaration f)).parameters id = parameters := by
  have hSome : ((t.get id).declaration?).isSome = true := by
    rw [hReachable.isDeclaration hLt]
    exact hKind
  obtain ⟨d, hd⟩ := Option.isSome_iff_exists.mp hSome
  unfold Tree.parameters
  rw [declaration?_modify, if_pos rfl, hd]
  exact hParameters d

/-- Completing a member in what is not its parameters. -/
theorem Grown.complete {o id : EntityId} {f : Declaration → Declaration} (h : Grown o t t')
    (hNew : t.size ≤ id) (hf : ∀ d, Declaration.Completes d (f d))
    (hParameters : ∀ d, (f d).parameters = d.parameters)
    (hStep : Step t' (t'.modify id (Entity.mapDeclaration f))) :
    Grown o t (t'.modify id (Entity.mapDeclaration f)) := by
  have hAlike : ∀ i, Entity.Alike (t'.get i) ((t'.modify id (Entity.mapDeclaration f)).get i) :=
    alike_modify fun e => Entity.alike_mapDeclaration _ e
  have hListed : ∀ q, (t'.modify id (Entity.mapDeclaration f)).parameters q = t'.parameters q := by
    intro q
    unfold Tree.parameters
    rw [declaration?_modify]
    split
    · rw [Option.map_map]
      exact congrArg (fun g => ((t'.get q).declaration?.map g).getD []) (funext hParameters)
    · rfl
  refine ⟨h.steps.trans (.single hStep), fun hCalm => (h.calm hCalm).modify fun e =>
    Entity.alike_mapDeclaration _ e, ?_⟩
  refine (h.adds.modify hNew fun e => (Entity.alike_mapDeclaration _ e).kind).mono ?_
  intro i _ _ hFresh
  refine ⟨?_, ?_, ?_, hFresh.pending.complete hf hStep⟩
  · rw [size_modify]
    exact hFresh.owner
  · unfold Under
    simp only [(hAlike _).parent, (hAlike _).kind, hListed]
    exact hFresh.place
  · rw [(hAlike i).kind, (hAlike o).kind]
    exact hFresh.belongs

/-! ## Definitions -/

/-- Whether a tree differs from another one in notes and in the head of a definition only. -/
structure Heading (id : EntityId) (t t' : Tree) : Prop where
  quiet : Quiet t t'
  adds : ∀ t₀ : Tree, t₀.size ≤ id → Adds t₀ t (· = id) → Adds t₀ t' (· = id)
  definition : (t.get id).definition?.isSome = true → (t'.get id).definition?.isSome = true

theorem Heading.refl (id : EntityId) (t : Tree) : Heading id t t :=
  ⟨Quiet.refl t, fun _ _ hAdds => hAdds, fun hSome => hSome⟩

theorem Heading.trans {id : EntityId} (h : Heading id t t') (h' : Heading id t' t'') :
    Heading id t t'' where
  quiet := h.quiet.trans h'.quiet
  adds := fun t₀ hNew hAdds => h'.adds t₀ hNew (h.adds t₀ hNew hAdds)
  definition := fun hSome => h'.definition (h.definition hSome)

theorem Noted.heading (id : EntityId) (h : Noted t t') : Heading id t t' where
  quiet := h.quiet
  adds := fun _ _ hAdds => (hAdds.trans h.adds).mono
    fun _ _ _ hi => hi.elim (fun hEq => hEq) False.elim
  definition := fun hSome => by
    rw [h.adds.definition? id (lt_of_definition? hSome)]
    exact hSome

instance (id : EntityId) : Growth (Heading id) where
  steps h := h.quiet.steps
  refl := Heading.refl id
  trans := Heading.trans
  noted := Noted.heading id

theorem heading_mapDefinition {id : EntityId} {f : Definition → Definition}
    (hStep : Step t (t.modify id (Entity.mapDefinition f))) :
    Heading id t (t.modify id (Entity.mapDefinition f)) where
  quiet := quiet_modify (fun e => Entity.alike_mapDefinition _ e) hStep
  adds := fun _ hNew hAdds => hAdds.modify hNew fun e => (Entity.alike_mapDefinition _ e).kind
  definition := fun hSome => by
    rw [definition?_modify, if_pos rfl, Option.isSome_map]
    exact hSome

/-- Whether a definition has a discriminator. -/
def Switched (t : Tree) (id : EntityId) : Prop :=
  ∃ d type k, (t.get id).definition? = some d ∧ d.switchType = some type ∧
    type.kind? = some (.integer k)

theorem Switched.adds {p : EntityId → Prop} {id : EntityId} (h : Switched t id)
    (hAdds : Adds t t' p) : Switched t' id := by
  obtain ⟨d, type, k, hd, hType, hKind⟩ := h
  refine ⟨d, type, k, ?_, hType, hKind⟩
  rw [hAdds.definition? id (lt_of_definition? (by rw [hd]; rfl))]
  exact hd

theorem switched_modify {t : Tree} {id : EntityId} {type : DeclaredType}
    (hDefinition : (t.get id).definition?.isSome = true)
    (hIntegral : (type.kind?.map Kind.isIntegral).getD false = true) :
    Switched (t.modify id (Entity.mapDefinition fun d => { d with switchType := some type })) id := by
  obtain ⟨d, hd⟩ := Option.isSome_iff_exists.mp hDefinition
  have hKind : ∃ k, type.kind? = some (.integer k) := by
    cases hKind : type.kind? with
    | none =>
      rw [hKind] at hIntegral
      cases hIntegral
    | some k =>
      rw [hKind] at hIntegral
      cases k with
      | integer k => exact ⟨k, rfl⟩
      | real => cases hIntegral
      | text => cases hIntegral
  obtain ⟨k, hk⟩ := hKind
  refine ⟨{ d with switchType := some type }, type, k, ?_, rfl, hk⟩
  rw [definition?_modify, if_pos rfl, hd]
  rfl

/-- Whether a tree goes on with another one by a definition in an entity. -/
structure Entered (o id : EntityId) (t t' : Tree) : Prop where
  steps : Steps t t'
  calm : t.Calm → t'.Calm
  adds : Adds t t' (· = id)
  new : t.size ≤ id
  lt : id < t'.size
  owner : o < t.size
  parent : (t'.get id).parent = some o
  kind : (t'.get id).kind.isDefinition = true
  belongs : (t'.get id).kind.Belongs (t.get o).kind
  full : (t'.get id).forward = false
  switch : (t'.get id).kind = .union → Switched t' id

/-- Whether a tree goes on with another one by a definition without a name. -/
structure Opens (t t' : Tree) (owner id : EntityId) (kind : EntityKind) : Prop where
  steps : Steps t t'
  adds : Adds t t' (· = id)
  new : t.size ≤ id
  unnamed : t'.Open id
  parent : (t'.get id).parent = some owner
  kind : (t'.get id).kind = kind
  definition : (t'.get id).definition?.isSome = true

namespace Opens

variable {owner id found : EntityId} {kind : EntityKind} {name : String}

theorem heading (h : Opens t t' owner id kind) (hPos : 0 < t'.size)
    (hHeading : Heading id t' t'') : Opens t t'' owner id kind := by
  have hExtends := hHeading.quiet.steps.extends hPos
  have hLt := h.unnamed.lt
  refine ⟨h.steps.trans hHeading.quiet.steps, hHeading.adds t h.new h.adds, h.new,
    hHeading.quiet.opened id h.unnamed, (hExtends.parent id hLt).trans h.parent,
    (hExtends.kind id hLt).trans h.kind, hHeading.definition h.definition⟩

/-- A definition with a name may get members. -/
theorem entered (h : Opens t t' owner id kind) (hReachable : t'.Reachable) (hOwner : owner < t.size)
    (hDefinition : kind.isDefinition = true) (hBelongs : kind.Belongs (t.get owner).kind)
    (hSwitch : kind = .union → Switched t' id) (hName : IsName name)
    (hSteps : Steps t' t'') (hCalm : t''.Calm)
    (hSet : t'.setName id name false true = .ok (found, t'')) :
    found = id ∧ Entered owner id t t'' := by
  obtain ⟨hFound, hIntroduces⟩ :=
    introduces_setName h.adds h.new hReachable h.unnamed h.parent hName hSet
  rw [h.kind] at hIntroduces
  refine ⟨hFound, h.steps.trans hSteps, fun _ => hCalm, hIntroduces.adds, h.new,
    hIntroduces.named.1, hOwner, hIntroduces.parent, ?_, ?_, hIntroduces.full, ?_⟩
  · rw [hIntroduces.kind]
    exact hDefinition
  · rw [hIntroduces.kind]
    exact hBelongs
  · intro hUnion
    rw [hIntroduces.kind] at hUnion
    exact (hSwitch hUnion).adds (adds_setName h.unnamed.lt hSet)

/-- A definition that is only declared is a member and nothing more. -/
theorem grown (h : Opens t t' owner id kind) (hReachable : t'.Reachable) (hOwner : owner < t.size)
    (hDefinition : kind.isDefinition = true) (hBelongs : kind.Belongs (t.get owner).kind)
    (hSteps : Steps t' t'') (hCalm : t''.Calm)
    (hSet : t'.setName id name true true = .ok (found, t'')) : Grown owner t t'' := by
  have hLt := h.unnamed.lt
  have hSet' := adds_setName hLt hSet
  have hAdds := h.adds.trans hSet'
  have hKind : (t''.get id).kind = kind := (hSet'.kind id hLt).trans h.kind
  refine ⟨h.steps.trans hSteps, fun _ => hCalm, hAdds.mono fun i _ _ hi => ?_⟩
  have hEq : i = id := hi.elim (fun hEq => hEq) False.elim
  rw [hEq]
  refine ⟨Nat.lt_of_lt_of_le hOwner hAdds.size, Or.inl ⟨?_, ?_⟩, ?_, ?_⟩
  · exact (hSet'.parent id hLt).trans h.parent
  · rw [hKind]
    intro hParameter
    rw [hParameter] at hDefinition
    cases hDefinition
  · rw [hKind, hAdds.kind owner hOwner]
    exact hBelongs
  · intro d hd
    rw [hSet'.declaration? id hLt] at hd
    have hSome := hReachable.isDeclaration hLt
    rw [h.kind, EntityKind.not_isDeclaration_of_isDefinition hDefinition, hd] at hSome
    cases hSome

end Opens

end Tree

end IdlReader
