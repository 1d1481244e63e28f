import IdlReader.Proofs.Tree.Registry
import Mathlib.Data.List.Induction
import Mathlib.Data.List.ReduceOption

/-!
# What a tree keeps of a run

The declarations of a tree keep tokens that were read. Of the directives that were recorded it keeps
everything: each one is an entity, and no other entity is changed into one or takes the place of one.
A `Trace` says what was read so far and which directive each entity stands for, if any.

* `Trace.Extends`: how a run goes on.
* `Tree.Placed.modify`, `Tree.Placed.add`, `Tree.Placed.setName`: changes of other entities.
* `Tree.Placed.addRecords`: directives that are recorded.
* `Tree.Placed.map_get`: the recorded directives of a tree, in their order.
-/

namespace IdlReader

/-! ## Traces -/

/-- The directives that are recorded on the way to the tokens of a stream and to its end. -/
def Stream.records (S : Stream) : List Record :=
  (S.deliveries.flatMap fun d => d.gathered.records) ++
    match S.ending with
    | .ok g => g.records
    | .error _ => []

/-- The entity of a recorded directive with its comments. -/
def Record.entity (r : Record) : Entity := (Tree.recorded r).attach r.comments

theorem Record.data_entity (r : Record) : r.entity.data = .record r.kind r.content := by
  rw [entity, Entity.annotates_attach r.comments (Tree.recorded r)]
  rfl

theorem Record.mapDeclaration_entity (r : Record) (f : Declaration → Declaration) :
    r.entity.mapDeclaration f = r.entity := by
  unfold Entity.mapDeclaration
  rw [r.data_entity]

theorem Record.mapDefinition_entity (r : Record) (f : Definition → Definition) :
    r.entity.mapDefinition f = r.entity := by
  unfold Entity.mapDefinition
  rw [r.data_entity]

/-- What a run has come to: the deliveries that were read, and for each entity of the tree the
directive that it stands for, if it is a recorded one. -/
structure Trace where
  read : List Delivery := []
  slots : List (Option Record) := [none]

namespace Trace

variable {τ τ' τ'' : Trace} {id : EntityId}

/-- The directives that were recorded, in their order. -/
def records (τ : Trace) : List Record := τ.slots.reduceOption

/-- Whether an entity was added that is no recorded directive. -/
def Knows (τ : Trace) (id : EntityId) : Prop := τ.slots[id]? = some none

/-- Whether a run goes on from one trace to another one. -/
structure Extends (τ τ' : Trace) : Prop where
  read : τ.read <+: τ'.read
  slots : τ.slots <+: τ'.slots

theorem Extends.refl (τ : Trace) : τ.Extends τ := ⟨List.prefix_rfl, List.prefix_rfl⟩

theorem Extends.trans (h : τ.Extends τ') (h' : τ'.Extends τ'') : τ.Extends τ'' :=
  ⟨h.read.trans h'.read, h.slots.trans h'.slots⟩

theorem Extends.records (h : τ.Extends τ') : τ.records <+: τ'.records := by
  obtain ⟨slots, hSlots⟩ := h.slots
  unfold Trace.records
  rw [← hSlots, List.reduceOption_append]
  exact List.prefix_append _ _

theorem Knows.mono (h : τ.Knows id) (hLater : τ.Extends τ') : τ'.Knows id := by
  obtain ⟨slots, hSlots⟩ := hLater.slots
  obtain ⟨hLt, -⟩ := List.getElem?_eq_some_iff.mp h
  unfold Knows
  rw [← hSlots, List.getElem?_append_left hLt]
  exact h

theorem Knows.lt (h : τ.Knows id) : id < τ.slots.length := (List.getElem?_eq_some_iff.mp h).1

/-- What the entities in front of the last one stand for. -/
theorem slot_of_append {i : EntityId} {last slot : Option Record} (hi : i ≠ τ.slots.length)
    (h : (τ.slots ++ [last])[i]? = some slot) : τ.slots[i]? = some slot := by
  obtain ⟨hLt, -⟩ := List.getElem?_eq_some_iff.mp h
  rw [List.length_append, List.length_singleton] at hLt
  rwa [List.getElem?_append_left (Tree.lt_of_lt_succ hLt hi)] at h

/-- The trace with one entity more. -/
def add (τ : Trace) : Trace := { τ with slots := τ.slots ++ [none] }

theorem extends_add (τ : Trace) : τ.Extends τ.add := ⟨List.prefix_rfl, List.prefix_append _ _⟩

theorem knows_add (τ : Trace) : τ.add.Knows τ.slots.length := by
  unfold Knows add
  rw [List.getElem?_append_right (Nat.le_refl _), Nat.sub_self]
  rfl

theorem records_add (τ : Trace) : τ.add.records = τ.records := by
  unfold records add
  rw [List.reduceOption_append]
  exact List.append_nil _

/-- The trace with directives that were recorded. -/
def record (τ : Trace) (records : List Record) : Trace :=
  { τ with slots := τ.slots ++ records.map some }

theorem extends_record (τ : Trace) (records : List Record) : τ.Extends (τ.record records) :=
  ⟨List.prefix_rfl, List.prefix_append _ _⟩

theorem records_record (τ : Trace) (records : List Record) :
    (τ.record records).records = τ.records ++ records := by
  have hAll : (records.map some).reduceOption = records := by
    induction records with
    | nil => rfl
    | cons r rs ih => rw [List.map_cons, List.reduceOption_cons_of_some, ih]
  unfold Trace.records record
  rw [List.reduceOption_append, hAll]

/-- The trace with a delivery that was read. -/
def deliver (τ : Trace) (d : Delivery) : Trace :=
  { τ.record d.gathered.records with read := τ.read ++ [d] }

theorem extends_deliver (τ : Trace) (d : Delivery) : τ.Extends (τ.deliver d) :=
  ⟨List.prefix_append _ _, List.prefix_append _ _⟩

end Trace

variable {S : Stream} {τ τ' : Trace} {p : Position}

/-! ## Places -/

/-- Whether a position lies on the first or on the last line of a token that was read. Nothing is
said about a stream without tokens. -/
def Stream.Places (S : Stream) (read : List Delivery) (p : Position) : Prop :=
  S.deliveries = [] ∨
    ∃ d ∈ read, p.line = d.token.span.first.line ∨ p.line = d.token.span.last.line

theorem Stream.Places.mono (h : S.Places τ.read p) (hLater : τ.Extends τ') : S.Places τ'.read p :=
  h.imp_right fun ⟨d, hd, hLine⟩ => ⟨d, hLater.read.subset hd, hLine⟩

/-- Whether all tokens of a list stand at places of tokens that were read. -/
def Stream.Holds (S : Stream) (read : List Delivery) (ts : List Token) : Prop :=
  ∀ t ∈ ts, S.Places read t.position

theorem Stream.Holds.mono {ts : List Token} (h : S.Holds τ.read ts) (hLater : τ.Extends τ') :
    S.Holds τ'.read ts := fun t ht => (h t ht).mono hLater

variable {read : List Delivery}

theorem Stream.holds_nil : S.Holds read [] := fun _ ht => absurd ht List.not_mem_nil

theorem Stream.holds_cons {t : Token} {ts : List Token} :
    S.Holds read (t :: ts) ↔ S.Places read t.position ∧ S.Holds read ts := List.forall_mem_cons

theorem Stream.Holds.append {ts us : List Token} (h : S.Holds read ts) (hus : S.Holds read us) :
    S.Holds read (ts ++ us) := List.forall_mem_append.mpr ⟨h, hus⟩

/-- Whether the tokens that a declaration keeps were read. -/
structure Declaration.Placed (S : Stream) (read : List Delivery) (d : Declaration) : Prop where
  dimensions : ∀ ts ∈ d.dimensions, S.Holds read ts
  assignment : S.Holds read d.assignment
  labels : ∀ ts ∈ d.labels, S.Holds read ts

theorem Declaration.Placed.mono {d : Declaration} (h : d.Placed S τ.read)
    (hLater : τ.Extends τ') : d.Placed S τ'.read :=
  ⟨fun ts hts => (h.dimensions ts hts).mono hLater, h.assignment.mono hLater,
    fun ts hts => (h.labels ts hts).mono hLater⟩

/-- Whether an entity, if it is a declaration, starts at a token that was read and keeps tokens
that were read. -/
def Entity.Placed (S : Stream) (read : List Delivery) (e : Entity) : Prop :=
  ∀ d, e.declaration? = some d → S.Places read e.span.first ∧ d.Placed S read

theorem Entity.Placed.mono {e : Entity} (h : e.Placed S τ.read) (hLater : τ.Extends τ') :
    e.Placed S τ'.read := fun d hd => ⟨(h d hd).1.mono hLater, (h d hd).2.mono hLater⟩

theorem Entity.Placed.congr {e e' : Entity} (h : e.Placed S read)
    (hData : e'.declaration? = e.declaration?) (hFirst : e'.span.first = e.span.first) :
    e'.Placed S read := by
  intro d hd
  rw [hFirst]
  exact h d (hData ▸ hd)

/-- An entity that is no declaration. -/
theorem Entity.placed_of_none {e : Entity} (h : e.declaration? = none) : e.Placed S read := by
  intro d hd
  rw [h] at hd
  cases hd

theorem Entity.Placed.mapDeclaration {e : Entity} (h : e.Placed S read)
    {f : Declaration → Declaration} (hf : ∀ d, d.Placed S read → (f d).Placed S read) :
    (e.mapDeclaration f).Placed S read := by
  unfold Entity.mapDeclaration
  cases hData : e.data with
  | declaration d =>
    intro d' hd'
    cases hd'
    obtain ⟨hFirst, hPlaced⟩ := h d (by rw [Entity.declaration?, hData])
    exact ⟨hFirst, hf d hPlaced⟩
  | root | definition | record => exact h

theorem Entity.Placed.mapDefinition {e : Entity} (h : e.Placed S read)
    (f : Definition → Definition) : (e.mapDefinition f).Placed S read := by
  unfold Entity.mapDefinition
  cases hData : e.data with
  | definition d => exact Entity.placed_of_none rfl
  | root | declaration | record => exact h

theorem Entity.span_attach (comments : List Token) (e : Entity) : (e.attach comments).span = e.span := by
  unfold attach
  dsimp only
  split <;> rfl

theorem Entity.Placed.attach {e : Entity} (h : e.Placed S read) (comments : List Token) :
    (e.attach comments).Placed S read := by
  refine h.congr ?_ (congrArg Span.first (e.span_attach comments))
  rw [Entity.annotates_attach comments e]
  rfl

/-! ## Trees -/

/-- Whether all declarations of a tree keep tokens that were read, the entities of recorded directives
are as these were recorded, and no other entity is one. What scopes lead to are other entities. -/
structure Tree.Placed (S : Stream) (τ : Trace) (t : Tree) : Prop where
  entity : ∀ i, (t.get i).Placed S τ.read
  size : t.size = τ.slots.length
  base : τ.Knows root
  record : ∀ i r, τ.slots[i]? = some (some r) → t.get i = r.entity
  plain : ∀ i, τ.Knows i → (t.get i).isRecord = false
  entry : ∀ s d k x, (t.scope s).get? d k = some x → τ.Knows x

namespace Tree.Placed

variable {t u : Tree} {id found : EntityId} {name : String} {forward listed : Bool}

/-- More may have been read. -/
theorem later (h : t.Placed S τ) {later : List Delivery} (hLater : τ.read <+: later) :
    t.Placed S { τ with read := later } where
  entity := fun i => (h.entity i).mono ⟨hLater, List.prefix_rfl⟩
  size := h.size
  base := h.base
  record := h.record
  plain := h.plain
  entry := h.entry

/-- A change that leaves recorded directives as they are and makes no other ones. -/
theorem modify (h : t.Placed S τ) (id : EntityId) {f : Entity → Entity}
    (hf : ∀ e, e.Placed S τ.read → (f e).Placed S τ.read)
    (hRecord : ∀ e, (f e).isRecord = e.isRecord)
    (hKept : ∀ r, τ.slots[id]? = some (some r) → f r.entity = r.entity) :
    (t.modify id f).Placed S τ where
  entity := by
    intro i
    rw [get_modify]
    split
    · exact hf _ (h.entity id)
    · exact h.entity i
  size := (size_modify _ _ _).trans h.size
  base := h.base
  record := by
    intro i r hi
    rw [get_modify]
    split
    · rename_i hSame
      rw [hSame.1] at hi
      rw [h.record id r hi]
      exact hKept r hi
    · exact h.record i r hi
  plain := fun i hi => (get_modify_congr Entity.isRecord hRecord i).trans (h.plain i hi)
  entry := h.entry

theorem modify_known (h : t.Placed S τ) (hId : τ.Knows id) {f : Entity → Entity}
    (hf : ∀ e, e.Placed S τ.read → (f e).Placed S τ.read)
    (hRecord : ∀ e, (f e).isRecord = e.isRecord) : (t.modify id f).Placed S τ := by
  refine h.modify id hf hRecord fun r hr => ?_
  rw [hId] at hr
  cases hr

/-- What has a scope is no recorded directive. -/
theorem slot_ne_of_scope (h : t.Placed S τ) {scope : ScopeId} (hScope : (t.get id).scope = some scope)
    (r : Record) : τ.slots[id]? ≠ some (some r) := by
  intro hr
  rw [h.record id r hr, Record.entity, (Entity.annotates_attach _ _).alike.scope] at hScope
  cases hScope

theorem addChild (h : t.Placed S τ) {parent : EntityId}
    (hParent : ∀ r, τ.slots[parent]? ≠ some (some r)) (id : EntityId) :
    (t.addChild parent id).Placed S τ :=
  h.modify parent (fun _ he => he.congr rfl rfl) (fun _ => rfl) fun r hr => absurd hr (hParent r)

theorem insertName (h : t.Placed S τ) (hId : τ.Knows id) (scope : ScopeId) (declaration : Bool)
    (key : String) : (t.insertName scope declaration key id).Placed S τ := by
  refine { h with entry := fun s d k x hEntry => ?_ }
  rcases get?_of_insertName hEntry with ⟨rfl, -⟩ | hOld
  · exact hId
  · exact h.entry s d k x hOld

theorem rename (h : t.Placed S τ) (hId : τ.Knows id) (name : String) :
    (t.rename id name).Placed S τ :=
  h.modify_known hId (fun _ he => he.congr rfl rfl) fun _ => rfl

/-- The entity that a name stands for is no recorded directive. -/
theorem enterName (h : t.Placed S τ) (hId : τ.Knows id) {parent : EntityId} {scope : ScopeId}
    (hParent : ∀ r, τ.slots[parent]? ≠ some (some r))
    (hEnter : t.enterName (parent, scope) id name forward listed = .ok (found, u)) :
    u.Placed S τ ∧ τ.Knows found := by
  have hList : ∀ {v : Tree}, v.Placed S τ →
      (if listed then v.addChild parent id else v).Placed S τ := by
    intro v hv
    split
    · exact hv.addChild hParent id
    · exact hv
  unfold Tree.enterName at hEnter
  obtain ⟨outcome, hOutcome, hEnter⟩ := IdlReader.bind_eq_ok.mp hEnter
  have hInserted := h.insertName hId scope (isDeclarationName (t.get id).kind) (t.key name)
  cases outcome with
  | fresh =>
    cases hEnter
    exact ⟨hList (hInserted.modify_known hId (fun _ he => he.congr rfl rfl) fun _ => rfl), hId⟩
  | repeated existing =>
    cases hEnter
    refine ⟨h.modify_known hId (fun _ he => he.congr rfl rfl) fun _ => rfl, ?_⟩
    rcases nameOutcome_eq_ok hOutcome with ⟨-, hFresh⟩ | ⟨x, hExisting, -, hCase⟩
    · cases hFresh
    · rcases hCase with ⟨-, hRepeated⟩ | ⟨-, -, hReopened⟩ | ⟨-, -, -, hCompleted⟩
      · cases hRepeated
        exact h.entry _ _ _ _ hExisting
      · cases hReopened
      · cases hCompleted
  | reopened shared =>
    cases hEnter
    exact ⟨hList (h.modify_known hId (fun _ he => he.congr rfl rfl) fun _ => rfl), hId⟩
  | completed =>
    cases hEnter
    exact ⟨hList hInserted, hId⟩

theorem setName (h : t.Placed S τ) (hId : τ.Knows id)
    (hSet : t.setName id name forward listed = .ok (found, u)) : u.Placed S τ ∧ τ.Knows found := by
  obtain ⟨parent, scope, -, hScope, -, hEnter⟩ := setName_eq_ok.mp hSet
  exact (h.rename hId name).enterName hId (h.slot_ne_of_scope hScope) hEnter

/-- An entity that is added is no recorded directive. -/
theorem add (h : t.Placed S τ) {parent : EntityId} {kind : EntityKind} {source : SourceId}
    {span : Span} {data : EntityData} (hPlain : data.isRecord = false)
    (hNew : ∀ d, data = .declaration d → S.Places τ.read span.first ∧ d.Placed S τ.read)
    (hAdd : t.add parent kind source span data = .ok (id, u)) :
    u.Placed S τ.add ∧ τ.add.Knows id := by
  obtain ⟨-, rfl, hSize, -, hScopes, hGet⟩ := add_eq_ok hAdd
  have hExtends := τ.extends_add
  have hSelf : τ.add.Knows t.size := h.size ▸ τ.knows_add
  have hOld : ∀ {i x}, i ≠ t.size → τ.add.slots[i]? = some x → τ.slots[i]? = some x :=
    fun hNe hi => Trace.slot_of_append (h.size ▸ hNe) hi
  refine ⟨⟨fun i => ?_, ?_, h.base.mono hExtends, fun i r hi => ?_, fun i hi => ?_,
    fun s d k x hEntry => ?_⟩, hSelf⟩
  · rw [hGet]
    split
    · intro d hd
      refine hNew d ?_
      unfold Entity.declaration? at hd
      cases data <;> cases hd
      rfl
    · exact h.entity i
  · rw [hSize, h.size, Trace.add, List.length_append]
    rfl
  · by_cases hi' : i = t.size
    · rw [hi'] at hi
      exact absurd (hSelf.symm.trans hi) nofun
    · rw [hGet, if_neg hi']
      exact h.record i r (hOld hi' hi)
  · rw [hGet]
    split
    · exact hPlain
    · exact h.plain i (hOld ‹_› hi)
  · refine (h.entry s d k x ?_).mono hExtends
    rw [← hEntry, scope_add hAdd]

/-- A directive that is recorded has the entity that was added last. -/
theorem addRecord (h : t.Placed S τ) (r : Record) : (t.addRecords [r]).Placed S (τ.record [r]) := by
  have hExtends := τ.extends_record [r]
  have hPos : 0 < t.size := h.size ▸ h.base.lt
  have hSelf : (t.addRecords [r]).get t.size = r.entity := get_addRecords_singleton_self hPos r
  have hOld : ∀ i, i ≠ t.size → (t.addRecords [r]).get i = (t.modify root (listing t.size)).get i := by
    intro i hi
    rw [addRecords_singleton, id_addRecord, get_modify_of_ne hi, get_addRecord hPos, if_neg hi,
      get_modify]
    split
    · rename_i hRoot
      rw [if_pos ⟨hRoot, hPos⟩]
    · rename_i hRoot
      rw [if_neg fun hBoth => hRoot hBoth.1]
  have hListed : (t.modify root (listing t.size)).Placed S τ := by
    refine h.modify_known h.base (fun e he => ?_) (isRecord_listing t.size)
    refine he.congr (declaration?_listing t.size e) ?_
    unfold listing
    split <;> rfl
  have hSlots : ∀ {i x}, i ≠ t.size → (τ.record [r]).slots[i]? = some x → τ.slots[i]? = some x :=
    fun hNe hi => Trace.slot_of_append (h.size ▸ hNe) hi
  have hSlot : (τ.record [r]).slots[t.size]? = some (some r) := by
    unfold Trace.record
    rw [h.size, List.getElem?_append_right (Nat.le_refl _), Nat.sub_self]
    rfl
  refine ⟨fun i => ?_, ?_, h.base.mono hExtends, fun i r' hi => ?_, fun i hi => ?_,
    fun s d k x hEntry => (h.entry s d k x hEntry).mono hExtends⟩
  · by_cases hi : i = t.size
    · rw [hi, hSelf]
      exact (Entity.placed_of_none rfl).attach _
    · rw [hOld i hi]
      exact hListed.entity i
  · rw [size_addRecords_singleton, h.size, Trace.record, List.length_append]
    rfl
  · by_cases hi' : i = t.size
    · rw [hi', hSlot] at hi
      cases hi
      rw [hi', hSelf]
    · rw [hOld i hi']
      exact hListed.record i r' (hSlots hi' hi)
  · by_cases hi' : i = t.size
    · rw [hi'] at hi
      exact absurd (hSlot.symm.trans hi) nofun
    · rw [hOld i hi']
      exact hListed.plain i (hSlots hi' hi)

theorem addRecords (h : t.Placed S τ) (records : List Record) :
    (t.addRecords records).Placed S (τ.record records) := by
  induction records generalizing t τ with
  | nil =>
    have hNone : τ.record [] = τ := by
      unfold Trace.record
      rw [List.map_nil, List.append_nil]
    rw [hNone]
    exact h
  | cons r rs ih =>
    have hSplit : τ.record (r :: rs) = (τ.record [r]).record rs := by
      unfold Trace.record
      rw [List.append_assoc]
      rfl
    rw [hSplit]
    exact ih (h.addRecord r)

/-- What the recorded directives of a tree are, in the order of their entities. -/
theorem map_get (h : t.Placed S τ) :
    ((List.range t.size).filter fun i => (t.get i).isRecord).map t.get =
      τ.records.map Record.entity := by
  have hSlots : ∀ slots : List (Option Record), slots <+: τ.slots →
      ((List.range slots.length).filter fun i => (t.get i).isRecord).map t.get =
        slots.reduceOption.map Record.entity := by
    intro slots
    induction slots using List.reverseRecOn with
    | nil => exact fun _ => rfl
    | append_singleton slots slot ih =>
      intro hPrefix
      obtain ⟨rest, hRest⟩ := hPrefix
      have hSlot : τ.slots[slots.length]? = some slot := by
        rw [← hRest, List.append_assoc, List.getElem?_append_right (Nat.le_refl _), Nat.sub_self]
        rfl
      rw [List.length_append, List.length_singleton, List.range_succ, List.filter_append,
        List.map_append, ih ((List.prefix_append _ _).trans ⟨rest, hRest⟩),
        List.reduceOption_append, List.map_append]
      congr 1
      cases slot with
      | none => rw [List.filter_singleton, h.plain _ hSlot]; rfl
      | some r =>
        have hGet := h.record _ r hSlot
        have hSelf : (t.get slots.length).isRecord = true := by
          rw [hGet, Entity.isRecord, r.data_entity]
          rfl
        rw [List.filter_singleton, hSelf]
        exact congrArg (fun e => [e]) hGet
  rw [h.size]
  exact hSlots τ.slots List.prefix_rfl

end Tree.Placed

end IdlReader
