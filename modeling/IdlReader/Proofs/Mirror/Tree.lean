import IdlReader.Proofs.Tree.Registry
import Mathlib.Data.List.Forall2

/-!
# Mirrored trees

Two readers may give the same entities under different numbers: what one of them reads on the way
gets numbers too, and moves those of everything that follows. A `Mirror` says which entity of the
one tree stands for which of the other one. Mirrored entities have the same names and the same
place, and refer to mirrored entities; tokens have the same kind and text. The mirror is exact if
positions and comments agree as well.

* `Tree.Mirrors.modify`, `Tree.Mirrors.add`, `Tree.Mirrors.addRecords`: mirrored changes of
  mirrored trees.
-/

namespace IdlReader

/-- How the entities and scopes of one tree are numbered in another one. -/
structure Mirror where
  entity : EntityId → EntityId
  scope : ScopeId → ScopeId
  /-- What the other tree has besides the mirrored entities. -/
  other : EntityId → Entity
  /-- Whether positions and comments agree. -/
  exact : Prop
  /-- Whether both readers have the same tokens to come. -/
  reading : Prop
  /-- Where an entity may end in the other tree. -/
  ends : EntityId → Position → Position → Prop
  ends_refl : ∀ i p, ends i p p
  entity_root : entity Tree.root = Tree.root
  entity_injective : Function.Injective entity
  scope_injective : Function.Injective scope

variable {M : Mirror}

/-! ## Tokens -/

/-- Whether a token stands for another one. -/
structure Token.Mirrors (M : Mirror) (t t' : Token) : Prop where
  kind : t'.kind = t.kind
  text : t'.text = t.text
  exact : M.exact → t' = t

/-- Whether a token that the one reader meets is met by the other one. Words among them are
names. -/
structure Token.Meets (M : Mirror) (t t' : Token) : Prop extends Token.Mirrors M t t' where
  lexical : t.Lexical

/-- Tokens that mirror each other one by one. -/
abbrev Mirror.Tokens (M : Mirror) : List Token → List Token → Prop :=
  List.Forall₂ (Token.Mirrors M)

namespace Token.Mirrors

variable {t t' : Token}

theorem refl (t : Token) : t.Mirrors M t := ⟨rfl, rfl, fun _ => rfl⟩

theorem isIdentifier (h : t.Mirrors M t') : t'.isIdentifier = t.isIdentifier := by
  unfold Token.isIdentifier
  rw [h.kind]

theorem isKeyword (h : t.Mirrors M t') : t'.isKeyword = t.isKeyword := by
  unfold Token.isKeyword
  rw [h.kind]

theorem isWord (h : t.Mirrors M t') : t'.isWord = t.isWord := by
  unfold Token.isWord
  rw [h.isIdentifier, h.isKeyword]

theorem isFinish (h : t.Mirrors M t') : t'.isFinish = t.isFinish := by
  unfold Token.isFinish
  rw [h.kind]

theorem is (h : t.Mirrors M t') (text : String) : t'.is text = t.is text := by
  unfold Token.is Token.isPlain
  rw [h.kind, h.text]

theorem isOneOf (h : t.Mirrors M t') (texts : List String) : t'.isOneOf texts = t.isOneOf texts :=
  congrArg texts.any (funext h.is)

end Token.Mirrors

theorem Token.Meets.refl {t : Token} (h : t.Lexical) : t.Meets M t := ⟨.refl t, h⟩

theorem Mirror.Tokens.refl (ts : List Token) : M.Tokens ts ts := by
  induction ts with
  | nil => exact .nil
  | cons t ts ih => exact .cons (.refl t) ih

/-! ## Types -/

mutual

/-- A type with other numbers for the entities that it names. -/
def DeclaredType.renumber (f : EntityId → EntityId) : DeclaredType → DeclaredType
  | ⟨base, text, definition, length, decimals, key, value⟩ =>
    ⟨base, text, definition.map f, length, decimals, renumberPart f key, renumberPart f value⟩

/-- A part of a type with other numbers for the entities that it names, if there is one. -/
def DeclaredType.renumberPart (f : EntityId → EntityId) : Option DeclaredType → Option DeclaredType
  | none => none
  | some type => some (type.renumber f)

end

namespace DeclaredType

variable {f : EntityId → EntityId}

@[simp] theorem base_renumber (type : DeclaredType) : (type.renumber f).base = type.base := by
  cases type
  rfl

@[simp] theorem text_renumber (type : DeclaredType) : (type.renumber f).text = type.text := by
  cases type
  rfl

@[simp] theorem definition_renumber (type : DeclaredType) :
    (type.renumber f).definition = type.definition.map f := by
  cases type
  rfl

@[simp] theorem kind?_renumber (type : DeclaredType) : (type.renumber f).kind? = type.kind? := by
  unfold kind?
  rw [base_renumber]

theorem renumber_plain (base : BaseType) (text : String) (length decimals : Nat) :
    renumber f { base, text, length, decimals } = { base, text, length, decimals } := rfl

end DeclaredType

/-! ## Entities -/

/-- A definition with other numbers for the entities that it refers to. -/
def Definition.renumber (f : EntityId → EntityId) (d : Definition) : Definition :=
  { d with bases := d.bases.map f, switchType := d.switchType.map (DeclaredType.renumber f) }

/-- Whether a declaration stands for another one. -/
structure Declaration.Mirrors (M : Mirror) (d d' : Declaration) : Prop where
  type : d'.type = d.type.renumber M.entity
  dimensions : List.Forall₂ M.Tokens d.dimensions d'.dimensions
  sizes : d'.sizes = d.sizes
  assignment : M.Tokens d.assignment d'.assignment
  value : d'.value = d.value
  readonly : d'.readonly = d.readonly
  direction : d'.direction = d.direction
  constOperation : d'.constOperation = d.constOperation
  parameters : d'.parameters = d.parameters.map M.entity
  raises : d'.raises = d.raises.map M.entity
  getRaises : d'.getRaises = d.getRaises.map M.entity
  setRaises : d'.setRaises = d.setRaises.map M.entity
  labels : List.Forall₂ M.Tokens d.labels d'.labels
  caseValues : d'.caseValues = d.caseValues
  defaultCase : d'.defaultCase = d.defaultCase
  progress : d'.progress = d.progress

/-- Whether what an entity has besides what all have stands for that of another one. -/
inductive EntityData.Mirrors (M : Mirror) : EntityData → EntityData → Prop where
  | root (records : List EntityId) : Mirrors M (.root records) (.root (records.map M.entity))
  | definition (d : Definition) : Mirrors M (.definition d) (.definition (d.renumber M.entity))
  | declaration {d d' : Declaration} (h : d.Mirrors M d') :
      Mirrors M (.declaration d) (.declaration d')
  | record (kind : RecordKind) (content : String) :
      Mirrors M (.record kind content) (.record kind content)

/-- Whether an entity of one tree, of which `id` is the number, stands for one of the other
tree. -/
structure Entity.Mirrors (M : Mirror) (id : EntityId) (e e' : Entity) : Prop where
  kind : e'.kind = e.kind
  name : e'.name = e.name
  parent : e'.parent = e.parent.map M.entity
  children : e'.children = e.children.map M.entity
  scope : e'.scope = e.scope.map M.scope
  forward : e'.forward = e.forward
  anonymous : e'.anonymous = e.anonymous
  data : e.data.Mirrors M e'.data
  source : M.exact → e'.source = e.source
  first : M.exact → e'.span.first = e.span.first
  last : M.exact → M.ends id e.span.last e'.span.last
  comments : M.exact → e'.comments = e.comments
  commentFlags : M.exact → e'.commentFlags = e.commentFlags

namespace Entity.Mirrors

variable {id : EntityId} {e e' : Entity}

theorem definition? (h : e.Mirrors M id e') :
    e'.definition? = e.definition?.map (Definition.renumber M.entity) := by
  have hData := h.data
  unfold Entity.definition?
  cases hd : e.data <;> rw [hd] at hData <;> generalize e'.data = data' at hData <;>
    cases hData <;> rfl

theorem declaration?_none (h : e.Mirrors M id e') (hd : e.declaration? = none) :
    e'.declaration? = none := by
  have hData := h.data
  unfold Entity.declaration? at hd ⊢
  cases he : e.data <;> rw [he] at hData hd <;> generalize e'.data = data' at hData <;>
    cases hData <;> first | rfl | cases hd

theorem declaration? (h : e.Mirrors M id e') {d : Declaration} (hd : e.declaration? = some d) :
    ∃ d', e'.declaration? = some d' ∧ d.Mirrors M d' := by
  have hData := h.data
  unfold Entity.declaration? at hd ⊢
  cases he : e.data with
  | declaration d₀ =>
    rw [he] at hData hd
    cases hd
    generalize e'.data = data' at hData
    cases hData with
    | declaration hMirrors => exact ⟨_, rfl, hMirrors⟩
  | root | definition | record =>
    rw [he] at hd
    cases hd

/-- Changes of the same kind in the data of mirrored declarations. -/
theorem mapDeclaration (h : e.Mirrors M id e') {f f' : Declaration → Declaration}
    (hf : ∀ d d', d.Mirrors M d' → (f d).Mirrors M (f' d')) :
    (e.mapDeclaration f).Mirrors M id (e'.mapDeclaration f') := by
  have hData := h.data
  unfold Entity.mapDeclaration
  cases he : e.data <;> rw [he] at hData <;> cases he' : e'.data <;> rw [he'] at hData <;>
    cases hData <;> first
      | exact h
      | exact { h with data := .declaration (hf _ _ ‹_›) }

/-- Changes of the same kind in the data of mirrored definitions. -/
theorem mapDefinition (h : e.Mirrors M id e') {f f' : Definition → Definition}
    (hf : ∀ d, f' (d.renumber M.entity) = (f d).renumber M.entity) :
    (e.mapDefinition f).Mirrors M id (e'.mapDefinition f') := by
  have hData := h.data
  have hDefinition (d : Definition) :
      EntityData.Mirrors M (.definition (f d)) (.definition (f' (d.renumber M.entity))) := by
    rw [hf]
    exact .definition _
  unfold Entity.mapDefinition
  cases he : e.data <;> rw [he] at hData <;> cases he' : e'.data <;> rw [he'] at hData <;>
    cases hData <;> first
      | exact h
      | exact { h with data := hDefinition _ }

/-- The root with one more recorded directive. -/
theorem listing (h : e.Mirrors M id e') (record : EntityId) :
    (Tree.listing record e).Mirrors M id (Tree.listing (M.entity record) e') := by
  have hData := h.data
  have hRoot (records : List EntityId) : EntityData.Mirrors M (.root (records ++ [record]))
      (.root (records.map M.entity ++ [M.entity record])) := by
    rw [← List.map_singleton, ← List.map_append]
    exact .root _
  unfold Tree.listing
  cases he : e.data <;> rw [he] at hData <;> cases he' : e'.data <;> rw [he'] at hData <;>
    cases hData <;> first
      | exact h
      | exact { h with data := hRoot _ }

theorem annotate (h : e.Mirrors M id e') {comments comments' : String}
    {flags flags' : Comment.Flags} (hComments : M.exact → comments' = comments ∧ flags' = flags) :
    Entity.Mirrors M id { e with comments, commentFlags := flags }
      { e' with comments := comments', commentFlags := flags' } :=
  { h with
    comments := fun hExact => (hComments hExact).1
    commentFlags := fun hExact => (hComments hExact).2 }

/-- The text of comments. -/
theorem attach (h : e.Mirrors M id e') {comments comments' : List Token}
    (hComments : M.exact → comments' = comments) :
    (e.attach comments).Mirrors M id (e'.attach comments') := by
  have hParts (a : Entity) (cs : List Token) : a.attach cs =
      { a with comments := (a.attach cs).comments, commentFlags := (a.attach cs).commentFlags } := by
    unfold Entity.attach
    dsimp only
    split <;> rfl
  rw [hParts, hParts e']
  refine h.annotate fun hExact => ?_
  unfold Entity.attach
  rw [hComments hExact, h.commentFlags hExact]
  dsimp only
  split
  · exact ⟨h.comments hExact, h.commentFlags hExact⟩
  · exact ⟨rfl, rfl⟩

end Entity.Mirrors

/-! ## Trees -/

theorem Tree.scope_insertName_of_le {t : Tree} {s : ScopeId} (h : ¬ s < t.scopes.size)
    (declaration : Bool) (key : String) (id : EntityId) (j : ScopeId) :
    (t.insertName s declaration key id).scope j = t.scope j := by
  unfold scope insertName
  simp only [Array.getElem?_modify]
  by_cases hEq : s = j
  · rw [if_pos hEq, ← hEq, Array.getElem?_eq_none (Nat.le_of_not_lt h)]
    rfl
  · rw [if_neg hEq]

/-- Whether the entities of a tree stand for those of another one, and so do all that will be
added. -/
structure Tree.Mirrors (M : Mirror) (t t' : Tree) : Prop where
  caseSensitive : t'.caseSensitive = t.caseSensitive
  entity : ∀ i, (t.get i).Mirrors M i (t'.get (M.entity i))
  scope : ∀ j declaration key, (t'.scope (M.scope j)).get? declaration key =
    ((t.scope j).get? declaration key).map M.entity
  other : ∀ i', (∀ i, M.entity i ≠ i') → t'.get i' = M.other i'
  unentered : ∀ j', (∀ j, M.scope j ≠ j') → ∀ declaration key,
    (t'.scope j').get? declaration key = none
  size : t.size ≤ t'.size
  below : ∀ i, i < t.size → M.entity i < t'.size
  next : ∀ j, M.entity (t.size + j) = t'.size + j
  scopesBelow : ∀ j, j < t.scopes.size → M.scope j < t'.scopes.size
  scopesNext : ∀ j, M.scope (t.scopes.size + j) = t'.scopes.size + j

namespace Tree.Mirrors

variable {t t' : Tree}

theorem key (h : t.Mirrors M t') (name : String) : t'.key name = t.key name :=
  key_eq_of_caseSensitive h.caseSensitive name

theorem lt_iff (h : t.Mirrors M t') (i : EntityId) : M.entity i < t'.size ↔ i < t.size := by
  refine ⟨fun hLt => ?_, h.below i⟩
  refine Decidable.byContradiction fun hLe => ?_
  obtain ⟨j, rfl⟩ := Nat.exists_eq_add_of_le (Nat.le_of_not_lt hLe)
  rw [h.next j] at hLt
  exact absurd hLt (Nat.not_lt.mpr (Nat.le_add_right _ _))

theorem scopes_lt_iff (h : t.Mirrors M t') (j : ScopeId) :
    M.scope j < t'.scopes.size ↔ j < t.scopes.size := by
  refine ⟨fun hLt => ?_, h.scopesBelow j⟩
  refine Decidable.byContradiction fun hLe => ?_
  obtain ⟨k, rfl⟩ := Nat.exists_eq_add_of_le (Nat.le_of_not_lt hLe)
  rw [h.scopesNext k] at hLt
  exact absurd hLt (Nat.not_lt.mpr (Nat.le_add_right _ _))

theorem entity_size (h : t.Mirrors M t') : M.entity t.size = t'.size := h.next 0

theorem scope_size (h : t.Mirrors M t') : M.scope t.scopes.size = t'.scopes.size := h.scopesNext 0

/-- The parameters of an operation. -/
theorem parameters (h : t.Mirrors M t') (id : EntityId) :
    t'.parameters (M.entity id) = (t.parameters id).map M.entity := by
  unfold Tree.parameters
  cases hd : (t.get id).declaration? with
  | none =>
    rw [(h.entity id).declaration?_none hd]
    rfl
  | some d =>
    obtain ⟨d', hd', hMirrors⟩ := (h.entity id).declaration? hd
    rw [hd']
    exact hMirrors.parameters

/-- The children of certain kinds. -/
theorem filter_kind (h : t.Mirrors M t') (p : EntityKind → Bool) (ids : List EntityId) :
    (ids.map M.entity).filter (fun i => p (t'.get i).kind) =
      (ids.filter fun i => p (t.get i).kind).map M.entity := by
  rw [List.filter_map]
  refine congrArg (List.map M.entity) (List.filter_congr fun i _ => ?_)
  exact congrArg p (h.entity i).kind

/-! ### Changes -/

theorem modify (h : t.Mirrors M t') (id : EntityId) {f f' : Entity → Entity}
    (hf : (t.get id).Mirrors M id (t'.get (M.entity id)) →
      (f (t.get id)).Mirrors M id (f' (t'.get (M.entity id)))) :
    (t.modify id f).Mirrors M (t'.modify (M.entity id) f') where
  caseSensitive := h.caseSensitive
  entity := by
    intro i
    rw [get_modify, get_modify]
    by_cases hi : i = id ∧ id < t.size
    · rw [if_pos hi, if_pos ⟨congrArg M.entity hi.1, h.below id hi.2⟩, hi.1]
      exact hf (h.entity id)
    · rw [if_neg hi, if_neg fun hi' => hi ⟨M.entity_injective hi'.1, (h.lt_iff id).mp hi'.2⟩]
      exact h.entity i
  scope := h.scope
  other := fun i' hi' => by
    rw [get_modify_of_ne fun hEq => hi' id hEq.symm]
    exact h.other i' hi'
  unentered := h.unentered
  size := by
    rw [size_modify, size_modify]
    exact h.size
  below := fun i hi => by
    rw [size_modify] at hi ⊢
    exact h.below i hi
  next := fun j => by
    rw [size_modify, size_modify]
    exact h.next j
  scopesBelow := h.scopesBelow
  scopesNext := h.scopesNext

theorem insertName (h : t.Mirrors M t') (s : ScopeId) (declaration : Bool) (key : String)
    (id : EntityId) :
    (t.insertName s declaration key id).Mirrors M
      (t'.insertName (M.scope s) declaration key (M.entity id)) where
  caseSensitive := h.caseSensitive
  entity := h.entity
  scope := by
    intro j declaration' key'
    by_cases hs : s < t.scopes.size
    · rw [scope_insertName hs, scope_insertName (h.scopesBelow s hs)]
      by_cases hj : j = s
      · rw [if_pos hj, if_pos (congrArg M.scope hj), Scope.get?_insert, Scope.get?_insert, h.scope s]
        split <;> rfl
      · rw [if_neg hj, if_neg fun hEq => hj (M.scope_injective hEq)]
        exact h.scope j declaration' key'
    · have hs' : ¬ M.scope s < t'.scopes.size := fun hLt => hs ((h.scopes_lt_iff s).mp hLt)
      rw [scope_insertName_of_le hs, scope_insertName_of_le hs']
      exact h.scope j declaration' key'
  other := h.other
  unentered := by
    intro j' hj' declaration' key'
    have hSame : (t'.insertName (M.scope s) declaration key (M.entity id)).scope j' = t'.scope j' := by
      by_cases hs : M.scope s < t'.scopes.size
      · rw [scope_insertName hs, if_neg fun hEq => hj' s hEq.symm]
      · exact scope_insertName_of_le hs _ _ _ _
    rw [hSame]
    exact h.unentered j' hj' declaration' key'
  size := h.size
  below := h.below
  next := h.next
  scopesBelow := fun j hj => by
    unfold Tree.insertName at hj ⊢
    rw [Array.size_modify] at hj ⊢
    exact h.scopesBelow j hj
  scopesNext := fun j => by
    unfold Tree.insertName
    rw [Array.size_modify, Array.size_modify]
    exact h.scopesNext j

/-- One more entity in both trees, and a scope for it if `opens`. -/
theorem push (h : t.Mirrors M t') {e e' : Entity} (he : e.Mirrors M t.size e') (opens : Bool) :
    (⟨t.entities.push e, if opens then t.scopes.push {} else t.scopes, t.caseSensitive⟩ :
        Tree).Mirrors M
      ⟨t'.entities.push e', if opens then t'.scopes.push {} else t'.scopes, t'.caseSensitive⟩ := by
  have hSize (u : Tree) (a : Entity) (scopes : Array Scope) (b : Bool) :
      (⟨u.entities.push a, scopes, b⟩ : Tree).size = u.size + 1 := by
    rw [Tree.size, Array.size_push]
    rfl
  have hScope (u : Tree) (a : Entity) (j : ScopeId) :
      (⟨u.entities.push a, if opens then u.scopes.push {} else u.scopes, u.caseSensitive⟩ :
        Tree).scope j = u.scope j := by
    cases opens with
    | false => rfl
    | true => exact scope_of_push rfl j
  refine ⟨h.caseSensitive, ?_, ?_, ?_, ?_, ?_, ?_, ?_, ?_, ?_⟩
  · intro i
    rw [get_push, get_push]
    by_cases hi : i = t.size
    · rw [if_pos hi, if_pos (hi ▸ h.entity_size), hi]
      exact he
    · rw [if_neg hi, if_neg fun hEq => hi (M.entity_injective (hEq.trans h.entity_size.symm))]
      exact h.entity i
  · intro j declaration key
    rw [hScope, hScope]
    exact h.scope j declaration key
  · intro i' hi'
    rw [get_push, if_neg fun hEq => hi' t.size (h.entity_size.trans hEq.symm)]
    exact h.other i' hi'
  · intro j' hj' declaration key
    rw [hScope]
    exact h.unentered j' hj' declaration key
  · rw [hSize, hSize]
    exact Nat.succ_le_succ h.size
  · intro i hi
    rw [hSize] at hi ⊢
    by_cases hEq : i = t.size
    · rw [hEq, h.entity_size]
      exact Nat.lt_succ_self _
    · exact Nat.lt_succ_of_lt (h.below i (lt_of_lt_succ hi hEq))
  · intro j
    rw [hSize, hSize, Nat.add_assoc, h.next, Nat.add_assoc]
  · intro j hj
    cases opens with
    | false => exact h.scopesBelow j hj
    | true =>
      rw [if_pos rfl, Array.size_push] at hj ⊢
      by_cases hEq : j = t.scopes.size
      · rw [hEq, h.scope_size]
        exact Nat.lt_succ_self _
      · exact Nat.lt_succ_of_lt (h.scopesBelow j (lt_of_lt_succ hj hEq))
  · intro j
    cases opens with
    | false => exact h.scopesNext j
    | true =>
      rw [if_pos rfl, if_pos rfl, Array.size_push, Array.size_push, Nat.add_assoc, h.scopesNext,
        Nat.add_assoc]

/-- Adding an entity to both trees. -/
theorem add (h : t.Mirrors M t') {parent id : EntityId} {kind : EntityKind}
    {source source' : SourceId} {span span' : Span} {data data' : EntityData} {u : Tree}
    (hAdd : t.add parent kind source span data = .ok (id, u)) (hData : data.Mirrors M data')
    (hSource : M.exact → source' = source) (hSpan : M.exact → span' = span) :
    ∃ u', t'.add (M.entity parent) kind source' span' data' = .ok (M.entity id, u') ∧
      u.Mirrors M u' := by
  unfold Tree.add at hAdd ⊢
  dsimp only at hAdd ⊢
  rw [(h.entity parent).kind]
  cases hSupports : (t.get parent).kind.supportsChildren with
  | false =>
    rw [hSupports] at hAdd
    cases hAdd
  | true =>
    rw [hSupports] at hAdd
    cases hAdd
    rw [h.entity_size]
    refine ⟨_, rfl, h.push ?_ _⟩
    refine
      { kind := rfl, name := rfl, parent := rfl, children := rfl, scope := ?_, forward := rfl
        anonymous := rfl, data := hData, source := hSource
        first := fun hExact => congrArg Span.first (hSpan hExact)
        last := fun hExact => by
          rw [hSpan hExact]
          exact M.ends_refl _ _
        comments := fun _ => rfl, commentFlags := fun _ => rfl }
    dsimp only
    split
    · exact (congrArg some h.scope_size).symm
    · rfl

/-- Recording a directive in both trees. -/
theorem addRecord (h : t.Mirrors M t') (r : Record) :
    (t'.addRecord r).1 = M.entity (t.addRecord r).1 ∧
      (t.addRecord r).2.Mirrors M (t'.addRecord r).2 := by
  have hRecorded : (recorded r).Mirrors M t.size (recorded r) :=
    ⟨rfl, rfl, congrArg some M.entity_root.symm, rfl, rfl, rfl, rfl, .record _ _, fun _ => rfl,
      fun _ => rfl, fun _ => M.ends_refl _ _, fun _ => rfl, fun _ => rfl⟩
  refine ⟨h.entity_size.symm, ?_⟩
  rw [addRecord_eq, addRecord_eq]
  have hListing := (h.push hRecorded false).modify root fun hRoot => hRoot.listing t.size
  rw [M.entity_root, h.entity_size] at hListing
  exact hListing

/-- Recording directives in both trees. -/
theorem addRecords (h : t.Mirrors M t') (records : List Record) :
    (t.addRecords records).Mirrors M (t'.addRecords records) := by
  induction records generalizing t t' with
  | nil => exact h
  | cons r rs ih =>
    obtain ⟨hId, hAdded⟩ := h.addRecord r
    refine ih ?_
    dsimp only
    rw [hId]
    exact hAdded.modify _ fun hEntity => hEntity.attach fun _ => rfl

end Tree.Mirrors

end IdlReader
