import IdlReader.Grammar.Member
import IdlReader.Proofs.Tree.Outline
import IdlReader.Proofs.Tree.Registry

/-!
# Written and generated names

A generated name is a stem with a number behind it. It is spelled in lower case, so that it is its
own key, and its stem and its number can be read off it.

In a tree whose names were either written or generated, what stands in the way of a name that was
generated last is a word of the source.

* `generatedName_inj`, `Tree.key_of_isGenerated`: what generated names look like.
* `Tree.refuses_of_namePlace`, `Tree.refuses_of_enterName`: what a name is refused for.
* `Tree.Lists.clash`: what a generated name is refused for, and a written one.
* `Tree.Lists.setName`: a name that is given.
-/

namespace IdlReader

/-! ## Generated names -/

/-- The stems that numbers are put behind. -/
def stems : List String := ["struct", "union", "enum", "var", "case"]

theorem EntityKind.stem_mem_stems {kind : EntityKind} (h : kind.mayBeUnnamed = true) :
    kind.stem ∈ stems := by
  cases kind <;> first | decide | cases h

/-- The name with a stem and a number. -/
def generatedName (stem : String) (n : Nat) : String := stem ++ "_" ++ toString n

/-- Whether a name is made of a stem and a number. -/
def IsGenerated (name : String) : Prop := ∃ stem ∈ stems, ∃ n, name = generatedName stem n

theorem toList_generatedName (stem : String) (n : Nat) :
    (generatedName stem n).toList = stem.toList ++ '_' :: (toString n).toList := by
  unfold generatedName
  rw [String.toList_append, String.toList_append, List.append_assoc]
  rfl

theorem IsGenerated.line_mem {name : String} (h : IsGenerated name) : '_' ∈ name.toList := by
  obtain ⟨stem, -, n, rfl⟩ := h
  rw [toList_generatedName]
  exact List.mem_append_right _ List.mem_cons_self

/-- A generated name has one stem and one number. -/
theorem generatedName_inj {stem stem' : String} (hStem : stem ∈ stems) (hStem' : stem' ∈ stems)
    {n n' : Nat} (h : generatedName stem n = generatedName stem' n') : stem = stem' ∧ n = n' := by
  have hStems : ∀ s ∈ stems, '_' ∉ s.toList := by decide
  have hPlain : ∀ s ∈ stems, ∀ c ∈ s.toList, (c != '_') = true :=
    fun s hs c hc => bne_iff_ne.mpr (ne_of_mem_of_not_mem hc (hStems s hs))
  have hLists := congrArg String.toList h
  rw [toList_generatedName, toList_generatedName] at hLists
  have hTake := congrArg (List.takeWhile (· != '_')) hLists
  rw [List.takeWhile_append_of_pos (hPlain stem hStem),
    List.takeWhile_append_of_pos (hPlain stem' hStem')] at hTake
  have hSame : stem = stem' := by
    rw [← String.toList_inj]
    simpa using hTake
  subst hSame
  have hDigits := (List.cons.inj (List.append_cancel_left hLists)).2
  have hNumbers := congrArg (fun digits => Nat.ofDigitChars 10 digits 0) hDigits
  exact ⟨rfl, by simpa [Nat.toString_eq_ofList_toDigits] using hNumbers⟩

namespace Tree

theorem lowerCase_of_isDigit {c : Char} (h : c.isDigit = true) : lowerCase c = c := by
  have hBounds : '0'.val ≤ c.val ∧ c.val ≤ '9'.val := by simpa [Char.isDigit] using h
  have hAbove : c.val.toNat ≤ 57 := UInt32.le_iff_toNat_le.mp hBounds.2
  have hSign : c.toNat ≠ 0x212A := by
    unfold Char.toNat
    omega
  have hCapital : ¬ (c.val ≥ 'A'.val ∧ c.val ≤ 'Z'.val) := by
    intro hBetween
    have hBelow : 65 ≤ c.val.toNat := UInt32.le_iff_toNat_le.mp hBetween.1
    omega
  unfold lowerCase Char.toLower
  rw [if_neg hSign, dif_neg hCapital]

/-- Generated names are spelled in lower case. -/
theorem key_of_isGenerated (t : Tree) {name : String} (h : IsGenerated name) :
    t.key name = name := by
  have hStems : ∀ s ∈ stems, s.toList.map lowerCase = s.toList.map id := by decide
  obtain ⟨stem, hStem, n, rfl⟩ := h
  unfold key
  split
  · rfl
  · rw [← String.toList_inj, String.toList_ofList, toList_generatedName]
    refine (List.map_congr_left fun c hc => ?_).trans (List.map_id _)
    rcases List.mem_append.mp hc with hc | hc
    · exact List.map_inj_left.mp (hStems stem hStem) c hc
    · rcases List.mem_cons.mp hc with rfl | hc
      · decide
      · rw [Nat.toString_eq_ofList_toDigits, String.toList_ofList] at hc
        exact lowerCase_of_isDigit (Nat.isDigit_of_mem_toDigits (by decide) (by decide) hc)

/-! ## What stands in the way of a name -/

variable {t t' : Tree} {id other : EntityId} {name : String} {forward listed : Bool}

/-- Whether an entity is the last one of a tree besides recorded directives. -/
structure Latest (t : Tree) (id : EntityId) : Prop where
  lt : id < t.size
  plain : (t.get id).isRecord = false
  records : ∀ x, id < x → x < t.size → (t.get x).isRecord = true

theorem Latest.unique (h : t.Latest id) (h' : t.Latest other) : id = other := by
  have hLe : ∀ {x y : EntityId}, t.Latest x → t.Latest y → x ≤ y := by
    intro x y hx hy
    refine Nat.le_of_not_lt fun hLt => ?_
    have hRecord := hy.records x hLt hx.lt
    rw [hx.plain] at hRecord
    cases hRecord
  exact Nat.le_antisymm (hLe h h') (hLe h' h)

/-- Whether the entity `id` is refused its name for the entity `other` with a cause: `id` would
inherit the name, or the name, which was written down for `id`, is taken in the scope that it is to be
entered in. -/
inductive Refuses (t : Tree) (id : EntityId) (name : String) (other : EntityId) : Cause → Prop where
  | inherited {parent : EntityId} (hParent : (t.get id).parent = some parent)
      (hInherited : t.lookupInBases parent (t.key name) = some other) :
      Refuses t id name other (.nameInherited name)
  | taken {parent : EntityId} {scope : ScopeId} (hParent : (t.get id).parent = some parent)
      (hScope : (t.get parent).scope = some scope) (hName : (t.get id).name = name)
      (hTaken : (t.scope scope).get? (isDeclarationName (t.get id).kind) (t.key name) = some other)
      (hKind : (t.get other).kind = (t.get id).kind) : Refuses t id name other .nameTaken
  | takenBy {parent : EntityId} {scope : ScopeId} (hParent : (t.get id).parent = some parent)
      (hScope : (t.get parent).scope = some scope) (hName : (t.get id).name = name)
      (hTaken : (t.scope scope).get? (isDeclarationName (t.get id).kind) (t.key name) = some other)
      (hKind : (t.get other).kind ≠ (t.get id).kind) :
      Refuses t id name other (.nameTakenBy (t.get other).kind.keyword)

/-- A name that is refused as a duplicate where it is to stand is inherited. -/
theorem refuses_of_namePlace {cause : Cause} (h : t.namePlace id name = .error cause)
    (hDuplicate : cause.category = .duplicate) : ∃ other, t.Refuses id name other cause := by
  unfold namePlace at h
  split at h
  · rename_i parent scope hParent _
    split at h
    · rename_i hInherited
      cases h
      obtain ⟨other, hOther⟩ := Option.isSome_iff_exists.mp hInherited
      exact ⟨other, .inherited hParent hOther⟩
    · cases h
  · cases h
    cases hDuplicate

/-- A name that is refused when it is entered is taken. -/
theorem refuses_of_enterName {place : EntityId × ScopeId} {cause : Cause}
    (hPlace : t.namePlace id name = .ok place) (hLt : id < t.size)
    (h : (t.rename id name).enterName place id name forward listed = .error cause) :
    ∃ other, (t.rename id name).Refuses id name other cause := by
  obtain ⟨hParent, hScope, -⟩ := namePlace_eq_ok.mp hPlace
  have hNamed : Renames t (t.rename id name) id { t.get id with name } :=
    renames_modify hLt fun _ => rfl
  have hParent' : ((t.rename id name).get id).parent = some place.1 :=
    hNamed.self.parent.trans hParent
  have hScope' : ((t.rename id name).get place.1).scope = some place.2 := by
    rw [← hScope]
    unfold rename
    apply get_modify_congr Entity.scope
    intro e
    rfl
  have hName : ((t.rename id name).get id).name = name := hNamed.self.name
  unfold enterName at h
  dsimp only at h
  generalize t.rename id name = u at h hParent' hScope' hName
  cases hFound : (u.scope place.2).get? (isDeclarationName (u.get id).kind) (u.key name) with
  | none =>
    rw [hFound] at h
    cases h
  | some other =>
    refine ⟨other, ?_⟩
    rw [hFound] at h
    unfold nameOutcome at h
    dsimp only at h
    split at h
    · rename_i hKind
      cases h
      exact .takenBy hParent' hScope' hName hFound hKind
    · rename_i hKind
      split at h
      · cases h
      · split at h
        · cases h
        · split at h
          · cases h
          · cases h
            exact .taken hParent' hScope' hName hFound (Decidable.not_not.mp hKind)

theorem get?_of_lookup? {s : Scope} {d : Bool} {k : String} {x : EntityId}
    (h : s.lookup? d k = some x) : ∃ d', s.get? d' k = some x := by
  unfold Scope.lookup? at h
  split at h <;> rcases Option.or_eq_some_iff.mp h with hFirst | ⟨-, hSecond⟩
  · exact ⟨false, hFirst⟩
  · exact ⟨true, hSecond⟩
  · exact ⟨true, hFirst⟩
  · exact ⟨false, hSecond⟩

/-- What is found stands in some scope. -/
theorem get?_of_lookupWithin {d : Bool} {k : String} {n : Nat} {owner x : EntityId}
    (h : t.lookupWithin d k n owner = some x) : ∃ s d', (t.scope s).get? d' k = some x := by
  induction n generalizing owner with
  | zero => cases h
  | succ n ih =>
    unfold lookupWithin at h
    split at h
    · cases h
    · rename_i scope _
      split at h
      · rename_i found hFound
        cases h
        obtain ⟨d', hGet⟩ := get?_of_lookup? hFound
        exact ⟨scope, d', hGet⟩
      · split at h
        · cases h
        · obtain ⟨base, -, hBase⟩ := List.exists_of_findSome?_eq_some h
          exact ih hBase

/-- What a name is refused for stands in a scope. -/
theorem Refuses.exists_entry {cause : Cause} (h : t.Refuses id name other cause) :
    ∃ s d, (t.scope s).get? d (t.key name) = some other := by
  cases h with
  | inherited hParent hInherited =>
    unfold lookupInBases at hInherited
    split at hInherited
    · cases hInherited
    · obtain ⟨base, -, hBase⟩ := List.exists_of_findSome?_eq_some hInherited
      exact get?_of_lookupWithin hBase
  | taken hParent hScope hName hTaken hKind => exact ⟨_, _, hTaken⟩
  | takenBy hParent hScope hName hTaken hKind => exact ⟨_, _, hTaken⟩

/-! ## Trees with the same names -/

/-- Whether a tree has the entities of another one with the same names, and the same scopes, besides
what was added without a name. -/
structure Agrees (t t' : Tree) : Prop where
  size : t.size ≤ t'.size
  caseSensitive : t'.caseSensitive = t.caseSensitive
  entry : ∀ s d k, (t'.scope s).get? d k = (t.scope s).get? d k
  name : ∀ x, x < t.size → (t'.get x).name = (t.get x).name
  record : ∀ x, x < t.size → (t'.get x).isRecord = (t.get x).isRecord

/-- Whether all that a tree has more than another one are recorded directives. -/
def Notes (t t' : Tree) : Prop := ∀ x, t.size ≤ x → x < t'.size → (t'.get x).isRecord = true

theorem notes_of_size (h : t'.size = t.size) : Notes t t' :=
  fun _ hx hLt => absurd hx (Nat.not_le_of_lt (h ▸ hLt))

theorem Agrees.refl (t : Tree) : Agrees t t :=
  ⟨Nat.le_refl _, rfl, fun _ _ _ => rfl, fun _ _ => rfl, fun _ _ => rfl⟩

theorem Agrees.trans {t'' : Tree} (h : Agrees t t') (h' : Agrees t' t'') : Agrees t t'' where
  size := Nat.le_trans h.size h'.size
  caseSensitive := h'.caseSensitive.trans h.caseSensitive
  entry := fun s d k => (h'.entry s d k).trans (h.entry s d k)
  name := fun x hx => (h'.name x (Nat.lt_of_lt_of_le hx h.size)).trans (h.name x hx)
  record := fun x hx => (h'.record x (Nat.lt_of_lt_of_le hx h.size)).trans (h.record x hx)

/-- Recorded directives stay, and more may follow. -/
theorem Notes.trans {t'' : Tree} (h : Notes t t') (h' : Notes t' t'') (hAgrees : Agrees t' t'') :
    Notes t t'' := by
  intro x hx hLt
  by_cases hOld : x < t'.size
  · rw [hAgrees.record x hOld]
    exact h x hx hOld
  · exact h' x (Nat.le_of_not_lt hOld) hLt

theorem agrees_modify (t : Tree) (id : EntityId) {f : Entity → Entity}
    (hf : ∀ e, (f e).name = e.name ∧ (f e).isRecord = e.isRecord) : Agrees t (t.modify id f) where
  size := Nat.le_of_eq (size_modify t id f).symm
  caseSensitive := rfl
  entry := fun _ _ _ => rfl
  name := fun x _ => get_modify_congr Entity.name (fun e => (hf e).1) x
  record := fun x _ => get_modify_congr Entity.isRecord (fun e => (hf e).2) x

theorem agrees_push (t : Tree) (e : Entity) :
    Agrees t ⟨t.entities.push e, t.scopes, t.caseSensitive⟩ where
  size := by
    rw [size, size, Array.size_push]
    exact Nat.le_succ _
  caseSensitive := rfl
  entry := fun _ _ _ => rfl
  name := fun x hx => by rw [get_push, if_neg (Nat.ne_of_lt hx)]
  record := fun x hx => by rw [get_push, if_neg (Nat.ne_of_lt hx)]

theorem notes_push (t : Tree) (r : Record) :
    Notes t ⟨t.entities.push (recorded r), t.scopes, t.caseSensitive⟩ := by
  intro x hx hLt
  rw [size, Array.size_push] at hLt
  have hNew : x = t.size := Nat.le_antisymm (Nat.le_of_lt_succ hLt) hx
  rw [get_push, if_pos hNew]
  rfl

theorem agrees_addRecords (t : Tree) (records : List Record) :
    Agrees t (t.addRecords records) ∧ Notes t (t.addRecords records) := by
  induction records generalizing t with
  | nil => exact ⟨.refl t, notes_of_size rfl⟩
  | cons r rs ih =>
    have hListed := agrees_modify ⟨t.entities.push (recorded r), t.scopes, t.caseSensitive⟩ root
      fun e => ⟨(alike_listing t.size e).name, isRecord_listing t.size e⟩
    have hAttached := agrees_modify (t.addRecord r).2 (t.addRecord r).1 fun e =>
      have hAnnotates := Entity.annotates_attach r.comments e
      ⟨hAnnotates.alike.name, hAnnotates.isRecord⟩
    have hAfter : Agrees _ (t.addRecords (r :: rs)) := hListed.trans (hAttached.trans (ih _).1)
    refine ⟨(agrees_push t (recorded r)).trans hAfter, (notes_push t r).trans ?_ hAfter⟩
    exact (notes_of_size (size_modify _ _ _)).trans
      ((notes_of_size (size_modify _ _ _)).trans (ih _).2 (ih _).1) (hAttached.trans (ih _).1)

/-- An entity that is added has a number of its own. -/
theorem agrees_add {parent : EntityId} {kind : EntityKind} {source : SourceId} {span : Span}
    {data : EntityData} (h : t.add parent kind source span data = .ok (id, t')) :
    Agrees t t' ∧ id = t.size ∧ t'.size = t.size + 1 := by
  have hScope := scope_add h
  obtain ⟨-, rfl, hSize, hCase, -, hGet⟩ := add_eq_ok h
  refine ⟨⟨hSize ▸ Nat.le_succ _, hCase, fun s d k => by rw [hScope], fun x hx => ?_,
    fun x hx => ?_⟩, rfl, hSize⟩
  · rw [hGet, if_neg (Nat.ne_of_lt hx)]
  · rw [hGet, if_neg (Nat.ne_of_lt hx)]

theorem agrees_of_outline (h : t'.outline = t.outline) : Agrees t t' where
  size := Nat.le_of_eq (size_congr h).symm
  caseSensitive := caseSensitive_congr h
  entry := fun s _ _ => by rw [← scope_outline t', h, scope_outline]
  name := fun x _ => name_congr h x
  record := fun x _ => by rw [← isRecord_outline t', h, isRecord_outline]

theorem Latest.agrees (h : t.Latest id) (hAgrees : Agrees t t') (hNotes : Notes t t') :
    t'.Latest id where
  lt := Nat.lt_of_lt_of_le h.lt hAgrees.size
  plain := (hAgrees.record id h.lt).trans h.plain
  records := by
    intro x hx hLt
    by_cases hOld : x < t.size
    · rw [hAgrees.record x hOld]
      exact h.records x hx hOld
    · exact hNotes x (Nat.le_of_not_lt hOld) hLt

end Tree

/-! ## Names that were given -/

/-- The words of a source. -/
structure Vocabulary where
  caseSensitive : Bool
  words : List String
  names : ∀ w ∈ words, IsName w

/-- What is open while an entity gets its name: the entity, and the name if it was generated. -/
structure Pending where
  entity : Option EntityId := none
  name : Option String := none

/-- Whether a name is the one that was generated, or a word of the source where none was. -/
def Vocabulary.Names (V : Vocabulary) (generated : Option String) (name : String) : Prop :=
  generated = some name ∨ generated = none ∧ name ∈ V.words

namespace Tree

/-- Whether the scopes of a tree hold entities under their names, which are words of the source or
names that were `made`. What is pending is not among them. -/
structure Lists (V : Vocabulary) (made : String → Prop) (ω : Pending) (t : Tree) : Prop where
  caseSensitive : t.caseSensitive = V.caseSensitive
  entry : ∀ s d k x, (t.scope s).get? d k = some x →
    x < t.size ∧ ω.entity ≠ some x ∧ k = t.key (t.get x).name ∧
      ((t.get x).name ∈ V.words ∨ made (t.get x).name ∧ ω.name ≠ some (t.get x).name)
  generated : ∀ name, made name → IsGenerated name
  opened : ∀ x, ω.entity = some x → t.Latest x
  waiting : ∀ name, ω.name = some name → made name

namespace Lists

variable {V : Vocabulary} {made : String → Prop} {ω : Pending} {t t' : Tree}
  {id other : EntityId} {name : String} {waiting : Option String} {forward listed : Bool}

theorem agrees (h : t.Lists V made ω) (hAgrees : Agrees t t')
    (hNotes : ω.entity ≠ none → Notes t t') : t'.Lists V made ω where
  caseSensitive := hAgrees.caseSensitive.trans h.caseSensitive
  entry := by
    intro s d k x hEntry
    rw [hAgrees.entry] at hEntry
    obtain ⟨hLt, hOpen, hKey, hName⟩ := h.entry s d k x hEntry
    rw [hAgrees.name x hLt, key_eq_of_caseSensitive hAgrees.caseSensitive]
    exact ⟨Nat.lt_of_lt_of_le hLt hAgrees.size, hOpen, hKey, hName⟩
  generated := h.generated
  opened := fun x hx => (h.opened x hx).agrees hAgrees (hNotes (hx ▸ Option.some_ne_none x))
  waiting := h.waiting

/-- An entity that is added waits for its name. -/
theorem add (h : t.Lists V made { name := waiting }) {parent : EntityId} {kind : EntityKind}
    {source : SourceId} {span : Span} {data : EntityData}
    (hPlain : data.isRecord = false)
    (hAdd : t.add parent kind source span data = .ok (id, t')) :
    t'.Lists V made { entity := some id, name := waiting } := by
  obtain ⟨hAgrees, rfl, hSize⟩ := agrees_add hAdd
  have h' := h.agrees hAgrees fun hNone => absurd rfl hNone
  refine { h' with entry := ?_, opened := ?_ }
  · intro s d k x hEntry
    obtain ⟨-, -, hKey, hName⟩ := h'.entry s d k x hEntry
    rw [hAgrees.entry] at hEntry
    have hLt := (h.entry s d k x hEntry).1
    refine ⟨Nat.lt_of_lt_of_le hLt hAgrees.size, ?_, hKey, hName⟩
    rintro ⟨⟩
    exact Nat.lt_irrefl _ hLt
  · rintro x ⟨⟩
    obtain ⟨-, -, -, -, -, hGet⟩ := add_eq_ok hAdd
    refine ⟨hSize ▸ Nat.lt_succ_self _, ?_, fun x hx hLt => ?_⟩
    · rw [hGet, if_pos rfl]
      exact hPlain
    · rw [hSize] at hLt
      exact absurd (Nat.le_of_lt_succ hLt) (Nat.not_le_of_lt hx)

/-- A name that is made anew waits for its entity. -/
theorem generate {entity : Option EntityId} (h : t.Lists V made { entity }) (hNew : ¬ made name)
    (hName : IsGenerated name) :
    t.Lists V (fun n => n = name ∨ made n) { entity, name := some name } where
  caseSensitive := h.caseSensitive
  entry := by
    intro s d k x hEntry
    obtain ⟨hLt, hOpen, hKey, hKnown⟩ := h.entry s d k x hEntry
    refine ⟨hLt, hOpen, hKey, hKnown.imp_right fun hMade => ⟨Or.inr hMade.1, ?_⟩⟩
    rintro ⟨rfl⟩
    exact hNew hMade.1
  generated := by
    rintro n (rfl | hMade)
    · exact hName
    · exact h.generated n hMade
  opened := h.opened
  waiting := by
    rintro n ⟨⟩
    exact Or.inl rfl

/-- A name that is written down for the entity that waits. -/
theorem rename (h : t.Lists V made { entity := some id, name := waiting }) (name : String) :
    (t.rename id name).Lists V made { entity := some id, name := waiting } := by
  have hLatest := h.opened id rfl
  refine { h with entry := ?_, opened := ?_ }
  · intro s d k x hEntry
    obtain ⟨hLt, hOpen, hKey, hKnown⟩ := h.entry s d k x hEntry
    have hNe : x ≠ id := fun hSame => hOpen (hSame ▸ rfl)
    unfold Tree.rename
    rw [size_modify, get_modify_of_ne hNe]
    exact ⟨hLt, hOpen, hKey, hKnown⟩
  · rintro x ⟨⟩
    have hRecord : ∀ i, ((t.rename id name).get i).isRecord = (t.get i).isRecord := by
      intro i
      unfold Tree.rename
      apply get_modify_congr Entity.isRecord
      intro e
      rfl
    refine ⟨(size_modify _ _ _).symm ▸ hLatest.lt, (hRecord _).trans hLatest.plain, ?_⟩
    intro i hi hLt
    rw [hRecord]
    exact hLatest.records i hi (size_modify t _ _ ▸ hLt)

/-- What a word is refused for is another entity with the same key, and what the name that was
generated last is refused for has moreover a word for its name: two names that were made differ in
their keys. -/
theorem clash {cause : Cause} (h : t.Lists V made { entity := some id, name := waiting })
    (hName : V.Names waiting name) (hRefuses : t.Refuses id name other cause) :
    other ≠ id ∧ t.key (t.get other).name = t.key name ∧
      (name ∈ V.words ∧ ((t.get other).name ∈ V.words ∨ made (t.get other).name) ∨
        made name ∧ (t.get other).name ∈ V.words) := by
  obtain ⟨s, d, hEntry⟩ := hRefuses.exists_entry
  obtain ⟨-, hOpen, hKey, hOther⟩ := h.entry s d _ other hEntry
  refine ⟨fun hSame => hOpen (hSame ▸ rfl), hKey.symm, ?_⟩
  rcases hName with rfl | ⟨-, hWord⟩
  · have hMade := h.waiting name rfl
    rcases hOther with hWord | ⟨hOther, hWaits⟩
    · exact Or.inr ⟨hMade, hWord⟩
    · rw [t.key_of_isGenerated (h.generated name hMade),
        t.key_of_isGenerated (h.generated _ hOther)] at hKey
      exact absurd (congrArg some hKey) hWaits
  · exact Or.inl ⟨hWord, hOther.imp_right And.left⟩

/-- The entity that waits gets a word for its name, or the name that was generated for it. -/
theorem setName {found : EntityId} (h : t.Lists V made { entity := some id, name := waiting })
    (hName : V.Names waiting name)
    (hSet : t.setName id name forward listed = .ok (found, t')) : t'.Lists V made {} := by
  have hNaming := naming_of_setName (h.opened id rfl).lt hSet
  obtain ⟨e, hRenames, -, -, rfl⟩ := hNaming.renames
  have hKey := key_eq_of_caseSensitive hRenames.caseSensitive
  have hSelf : (t'.get id).name = e.name := hRenames.self.name
  have hKnown : e.name ∈ V.words ∨ made e.name := by
    rcases hName with hWaiting | ⟨-, hWord⟩
    · exact Or.inr (h.waiting _ hWaiting)
    · exact Or.inl hWord
  have hOld : ∀ s d k x, (t.scope s).get? d k = some x →
      x < t'.size ∧ k = t'.key (t'.get x).name ∧
        ((t'.get x).name ∈ V.words ∨ made (t'.get x).name) := by
    intro s d k x hEntry
    obtain ⟨hLt, hOpen, hKeyOld, hOther⟩ := h.entry s d k x hEntry
    have hNe : x ≠ id := fun hSame => hOpen (hSame ▸ rfl)
    rw [(hRenames.others x hNe).name, hKey, hRenames.size]
    exact ⟨hLt, hKeyOld, hOther.imp_right And.left⟩
  have hEntries : ∀ s d k x, (t'.scope s).get? d k = some x →
      x = id ∧ k = t.key e.name ∨ (t.scope s).get? d k = some x := by
    intro s d k x hEntry
    cases WellFormed.enters hNaming with
    | entered _ _ _ hScopes =>
      rw [scope_eq_of_scopes hScopes] at hEntry
      exact get?_of_insertName hEntry
    | kept _ _ _ _ _ hScopes =>
      rw [scope_eq_of_scopes hScopes] at hEntry
      exact Or.inr hEntry
  refine ⟨hRenames.caseSensitive.trans h.caseSensitive, fun s d k x hEntry => ?_, h.generated,
    nofun, nofun⟩
  rcases hEntries s d k x hEntry with ⟨rfl, rfl⟩ | hBefore
  · rw [hSelf, hKey]
    exact ⟨hRenames.size ▸ (h.opened x rfl).lt, nofun, rfl,
      hKnown.imp_right fun hMade => ⟨hMade, nofun⟩⟩
  · obtain ⟨hLt, hKeyOld, hOther⟩ := hOld s d k x hBefore
    exact ⟨hLt, nofun, hKeyOld, hOther.imp_right fun hMade => ⟨hMade, nofun⟩⟩

end Lists

end Tree

end IdlReader
