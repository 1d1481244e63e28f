import IdlReader.Proofs.Tree.Particulars
import Mathlib.Data.List.Forall2

/-!
# Entities that match

The traits of an entity are one list for all that lies below it, and hardly anything in it says where
the traits of one member end and those of the next begin. They fall apart all the same. What stands
behind the data of an entity is announced as one of its members, or as a member of an entity around
it (`Trails`), and no place inside of the data looks like such an announcement. So the data of two
entities of the same traits ends at the same place, and the lists of members do, since the names of
a member are longer by one than those of the entities around it.

A union that has a type of a discriminator but no case is the one exception: its end may look like a
type that is forward declared as the next member. Trees without such unions are `Cased`.

* `Matches`: what the traits of entities tell apart.
* `data_eq`: where the data of entities ends.
* `Walk.matching`: walks that list the same lead through entities that match.
* `matches_of_traits`: entities of the same traits match.
-/

namespace IdlReader

namespace EntityKind

theorem keyword_mem_keywords {k : EntityKind} (h : k.isDefinition = true) :
    k.keyword ∈ Lexicon.keywords := by
  cases k <;> first | decide | cases h

end EntityKind

namespace Entity

theorem data_of_declaration? {e : Entity} {d : Declaration} (h : e.declaration? = some d) :
    e.data = .declaration d := by
  unfold declaration? at h
  split at h
  · rename_i hData
    rw [hData, Option.some.inj h]
  · cases h

theorem data_of_definition? {e : Entity} {d : Definition} (h : e.definition? = some d) :
    e.data = .definition d := by
  unfold definition? at h
  split at h
  · rename_i hData
    rw [hData, Option.some.inj h]
  · cases h

end Entity

namespace Trait

variable {ts us : List Trait}

/-! ## Traits that begin with no end -/

/-- Whether traits begin with no number, and with no texts in front of the end of a list. -/
structure Proceeds (ts : List Trait) : Prop where
  mark : mark ts ≠ some .stop
  head : ∀ n us, ts ≠ .number n :: us

theorem proceeds_nil : Proceeds [] := ⟨nofun, nofun⟩

theorem proceeds_text {s : String} (h : mark ts ≠ some .stop) : Proceeds (.text s :: ts) := ⟨h, nofun⟩

theorem Proceeds.append (h : Proceeds ts) (h' : Proceeds us) : Proceeds (ts ++ us) := by
  refine ⟨mark_append_ne_stop h.mark h'.mark, ?_⟩
  cases ts with
  | nil => exact h'.head
  | cons x ts =>
    intro n vs hEq
    exact h.head n ts (congrArg (· :: ts) (List.cons.inj hEq).1)

theorem proceeds_flatMap {ids : List EntityId} {traits : EntityId → List Trait}
    (h : ∀ i ∈ ids, Proceeds (traits i)) : Proceeds (ids.flatMap traits) := by
  induction ids with
  | nil => exact proceeds_nil
  | cons i ids ih =>
    rw [List.flatMap_cons]
    exact (h i List.mem_cons_self).append (ih fun x hx => h x (List.mem_cons_of_mem i hx))

theorem proceeds_map_text (names : List String) : Proceeds (names.map text) := by
  induction names with
  | nil => exact proceeds_nil
  | cons name names ih => exact proceeds_text ih.mark

theorem Announces.proceeds {name : String} {kind : EntityKind} (h : Announces name kind ts) :
    Proceeds ts := by
  obtain ⟨us, rfl, hMark, -⟩ := h
  exact proceeds_text hMark

end Trait

open Trait

namespace Tree

variable {t u : Tree} {i j : EntityId} {inner : EntityId → List Trait}
  {around around' : List EntityId} {rest rest' ts ts' : List Trait} {x : Trait}

/-- The members and the parameters of an entity. -/
def members (t : Tree) (i : EntityId) : List EntityId := (t.get i).children ++ t.parameters i

theorem ownTraits_eq (t : Tree) (inner : EntityId → List Trait) (i : EntityId) :
    t.ownTraits inner i = .text (t.scopedName i) :: .text (t.get i).kind.keyword ::
      (t.dataTraits inner (t.get i).data ++ (t.members i).flatMap inner) := by
  rw [ownTraits, members, List.flatMap_append, List.append_assoc]

theorem mem_dependencies_of_mem_members {c : EntityId} (h : c ∈ t.members i) :
    c ∈ t.dependencies i := by
  rw [dependencies, List.append_assoc]
  exact List.mem_append_right _ h

theorem proceeds_optionalTraits (entity : EntityId → List Trait) (type : Option DeclaredType) :
    Proceeds (DeclaredType.optionalTraits entity type) := by
  cases type with
  | none => exact proceeds_nil
  | some type =>
    obtain ⟨us, hType⟩ := traits_cons entity type
    rw [DeclaredType.optionalTraits, hType]
    exact proceeds_text nofun

theorem proceeds_dataTraits (t : Tree) (entity : EntityId → List Trait) (data : EntityData) :
    Proceeds (t.dataTraits entity data) := by
  cases data with
  | root => exact proceeds_nil
  | record => exact proceeds_text fun h => by cases h
  | definition d =>
    rw [dataTraits, definitionTraits, nameTraits_eq]
    refine ((proceeds_map_text _).append (proceeds_optionalTraits entity _)).append ?_
    cases d.isLocal
    · exact proceeds_nil
    · exact proceeds_text fun h => by cases h
  | declaration d =>
    obtain ⟨us, hType⟩ := traits_cons entity d.type
    rw [dataTraits, declarationTraits_eq, hType]
    exact proceeds_text fun h => by cases h

theorem Walk.proceeds (h : t.Walk around i ts) : Proceeds ts := by
  induction h with
  | back => exact proceeds_text nofun
  | @on around i inner hNot hInner ih =>
    rw [ownTraits_eq]
    refine proceeds_text ((proceeds_dataTraits t inner _).append (proceeds_flatMap ?_)).mark
    exact fun c hc => ih c (mem_dependencies_of_mem_members hc)

/-- A walk that does not go back announces the entity. -/
theorem Walk.announces (hWalk : t.Walk around i ts) (hNot : i ∉ around) (h : t.Concluded)
    (hi : i < t.size) (hRest : Proceeds rest) :
    Announces (t.scopedName i) (t.get i).kind (ts ++ rest) := by
  cases hWalk with
  | back hMem => exact absurd hMem hNot
  | @on _ _ inner _ hInner =>
    have hMembers : Proceeds ((t.members i).flatMap inner ++ rest) :=
      (proceeds_flatMap fun c hc => (hInner c (mem_dependencies_of_mem_members hc)).proceeds).append hRest
    have hData := (proceeds_dataTraits t inner (t.get i).data).append hMembers
    rw [ownTraits_eq, List.cons_append, List.cons_append, List.append_assoc]
    refine ⟨_, rfl, hData.mark, hData.head, ?_⟩
    intro hKind
    rw [← h.reachable.isDeclaration hi] at hKind
    obtain ⟨d, hd⟩ := Option.isSome_iff_exists.mp hKind
    obtain ⟨us, hType⟩ := traits_cons inner d.type
    rw [Entity.data_of_declaration? hd, dataTraits, declarationTraits_eq, hType]
    exact ⟨_, _, _, rfl⟩

/-! ## What stands behind data -/

/-- Whether traits are at an end, or announce a member of one of the entities `around`. -/
def Trails (t : Tree) (around : List EntityId) (ts : List Trait) : Prop :=
  ts = [] ∨ ∃ a ∈ around, a ≠ root ∧ ∃ y ∈ t.members a,
    Announces (t.scopedName y) (t.get y).kind ts

theorem Trails.mono (h : t.Trails around ts) (hSub : ∀ a ∈ around, a ∈ around') :
    t.Trails around' ts :=
  h.imp_right fun ⟨a, ha, hMember⟩ => ⟨a, hSub a ha, hMember⟩

theorem Trails.proceeds (h : t.Trails around ts) : Proceeds ts := by
  rcases h with rfl | ⟨_, _, _, _, _, hAnnounces⟩
  · exact proceeds_nil
  · exact hAnnounces.proceeds

/-- Whether an entity is no forward declaration, as everything that has members. -/
structure Whole (t : Tree) (a : EntityId) : Prop where
  found : t.Found a
  full : (t.get a).forward = false

namespace Concluded

/-- What has members is no forward declaration. -/
theorem whole_of_mem (h : t.Concluded) (hRoot : i ≠ root) {y : EntityId} (hy : y ∈ t.members i) :
    t.Whole i := by
  obtain ⟨hParent, hNamed, -⟩ := h.place hy
  obtain ⟨-, hPlace, -⟩ := h.wellFormed.parent_place hNamed.1 hParent
  obtain ⟨hFound, hFull⟩ := hPlace.resolve_left hRoot
  exact ⟨hFound, hFull⟩

theorem colon_mem_member (h : t.Concluded) (hRoot : i ≠ root) {y : EntityId}
    (hy : y ∈ t.members i) : ':' ∈ (t.scopedName y).toList :=
  h.wellFormed.colon_mem_scopedName (h.place hy).1 (h.whole_of_mem hRoot hy).found.1 hRoot

/-- Members are definitions or declarations. -/
theorem registrable (h : t.Concluded) {y : EntityId} (hy : y ∈ t.members i) :
    Registrable (t.get y).kind := by
  obtain ⟨hParent, hNamed, -, hDirective⟩ := h.place hy
  have hRoot := h.wellFormed.kind_ne_root y (h.wellFormed.ne_root_of_parent hParent) hNamed.1
  unfold Registrable
  revert hDirective hRoot
  cases (t.get y).kind <;> decide

end Concluded

theorem Trails.unannounced (h : t.Trails around ts) (hTree : t.Concluded) : Unannounced ts := by
  rcases h with rfl | ⟨a, -, hRoot, y, hy, us, rfl, -⟩
  · exact unannounced_nil
  · exact unannounced_of_colon (hTree.colon_mem_member hRoot hy) _

/-- What stands behind data begins with a scoped name and a keyword. -/
theorem Trails.cons (h : t.Trails around (x :: ts)) (hTree : t.Concluded) :
    ∃ s k us, x = .text s ∧ ':' ∈ s.toList ∧ ts = .text (EntityKind.keyword k) :: us ∧
      (k.isDefinition = true ∨ ∃ s n vs, us = .text s :: .number n :: vs) := by
  obtain hNil | ⟨a, -, hRoot, y, hy, us, hEq, -, -, hType⟩ := h
  · cases hNil
  · obtain ⟨rfl, rfl⟩ := List.cons.inj hEq
    exact ⟨_, _, us, rfl, hTree.colon_mem_member hRoot hy, rfl, (hTree.registrable hy).imp_right hType⟩

/-! ## Walks of two trees -/

/-- Whether walks of two trees are inside of entities of the same kinds and names. -/
structure Beside (t u : Tree) (around around' : List EntityId) : Prop where
  whole : ∀ a ∈ around, t.Whole a
  whole' : ∀ a ∈ around', u.Whole a
  twin : ∀ a' ∈ around', ∃ a ∈ around, (t.get a).kind = (u.get a').kind ∧ t.names a = u.names a'
  twin' : ∀ a ∈ around, ∃ a' ∈ around', (u.get a').kind = (t.get a).kind ∧ u.names a' = t.names a

namespace Beside

theorem symm (h : Beside t u around around') : Beside u t around' around :=
  ⟨h.whole', h.whole, h.twin', h.twin⟩

theorem nil (t u : Tree) : Beside t u [] [] := ⟨nofun, nofun, nofun, nofun⟩

theorem cons (h : Beside t u around around') (hi : t.Whole i) (hj : u.Whole j)
    (hKind : (t.get i).kind = (u.get j).kind) (hNames : t.names i = u.names j) :
    Beside t u (i :: around) (j :: around') where
  whole := List.forall_mem_cons.mpr ⟨hi, h.whole⟩
  whole' := List.forall_mem_cons.mpr ⟨hj, h.whole'⟩
  twin := by
    rintro a' (_ | ⟨_, ha'⟩)
    · exact ⟨i, List.mem_cons_self, hKind, hNames⟩
    · obtain ⟨a, ha, hTwin⟩ := h.twin a' ha'
      exact ⟨a, List.mem_cons_of_mem i ha, hTwin⟩
  twin' := by
    rintro a (_ | ⟨_, ha⟩)
    · exact ⟨j, List.mem_cons_self, hKind.symm, hNames.symm⟩
    · obtain ⟨a', ha', hTwin⟩ := h.twin' a ha
      exact ⟨a', List.mem_cons_of_mem j ha', hTwin⟩

/-- A member of an entity around one walk has no name and kind from elsewhere in the other tree. -/
theorem not_elsewhere (h : Beside t u around around') (ht : t.Concluded) (hu : u.Concluded)
    {a' y' : EntityId} (ha' : a' ∈ around') (hy' : y' ∈ u.members a') :
    ¬ t.Elsewhere around (u.scopedName y') (u.get y').kind := by
  rintro ⟨y, q, hy, hq, hOut, hRoot, hModule, hKind, hName⟩
  obtain ⟨a, ha, hTwinKind, hTwinNames⟩ := h.twin a' ha'
  obtain ⟨hParent', hNamed', -⟩ := hu.place hy'
  have hAbove : t.names q = t.names a :=
    (ht.wellFormed.names_parent_eq hu.wellFormed hy hNamed' hq hParent' hName).trans hTwinNames.symm
  obtain ⟨-, hPlace, ⟨s, hs⟩, hParameter⟩ := ht.wellFormed.parent_place hy.1 hq
  obtain ⟨-, -, ⟨s', hs'⟩, hParameter'⟩ := hu.wellFormed.parent_place hNamed'.1 hParent'
  obtain ⟨hFound, hFull⟩ := hPlace.resolve_left hRoot
  -- Both have members, and both are operations if the members are parameters.
  have hSupports := ht.wellFormed.kind_of_scope hs
  have hSupports' : (t.get a).kind.supportsChildren = true :=
    hTwinKind ▸ hu.wellFormed.kind_of_scope hs'
  have hOperation : (t.get q).kind = .operation ↔ (t.get a).kind = .operation := by
    rw [← hParameter, hKind, hParameter', hTwinKind]
  have hClass : isDeclarationName (t.get q).kind = isDeclarationName (t.get a).kind := by
    rw [WellFormed.isDeclarationName_of_supportsChildren hSupports,
      WellFormed.isDeclarationName_of_supportsChildren hSupports', Bool.eq_iff_iff, beq_iff_eq, beq_iff_eq,
      hOperation]
  have hNot : ∀ {k : EntityKind}, k.supportsChildren = true → k ≠ .parameter := by
    rintro k hk rfl
    cases hk
  rcases ht.wellFormed.eq_or_modules hFound (h.whole a ha).found hFull (h.whole a ha).full
    (hNot hSupports) (hNot hSupports') hClass hAbove with rfl | ⟨hFalse, -⟩
  · exact hOut ha
  · exact hModule hFalse

/-- Traits that point away are no part of an announcement of a member. -/
theorem eq_nil (h : Beside t u around around') (ht : t.Concluded) (hu : u.Concluded)
    {a' y' : EntityId} {b : Bool} (ha' : a' ∈ around') (hy' : y' ∈ u.members a')
    (hAnnounces : Announces (u.scopedName y') (u.get y').kind (ts ++ rest))
    (hAway : t.Away around rest b ts) (hFlag : b = true ∨ (u.get y').kind = .caseEntry) :
    ts = [] := by
  cases ts with
  | nil => rfl
  | cons x ts =>
    have hColon := hu.colon_mem_member (hu.wellFormed.ne_root_of_found (h.whole' a' ha').found) hy'
    exact absurd (hAway.1 _ _ hAnnounces hColon hFlag) (h.not_elsewhere ht hu ha' hy')

end Beside

/-! ## Where data ends -/

/-- Whether every union that has a type of a discriminator has a case. -/
def Cased (t : Tree) : Prop :=
  ∀ i < t.size, ((t.get i).definition?.bind (·.switchType)).isSome = true → (t.get i).children ≠ []

instance (t : Tree) : Decidable t.Cased := by
  unfold Cased
  infer_instance

/-- Whether a walk may go into an entity inside of the entities `around`, which have shorter names. -/
structure Descends (t : Tree) (around : List EntityId) (i : EntityId) : Prop where
  named : t.Named i
  ne_root : i ≠ root
  registrable : Registrable (t.get i).kind
  shorter : ∀ a ∈ around, (t.names a).length < (t.names i).length

namespace Descends

theorem notMem (h : t.Descends around i) : i ∉ around :=
  fun hMem => absurd (h.shorter i hMem) (Nat.lt_irrefl _)

theorem member (h : t.Descends around i) (hTree : t.Concluded) {c : EntityId} (hc : c ∈ t.members i) :
    t.Descends (i :: around) c := by
  obtain ⟨hParent, hNamed, -⟩ := hTree.place hc
  have hLength := hTree.wellFormed.length_names hParent
  refine ⟨hNamed, hTree.wellFormed.ne_root_of_parent hParent, hTree.registrable hc, ?_⟩
  refine List.forall_mem_cons.mpr ⟨by omega, fun a ha => ?_⟩
  have hLt := h.shorter a ha
  omega

theorem whole_of_isDeclaration (h : t.Descends around i) (hTree : t.Concluded)
    (hKind : (t.get i).kind.isDeclaration = true) : t.Whole i := by
  refine ⟨⟨h.named, h.registrable⟩, ?_⟩
  cases hForward : (t.get i).forward with
  | false => rfl
  | true =>
    have hDefinition := hTree.wellFormed.forward i h.named.1 hForward
    rw [EntityKind.not_isDeclaration_of_isDefinition hDefinition] at hKind
    cases hKind

/-- Walks through members announce the first of them, and what trails behind them announces members
of the entities around. -/
theorem trails_members (h : t.Descends around i) (hTree : t.Concluded) {ids : List EntityId}
    (hIds : ∀ c ∈ ids, c ∈ t.members i)
    (hWalks : ∀ x ∈ t.dependencies i, t.Walk (i :: around) x (inner x))
    (hRest : t.Trails around rest) :
    t.Trails (i :: around) (ids.flatMap inner ++ rest) ∧
      ∀ c ∈ ids.head?, Announces (t.scopedName c) (t.get c).kind (ids.flatMap inner ++ rest) := by
  have hWalk : ∀ c ∈ ids, t.Walk (i :: around) c (inner c) :=
    fun c hc => hWalks c (mem_dependencies_of_mem_members (hIds c hc))
  cases ids with
  | nil => exact ⟨hRest.mono fun a ha => List.mem_cons_of_mem i ha, nofun⟩
  | cons c ids =>
    have hBehind : Proceeds (ids.flatMap inner ++ rest) :=
      (proceeds_flatMap fun x hx => (hWalk x (List.mem_cons_of_mem c hx)).proceeds).append
        hRest.proceeds
    have hc := hIds c List.mem_cons_self
    have hBelow := h.member hTree hc
    have hAnnounces := (hWalk c List.mem_cons_self).announces hBelow.notMem hTree hBelow.named.1 hBehind
    rw [List.flatMap_cons, List.append_assoc]
    refine ⟨Or.inr ⟨i, List.mem_cons_self, h.ne_root, c, hc, hAnnounces⟩, ?_⟩
    intro x hx
    cases hx
    exact hAnnounces

end Descends

/-- What is known where a walk stands between the data of an entity and the members behind it. -/
structure Level (t : Tree) (around : List EntityId) (inner : EntityId → List Trait)
    (rest : List Trait) (i : EntityId) : Prop extends Descends t around i where
  walks : ∀ x ∈ t.dependencies i, t.Walk (i :: around) x (inner x)
  trails : t.Trails (i :: around) rest
  first : ∀ c ∈ (t.get i).children.head?, Announces (t.scopedName c) (t.get c).kind rest

theorem Descends.level (h : t.Descends around i) (hTree : t.Concluded)
    (hWalks : ∀ x ∈ t.dependencies i, t.Walk (i :: around) x (inner x))
    (hRest : t.Trails around rest) :
    t.Level around inner ((t.members i).flatMap inner ++ rest) i := by
  obtain ⟨hTrails, hFirst⟩ := h.trails_members hTree (fun _ hc => hc) hWalks hRest
  refine ⟨h, hWalks, hTrails, fun c hc => hFirst c ?_⟩
  rw [members, List.head?_append, hc]
  rfl

namespace Level

/-- The types of an entity are walked to inside of it, and point away. -/
theorem away (h : t.Level around inner rest i) (hTree : t.Concluded) :
    t.Away (i :: around) rest false (t.dataTraits inner (t.get i).data) := by
  refine hTree.away_data (fun x hx us hUs => ?_) (h.trails.unannounced hTree)
  have hType := hTree.isType_of_mem_references hx
  obtain ⟨hRoot, hModule, hCase⟩ := hTree.kind_of_isType hType
  refine (h.walks x (by simp [dependencies, hx])).away hTree (fun _ hl => hl) hRoot hModule hType.1
    (fun hOr => ?_) hUs
  exact absurd (hOr.resolve_left (by decide)) hCase

/-- The first case of a union. -/
theorem first_case (h : t.Level around inner rest i) (hTree : t.Concluded) (hCased : t.Cased)
    {d : Definition} (hd : (t.get i).definition? = some d) (hSwitch : d.switchType.isSome = true) :
    ∃ c ∈ t.members i, (t.get c).kind = .caseEntry ∧
      Announces (t.scopedName c) (t.get c).kind rest := by
  have hNil := hCased i h.named.1 (by rw [hd]; exact hSwitch)
  obtain ⟨c, hc⟩ := Option.isSome_iff_exists.mp (List.isSome_head?.mpr hNil)
  have hMem : c ∈ t.members i := List.mem_append_left _ (List.mem_of_mem_head? hc)
  obtain ⟨hParent, -, -, hDirective⟩ := hTree.place hMem
  have hUnion := hTree.reachable.kind_of_switchType hd hSwitch
  exact ⟨c, hMem, ((hTree.suited.stands c i hParent).2.union hUnion).resolve_right hDirective,
    h.first c hc⟩

end Level

/-- The texts of a definition that has no type of a discriminator. -/
def headTexts (t : Tree) (d : Definition) : List String :=
  d.bases.map t.scopedName ++ if d.isLocal then ["local"] else []

theorem definitionTraits_of_none {d : Definition} (h : d.switchType = none) :
    t.definitionTraits inner d = (t.headTexts d).map Trait.text := by
  rw [definitionTraits, h, nameTraits_eq, headTexts, List.map_append, DeclaredType.optionalTraits,
    List.append_nil]
  cases d.isLocal <;> rfl

theorem definitionTraits_of_some (t : Tree) (inner : EntityId → List Trait) {d : Definition}
    {type : DeclaredType} (hBases : d.bases = []) (h : d.switchType = some type) :
    ∃ n us, t.definitionTraits inner d = .text type.text :: .number n :: us := by
  obtain ⟨us, hType⟩ := traits_cons inner type
  rw [definitionTraits, h, hBases, DeclaredType.optionalTraits, hType]
  exact ⟨_, _, rfl⟩

namespace Concluded

theorem scopedName_notMem_keywords (h : t.Concluded) (hNamed : t.Named i)
    (hDefinition : (t.get i).definition?.isSome = true) : t.scopedName i ∉ Lexicon.keywords := by
  intro hMem
  have hRoot : i ≠ root := by
    rintro rfl
    have hKind := h.wellFormed.definition root hNamed.1 hDefinition
    rw [h.wellFormed.rootKind] at hKind
    cases hKind
  obtain ⟨p, hp, -⟩ := h.wellFormed.parent i hRoot hNamed.1
  have hPlain : ∀ word ∈ Lexicon.keywords, ':' ∉ word.toList := by decide
  by_cases hTop : p = root
  · have hNames : t.names i = [(t.get i).name] := by
      rw [h.wellFormed.names_of_parent hNamed.1 hp, hTop, h.wellFormed.names_root, List.nil_append]
    rw [scopedName_eq, hNames, String.intercalate_singleton] at hMem
    exact h.unreserved i hDefinition hMem
  · obtain ⟨-, hPlace, -⟩ := h.wellFormed.parent_place hNamed.1 hp
    have hFound := (hPlace.resolve_left hTop).1
    exact hPlain _ hMem (h.wellFormed.colon_mem_scopedName hp hFound.1 hTop)

/-- None of the texts of a definition is the keyword of a definition. -/
theorem headTexts_ne (h : t.Concluded) {d : Definition} (hd : (t.get i).definition? = some d)
    {s : String} (hs : s ∈ t.headTexts d) {k : EntityKind} (hk : k.isDefinition = true) :
    s ≠ k.keyword := by
  rcases List.mem_append.mp hs with hBase | hLocal
  · obtain ⟨b, hb, rfl⟩ := List.mem_map.mp hBase
    obtain ⟨-, hNamed, hKind, -⟩ := (h.reachable.heads hd).bases b hb
    have hDefinition := h.wellFormed.definition i (lt_of_definition? (Option.isSome_of_eq_some hd))
      (Option.isSome_of_eq_some hd)
    obtain ⟨e, he⟩ := h.reachable.isDefinition (hKind ▸ hDefinition)
    intro hEq
    exact h.scopedName_notMem_keywords hNamed (Option.isSome_of_eq_some he)
      (hEq ▸ EntityKind.keyword_mem_keywords hk)
  · split at hLocal
    · rw [List.mem_singleton.mp hLocal]
      exact EntityKind.keyword_ne_local k
    · cases hLocal

/-- Unions have no bases. -/
theorem bases_of_union (h : t.Concluded) {d : Definition} (hd : (t.get i).definition? = some d)
    (hUnion : (t.get i).kind = .union) : d.bases = [] := by
  refine List.eq_nil_iff_forall_not_mem.mpr fun b hb => ?_
  obtain ⟨-, -, hKind, -, hInherits⟩ := (h.reachable.heads hd).bases b hb
  rw [hKind, hUnion] at hInherits
  cases hInherits

end Concluded

/-- Texts that are no keywords of definitions are no part of an announcement. -/
theorem eq_nil_of_texts (ht : t.Concluded) (hu : u.Concluded) {texts : List String}
    (hTexts : ∀ s ∈ texts, ∀ {k : EntityKind}, k.isDefinition = true → s ≠ k.keyword)
    (hTrails : t.Trails around rest) (hTrails' : u.Trails around' (texts.map Trait.text ++ rest)) :
    texts = [] := by
  -- Behind a part of the announcement there would be no announcement.
  have hKeyword : ∀ (k : EntityKind) (us : List Trait), rest ≠ .text k.keyword :: us := by
    rintro k us rfl
    obtain ⟨s, -, -, hEq, hColon, -⟩ := hTrails.cons ht
    rw [← Trait.text.inj hEq] at hColon
    exact k.colon_notMem_keyword hColon
  have hType : ∀ (s : String) (n : Nat) (us : List Trait), rest ≠ .text s :: .number n :: us := by
    rintro s n us rfl
    obtain ⟨_, _, _, -, -, hEq, -⟩ := hTrails.cons ht
    cases hEq
  cases texts with
  | nil => rfl
  | cons s texts =>
    obtain ⟨-, k, us, -, -, hBehind, hKind⟩ := hTrails'.cons hu
    cases texts with
    | nil => exact absurd hBehind (hKeyword k us)
    | cons s' texts =>
      obtain ⟨hHead, hTail⟩ := List.cons.inj hBehind
      obtain ⟨s'', n, vs, rfl⟩ := hKind.resolve_left fun hDefinition =>
        hTexts s' (by simp) hDefinition (Trait.text.inj hHead)
      cases texts with
      | nil => exact absurd hTail (hType s'' n vs)
      | cons _ texts =>
        have hNumber := (List.cons.inj hTail).2
        cases texts with
        | nil => exact absurd hNumber (hTrails.proceeds.head n vs)
        | cons => cases (List.cons.inj hNumber).1

/-- The data of an entity does not go on where that of its twin ends. -/
theorem Level.eq_nil_of_longer {inner' : EntityId → List Trait} (h : t.Level around inner rest i)
    (h' : u.Level around' inner' rest' j) (ht : t.Concluded) (hu : u.Concluded) (hct : t.Cased)
    (hcu : u.Cased) (hBeside : Beside t u around around')
    (hKind : (t.get i).kind = (u.get j).kind) (hNames : t.names i = u.names j)
    (hLonger : t.dataTraits inner (t.get i).data = u.dataTraits inner' (u.get j).data ++ ts)
    (hRest : rest' = ts ++ rest) : ts = [] := by
  rcases h.registrable with hDefinition | hDeclaration
  · obtain ⟨d, hd⟩ := ht.reachable.isDefinition hDefinition
    obtain ⟨e, he⟩ := hu.reachable.isDefinition (hKind ▸ hDefinition)
    rw [Entity.data_of_definition? hd, Entity.data_of_definition? he, dataTraits, dataTraits]
      at hLonger
    cases hSwitch : d.switchType with
    | none =>
      rw [definitionTraits_of_none hSwitch] at hLonger
      cases hSwitch' : e.switchType with
      | none =>
        -- What goes on is a part of the texts of the definition.
        rw [definitionTraits_of_none hSwitch'] at hLonger
        obtain ⟨texts, texts', hTexts, -, rfl⟩ := List.map_eq_append_iff.mp hLonger
        have hNil : texts' = [] := by
          refine eq_nil_of_texts ht hu (fun s hs _ => ht.headTexts_ne hd (hTexts ▸ ?_)) h.trails
            (hRest ▸ h'.trails)
          exact List.mem_append_right _ hs
        rw [hNil, List.map_nil]
      | some type =>
        obtain ⟨n, us, hNumber⟩ := definitionTraits_of_some u inner'
          (hu.bases_of_union he (hu.reachable.kind_of_switchType he (hSwitch' ▸ rfl))) hSwitch'
        have hMem : Trait.number n ∈ (t.headTexts d).map Trait.text := by
          rw [hLonger, hNumber]
          simp
        simp at hMem
    | some type =>
      cases hSwitch' : e.switchType with
      | none =>
        -- Behind the text `local` or nothing there is a type, but no announcement.
        have hUnion := ht.reachable.kind_of_switchType hd (hSwitch ▸ rfl)
        obtain ⟨n, us, hNumber⟩ := definitionTraits_of_some t inner
          (ht.bases_of_union hd hUnion) hSwitch
        rw [hNumber, definitionTraits_of_none hSwitch', headTexts,
          hu.bases_of_union he (hKind ▸ hUnion)] at hLonger
        have hTrails := hRest ▸ h'.trails
        cases hLocal : e.isLocal with
        | true =>
          rw [hLocal] at hLonger
          obtain ⟨-, hTail⟩ := List.cons.inj hLonger
          exact absurd (congrArg (· ++ rest) hTail.symm) (hTrails.proceeds.head n _)
        | false =>
          rw [hLocal] at hLonger
          change _ = ts at hLonger
          rw [← hLonger] at hTrails
          obtain ⟨_, _, _, -, -, hEq, -⟩ := hTrails.cons hu
          cases hEq
      | some type' =>
        obtain ⟨c, hc, -⟩ := h.first_case ht hct hd (hSwitch ▸ rfl)
        obtain ⟨c', hc', hCase, hAnnounces⟩ := h'.first_case hu hcu he (hSwitch' ▸ rfl)
        have hBelow := hBeside.cons (ht.whole_of_mem h.ne_root hc) (hu.whole_of_mem h'.ne_root hc')
          hKind hNames
        have hAway := h.away ht
        rw [Entity.data_of_definition? hd, dataTraits, hLonger] at hAway
        exact hBelow.eq_nil ht hu List.mem_cons_self hc' (hRest ▸ hAnnounces) hAway.suffix
          (Or.inr hCase)
  · obtain ⟨e, he⟩ := Option.isSome_iff_exists.mp
      ((hu.reachable.isDeclaration h'.named.1).trans (hKind ▸ hDeclaration))
    have hBelow := hBeside.cons (h.whole_of_isDeclaration ht hDeclaration)
      (h'.whole_of_isDeclaration hu (hKind ▸ hDeclaration)) hKind hNames
    have hAway := h.away ht
    rw [hLonger, Entity.data_of_declaration? he, dataTraits, declarationTraits_eq, ← List.append_assoc]
      at hAway
    rcases hRest ▸ h'.trails with hNil | ⟨a', ha', -, y', hy', hAnnounces⟩
    · exact (List.append_eq_nil_iff.mp hNil).1
    · exact hBelow.eq_nil ht hu ha' hy' hAnnounces hAway.suffix (Or.inl (by simp))

/-- Entities of one kind and one name whose data begins traits that are the same have the same
traits of data. -/
theorem Level.data_eq {inner' : EntityId → List Trait} (h : t.Level around inner rest i)
    (h' : u.Level around' inner' rest' j) (ht : t.Concluded) (hu : u.Concluded) (hct : t.Cased)
    (hcu : u.Cased) (hBeside : Beside t u around around')
    (hKind : (t.get i).kind = (u.get j).kind) (hNames : t.names i = u.names j)
    (hEq : t.dataTraits inner (t.get i).data ++ rest =
      u.dataTraits inner' (u.get j).data ++ rest') :
    t.dataTraits inner (t.get i).data = u.dataTraits inner' (u.get j).data ∧ rest = rest' := by
  rcases List.append_eq_append_iff.mp hEq with ⟨ts, hLonger, hRest⟩ | ⟨ts, hLonger, hRest⟩
  · obtain rfl := h'.eq_nil_of_longer h hu ht hcu hct hBeside.symm hKind.symm hNames.symm hLonger hRest
    exact ⟨by rw [hLonger, List.append_nil], hRest⟩
  · obtain rfl := h.eq_nil_of_longer h' ht hu hct hcu hBeside hKind hNames hLonger hRest
    exact ⟨by rw [hLonger, List.append_nil], hRest.symm⟩

/-! ## Matching -/

/-- Whether two entities have the same name and kind, their data agrees, and their members and their
parameters match one by one. -/
inductive Matches (t u : Tree) : EntityId → EntityId → Prop where
  | intro {i j : EntityId} (kind : (t.get i).kind = (u.get j).kind)
      (name : (t.get i).name = (u.get j).name) (scopedName : t.scopedName i = u.scopedName j)
      (declaration : ∀ d e, (t.get i).declaration? = some d → (u.get j).declaration? = some e →
        d.Agrees t u e)
      (children : List.Forall₂ (Matches t u) (t.get i).children (u.get j).children)
      (parameters : List.Forall₂ (Matches t u) (t.parameters i) (u.parameters j)) :
      Matches t u i j

namespace Concluded

theorem scopedName_ne_empty (h : t.Concluded) (hNamed : t.Named i) (hRoot : i ≠ root) :
    t.scopedName i ≠ "" := by
  intro hEmpty
  have hLength := length_le_join fun _ => h.wellFormed.isName_of_mem_names hNamed
  rw [← scopedName_eq, hEmpty] at hLength
  exact h.wellFormed.names_ne_nil hNamed hRoot (List.eq_nil_of_length_eq_zero (Nat.le_zero.mp hLength))

/-- Declarations of one kind and of the same traits agree. -/
theorem agrees (ht : t.Concluded) (hu : u.Concluded) {inner' : EntityId → List Trait}
    (hKind : (t.get i).kind = (u.get j).kind)
    (h : t.dataTraits inner (t.get i).data = u.dataTraits inner' (u.get j).data) {d e : Declaration}
    (hd : (t.get i).declaration? = some d) (he : (u.get j).declaration? = some e) :
    d.Agrees t u e := by
  have hNames : ∀ {t : Tree} {i : EntityId} {d : Declaration}, t.Concluded →
      (t.get i).declaration? = some d → ∀ x ∈ d.raises, t.scopedName x ≠ "" := by
    intro t i d h hd x hx
    obtain ⟨hNamed, hException⟩ := h.reachable.exceptions hd
      (List.mem_append_left _ (List.mem_append_left _ hx))
    refine h.scopedName_ne_empty hNamed ?_
    rintro rfl
    rw [h.wellFormed.rootKind] at hException
    cases hException
  rw [Entity.data_of_declaration? hd, Entity.data_of_declaration? he] at h
  refine agrees_of_traits (ht.suited.suits i d hd) (hKind ▸ hu.suited.suits j e he)
    (fun hCase => ht.suited.labelled i d hd hCase (Option.some_ne_none i).symm)
    (fun hCase => hu.suited.labelled j e he (hKind ▸ hCase) (Option.some_ne_none j).symm)
    (fun hOr => ⟨ht.silent i d hd hOr, hu.silent j e he (hKind ▸ hOr)⟩)
    (hNames ht hd) (hNames hu he) h

theorem name_eq (ht : t.Concluded) (hu : u.Concluded) (hi : t.Named i) (hj : u.Named j)
    (hRoot : i ≠ root) (hRoot' : j ≠ root) (hNames : t.names i = u.names j) :
    (t.get i).name = (u.get j).name := by
  obtain ⟨p, hp, -⟩ := ht.wellFormed.parent i hRoot hi.1
  obtain ⟨q, hq, -⟩ := hu.wellFormed.parent j hRoot' hj.1
  rw [ht.wellFormed.names_of_parent hi.1 hp, hu.wellFormed.names_of_parent hj.1 hq] at hNames
  exact List.singleton_inj.mp (List.append_inj' hNames rfl).2

/-- Only operations have parameters, and they have no other members. -/
theorem members_eq (h : t.Concluded) (i : EntityId) :
    if (t.get i).kind = .operation then (t.get i).children = [] else t.parameters i = [] := by
  have hOwner : ∀ c ∈ t.members i, ((t.get c).kind = .parameter ↔ (t.get i).kind = .operation) :=
    fun c hc => (h.wellFormed.parent_place (h.place hc).2.1.1 (h.place hc).1).2.2.2
  split
  · rename_i hOperation
    refine List.eq_nil_iff_forall_not_mem.mpr fun c hc => ?_
    exact (h.reachable.parent_of_mem_children hc).2.2
      ((hOwner c (List.mem_append_left _ hc)).mpr hOperation)
  · rename_i hOperation
    refine List.eq_nil_iff_forall_not_mem.mpr fun c hc => hOperation ?_
    exact (hOwner c (List.mem_append_right _ hc)).mp (h.suited.parameters i c hc).2

end Concluded

/-- Members that match are children and parameters that match. -/
theorem forall₂_members (ht : t.Concluded) (hu : u.Concluded) {R : EntityId → EntityId → Prop}
    (hKind : (t.get i).kind = (u.get j).kind) (h : List.Forall₂ R (t.members i) (u.members j)) :
    List.Forall₂ R (t.get i).children (u.get j).children ∧
      List.Forall₂ R (t.parameters i) (u.parameters j) := by
  have hEq := ht.members_eq i
  have hEq' := hu.members_eq j
  rw [← hKind] at hEq'
  unfold members at h
  by_cases hOperation : (t.get i).kind = .operation
  · rw [if_pos hOperation] at hEq hEq'
    rw [hEq, hEq'] at h ⊢
    exact ⟨.nil, h⟩
  · rw [if_neg hOperation] at hEq hEq'
    rw [hEq, hEq', List.append_nil, List.append_nil] at h
    rw [hEq, hEq']
    exact ⟨h, .nil⟩

/-- What trails behind the members of an entity announces no member of its twin. -/
theorem Trails.not_member (h : t.Trails around ts) (ht : t.Concluded) (hu : u.Concluded)
    (hShorter : ∀ a ∈ around, (t.names a).length < (u.names j).length)
    {y' : EntityId} (hy' : y' ∈ u.members j) :
    ¬ Announces (u.scopedName y') (u.get y').kind ts := by
  intro hAnnounces
  rcases h with rfl | ⟨a, ha, -, y, hy, us, rfl, -⟩
  · obtain ⟨us, hEq, -⟩ := hAnnounces
    cases hEq
  · obtain ⟨hParent, hNamed, -⟩ := ht.place hy
    obtain ⟨hParent', hNamed', -⟩ := hu.place hy'
    have hNames := ht.wellFormed.names_parent_eq hu.wellFormed hNamed hNamed' hParent hParent'
      hAnnounces.inj.1
    exact absurd (congrArg List.length hNames) (Nat.ne_of_lt (hShorter a ha))

/-- Members that list the same, with what trails behind them, match one by one if one of each do. -/
theorem matching_members {inner' : EntityId → List Trait} {ids ids' : List EntityId}
    (h : t.Descends around i) (h' : u.Descends around' j) (ht : t.Concluded) (hu : u.Concluded)
    (hNames : t.names i = u.names j)
    (hWalks : ∀ x ∈ t.dependencies i, t.Walk (i :: around) x (inner x))
    (hWalks' : ∀ x ∈ u.dependencies j, u.Walk (j :: around') x (inner' x))
    (hRest : t.Trails around rest) (hRest' : u.Trails around' rest')
    (hSteps : ∀ c ∈ t.members i, ∀ c' ∈ u.members j, ∀ {rest rest' : List Trait},
      t.Trails (i :: around) rest → u.Trails (j :: around') rest' →
        inner c ++ rest = inner' c' ++ rest' →
          inner c = inner' c' ∧ rest = rest' ∧ Matches t u c c')
    (hIds : ∀ c ∈ ids, c ∈ t.members i) (hIds' : ∀ c ∈ ids', c ∈ u.members j)
    (hEq : ids.flatMap inner ++ rest = ids'.flatMap inner' ++ rest') :
    ids.flatMap inner = ids'.flatMap inner' ∧ rest = rest' ∧
      List.Forall₂ (Matches t u) ids ids' := by
  induction ids generalizing ids' with
  | nil =>
    cases ids' with
    | nil => exact ⟨rfl, hEq, .nil⟩
    | cons c' ids' =>
      have hAnnounces := (h'.trails_members hu hIds' hWalks' hRest').2 c' rfl
      rw [← hEq] at hAnnounces
      exact absurd hAnnounces
        (hRest.not_member ht hu (hNames ▸ h.shorter) (hIds' c' List.mem_cons_self))
  | cons c ids ih =>
    cases ids' with
    | nil =>
      have hAnnounces := (h.trails_members ht hIds hWalks hRest).2 c rfl
      rw [hEq] at hAnnounces
      exact absurd hAnnounces
        (hRest'.not_member hu ht (hNames ▸ h'.shorter) (hIds c List.mem_cons_self))
    | cons c' ids' =>
      have hBelow := fun x hx => hIds x (List.mem_cons_of_mem c hx)
      have hBelow' := fun x hx => hIds' x (List.mem_cons_of_mem c' hx)
      simp only [List.flatMap_cons, List.append_assoc] at hEq ⊢
      obtain ⟨hFirst, hEq, hMatches⟩ := hSteps c (hIds c List.mem_cons_self) c'
        (hIds' c' List.mem_cons_self) (h.trails_members ht hBelow hWalks hRest).1
        (h'.trails_members hu hBelow' hWalks' hRest').1 hEq
      obtain ⟨hMembers, hTail, hAll⟩ := ih hBelow hBelow' hEq
      exact ⟨by rw [hFirst, hMembers], hTail, .cons hMatches hAll⟩

/-- Walks of two trees that list the same, with an announcement or nothing behind them, lead through
entities that match. -/
theorem Walk.matching (hWalk : t.Walk around i ts) (hWalk' : u.Walk around' j ts')
    (ht : t.Concluded) (hu : u.Concluded) (hct : t.Cased) (hcu : u.Cased)
    (hBeside : Beside t u around around') (h : t.Descends around i) (h' : u.Descends around' j)
    (hRest : t.Trails around rest) (hRest' : u.Trails around' rest')
    (hEq : ts ++ rest = ts' ++ rest') : ts = ts' ∧ rest = rest' ∧ Matches t u i j := by
  induction hWalk generalizing around' j ts' rest rest' with
  | back hMem => exact absurd hMem h.notMem
  | @on around i inner hNot hInner ih =>
    cases hWalk' with
    | back hMem => exact absurd hMem h'.notMem
    | @on _ _ inner' hNot' hInner' =>
      rw [ownTraits_eq, ownTraits_eq] at hEq ⊢
      simp only [List.cons_append, List.append_assoc, List.cons.injEq, Trait.text.injEq] at hEq ⊢
      obtain ⟨hName, hKeyword, hEq⟩ := hEq
      have hKind := EntityKind.keyword_inj hKeyword
      have hNames := ht.wellFormed.names_eq_of_scopedName hu.wellFormed h.named h'.named hName
      obtain ⟨hData, hEq⟩ := (h.level ht hInner hRest).data_eq (h'.level hu hInner' hRest') ht hu hct
        hcu hBeside hKind hNames hEq
      -- Members are walked to inside of the entities, which have members and so are whole.
      obtain ⟨hMembers, hTail, hAll⟩ := matching_members h h' ht hu hNames hInner hInner' hRest hRest'
        (fun c hc c' hc' _ _ hTrails hTrails' hBelow =>
          ih c (mem_dependencies_of_mem_members hc)
            (hInner' c' (mem_dependencies_of_mem_members hc'))
            (hBeside.cons (ht.whole_of_mem h.ne_root hc) (hu.whole_of_mem h'.ne_root hc') hKind
              hNames)
            (h.member ht hc) (h'.member hu hc') hTrails hTrails' hBelow)
        (fun _ hc => hc) (fun _ hc => hc) hEq
      obtain ⟨hChildren, hParameters⟩ := forall₂_members ht hu hKind hAll
      refine ⟨⟨hName, hKeyword, by rw [hData, hMembers]⟩, hTail, ?_⟩
      exact .intro hKind (ht.name_eq hu h.named h'.named h.ne_root h'.ne_root hNames) hName
        (fun _ _ => ht.agrees hu hKind hData) hChildren hParameters

theorem traits_eq_ownTraits (t : Tree) (i : EntityId) :
    ∃ inner, t.traits i = t.ownTraits inner i := by
  have hWalk := (t.walk_iff i _).mpr rfl
  generalize t.traits i = ts at hWalk
  cases hWalk with
  | back hMem => cases hMem
  | on => exact ⟨_, rfl⟩

theorem Concluded.descends (h : t.Concluded) (hi : Registrable (t.get i).kind) : t.Descends [] i := by
  have hLt : i < t.size := by
    by_cases hLt : i < t.size
    · exact hLt
    · rw [get_of_le hLt] at hi
      rcases hi with hFalse | hFalse <;> cases hFalse
  have hRoot : i ≠ root := by
    rintro rfl
    rw [h.wellFormed.rootKind] at hi
    rcases hi with hFalse | hFalse <;> cases hFalse
  exact ⟨h.named hRoot hLt, hRoot, hi, nofun⟩

/-- Entities of the same traits match. -/
theorem matches_of_traits (ht : t.Concluded) (hu : u.Concluded) (hct : t.Cased) (hcu : u.Cased)
    (hi : Registrable (t.get i).kind) (h : t.traits i = u.traits j) : Matches t u i j := by
  have hKind : (t.get i).kind = (u.get j).kind := by
    obtain ⟨inner, hOwn⟩ := t.traits_eq_ownTraits i
    obtain ⟨inner', hOwn'⟩ := u.traits_eq_ownTraits j
    rw [hOwn, hOwn', ownTraits, ownTraits] at h
    exact EntityKind.keyword_inj (Trait.text.inj (List.cons.inj (List.cons.inj h).2).1)
  have hWalk := (t.walk_iff i _).mpr rfl
  have hWalk' := (u.walk_iff j _).mpr rfl
  exact (hWalk.matching hWalk' ht hu hct hcu (.nil t u) (ht.descends hi) (hu.descends (hKind ▸ hi))
    (Or.inl rfl) (Or.inl rfl) (by rw [h])).2.2

end Tree

end IdlReader
