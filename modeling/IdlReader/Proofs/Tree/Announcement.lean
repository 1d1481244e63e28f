import IdlReader.Proofs.Bracket.Tree
import IdlReader.Proofs.Stage.Part
import IdlReader.Proofs.Suited.Tree
import IdlReader.Proofs.Tree.Fingerprint
import IdlReader.Proofs.Tree.Identity
import IdlReader.Proofs.Tree.Precedence

/-!
# Announcements among traits

A walk announces every entity that it goes into: by its scoped name and the keyword of its kind, and
behind them by what no end of a declaration looks like. Nothing marks the end of a list of members, so
where a list ends is told by what is announced there. This works because an announcement inside of the
walk from a type never looks like that of a member of the entities `inner` that the walk is inside of.

* `Announces`: how an entity is announced.
* `PointsAway`: what is announced at a place is no member of the entities `inner`. Bases in front of it
  may look like an announcement; they stand behind no end of a list, and are no cases.
* `Walk.away`: a walk points away from the entities around it at every place.
-/

namespace IdlReader

namespace EntityKind

theorem find?_keyword (k : EntityKind) : (all.find? fun k' => k'.keyword == k.keyword) = some k := by
  cases k <;> decide

theorem keyword_inj {k k' : EntityKind} (h : k.keyword = k'.keyword) : k = k' := by
  have hFind := find?_keyword k
  rw [h, find?_keyword k'] at hFind
  exact (Option.some.inj hFind).symm

theorem colon_notMem_keyword (k : EntityKind) : ':' ∉ k.keyword.toList := by
  cases k <;> decide

theorem keyword_ne_local (k : EntityKind) : "local" ≠ k.keyword := by
  cases k <;> decide

end EntityKind

namespace Trait

def isText : Trait → Bool
  | text _ => true
  | _ => false

/-- The first of traits that is no text. -/
def mark (ts : List Trait) : Option Trait := ts.find? fun x => !x.isText

theorem mark_append (ts us : List Trait) : mark (ts ++ us) = (mark ts).or (mark us) :=
  List.find?_append

theorem mark_append_ne_stop {ts us : List Trait} (h : mark ts ≠ some .stop)
    (h' : mark us ≠ some .stop) : mark (ts ++ us) ≠ some .stop := by
  rw [mark_append]
  cases hMark : mark ts with
  | none => exact h'
  | some x =>
    rw [hMark] at h
    exact h

/-- Texts and ends of lists lead to the end of a list. -/
theorem mark_closing {ts : List Trait} (h : ∀ n, .number n ∉ ts) (us : List Trait) :
    mark (ts ++ .stop :: us) = some .stop := by
  induction ts with
  | nil => rfl
  | cons x ts ih =>
    cases x with
    | text s => exact ih fun n hn => h n (List.mem_cons_of_mem _ hn)
    | number n => exact absurd List.mem_cons_self (h n)
    | stop => rfl

/-! ## Announcements -/

/-- Whether traits announce an entity of a name and a kind. -/
def Announces (name : String) (kind : EntityKind) (ts : List Trait) : Prop :=
  ∃ us, ts = .text name :: .text kind.keyword :: us ∧ mark us ≠ some .stop ∧
    (∀ n vs, us ≠ .number n :: vs) ∧
    (kind.isDeclaration = true → ∃ s n vs, us = .text s :: .number n :: vs)

/-- Whether traits complete the announcement of nothing. -/
def Unannounced (ts : List Trait) : Prop := ∀ name kind, ¬ Announces name kind (.text name :: ts)

variable {name name' : String} {kind kind' : EntityKind} {s : String} {ts us : List Trait}

theorem Announces.inj (h : Announces name kind (.text s :: ts)) :
    s = name ∧ ∃ us, ts = .text kind.keyword :: us ∧ mark us ≠ some .stop ∧
      (∀ n vs, us ≠ .number n :: vs) ∧
      (kind.isDeclaration = true → ∃ s n vs, us = .text s :: .number n :: vs) := by
  obtain ⟨us, hEq, hRest⟩ := h
  obtain ⟨hName, hTail⟩ := List.cons.inj hEq
  exact ⟨Trait.text.inj hName, us, hTail, hRest⟩

theorem Announces.mark_ne (h : Announces name kind ts) : mark ts ≠ some .stop := by
  obtain ⟨us, rfl, hMark, -⟩ := h
  exact hMark

theorem unannounced_nil : Unannounced [] := by
  intro name kind h
  obtain ⟨-, us, hNil, -⟩ := h.inj
  cases hNil

theorem unannounced_of_mark (h : mark ts = some .stop) : Unannounced ts :=
  fun _ _ hAnnounces => hAnnounces.mark_ne h

theorem unannounced_number (n : Nat) (ts : List Trait) : Unannounced (.number n :: ts) := by
  intro name kind h
  obtain ⟨-, us, hTail, -⟩ := h.inj
  cases hTail

theorem unannounced_type (s : String) (n : Nat) (ts : List Trait) :
    Unannounced (.text s :: .number n :: ts) := by
  intro name kind h
  obtain ⟨-, us, hTail, -, hNumber, -⟩ := h.inj
  exact hNumber n ts (List.cons.inj hTail).2.symm

theorem unannounced_text (h : ∀ k : EntityKind, s ≠ k.keyword) (ts : List Trait) :
    Unannounced (.text s :: ts) := by
  intro name kind hAnnounces
  obtain ⟨-, us, hTail, -⟩ := hAnnounces.inj
  exact h kind (Trait.text.inj (List.cons.inj hTail).1)

theorem unannounced_of_colon (h : ':' ∈ s.toList) (ts : List Trait) : Unannounced (.text s :: ts) :=
  unannounced_text (fun k hKeyword => k.colon_notMem_keyword (hKeyword ▸ h)) ts

end Trait

open Trait

namespace Tree

variable {t : Tree} {inner : List EntityId} {i : EntityId} {rest ts us : List Trait} {b : Bool}

/-- What holds of the tree of a document that was read to its end. -/
structure Concluded (t : Tree) : Prop where
  reachable : t.Reachable
  calm : t.Calm
  suited : t.Suited none
  unreserved : t.Unreserved
  silent : ∀ i d, (t.get i).declaration? = some d →
    (t.get i).kind = .attr ∨ (t.get i).kind = .operation → d.value.display = ""

namespace Concluded

theorem wellFormed (h : t.Concluded) : t.WellFormed := wellFormed_of_reachable h.reachable

theorem named (h : t.Concluded) (hRoot : i ≠ root) (hi : i < t.size) : t.Named i :=
  ⟨hi, h.calm i hRoot hi⟩

/-- The place of a member or a parameter. -/
theorem place (h : t.Concluded) {p c : EntityId}
    (hc : c ∈ (t.get p).children ++ t.parameters p) :
    (t.get c).parent = some p ∧ t.Named c ∧ p < c ∧ (t.get c).kind ≠ .directive := by
  have hPlace : (t.get c).parent = some p ∧ (t.get c).kind ≠ .directive := by
    rcases List.mem_append.mp hc with hChild | hParameter
    · exact ⟨(h.reachable.parent_of_mem_children hChild).2.1,
        h.reachable.directive_of_mem_children hChild⟩
    · obtain ⟨hParent, hKind⟩ := h.suited.parameters p c hParameter
      refine ⟨hParent, ?_⟩
      rw [hKind]
      decide
  have hLt := lt_size_of_parent hPlace.1
  have hFramed := h.wellFormed.toFramed
  exact ⟨hPlace.1, h.named (hFramed.ne_root_of_parent hPlace.1) hLt,
    hFramed.parent_lt hLt hPlace.1, hPlace.2⟩

theorem isType_of_mem_references (h : t.Concluded) {x : EntityId}
    (hx : x ∈ (t.get i).data.references) : t.IsType x := by
  cases hData : (t.get i).data with
  | root | record =>
    rw [hData] at hx
    cases hx
  | definition d =>
    have hd : (t.get i).definition? = some d := by rw [Entity.definition?, hData]
    rw [hData] at hx
    change x ∈ DeclaredType.optionReferences d.switchType at hx
    cases hSwitch : d.switchType with
    | none =>
      rw [hSwitch] at hx
      cases hx
    | some type =>
      rw [hSwitch] at hx
      exact ((h.reachable.heads hd).switchType type hSwitch x hx).2
  | declaration d =>
    have hd : (t.get i).declaration? = some d := by rw [Entity.declaration?, hData]
    rw [hData] at hx
    exact h.reachable.typed i d hd x hx

/-- What a type names is no root, no module, no case and no directive. -/
theorem kind_of_isType (h : t.Concluded) (hType : t.IsType i) :
    i ≠ root ∧ (t.get i).kind ≠ .module ∧ (t.get i).kind ≠ .caseEntry := by
  have hKind := hType.2
  refine ⟨?_, ?_, ?_⟩
  · rintro rfl
    rw [h.wellFormed.rootKind] at hKind
    cases hKind
  all_goals
    intro hFalse
    rw [hFalse] at hKind
    cases hKind

end Concluded

/-! ## Places that point away -/

/-- Whether a name and a kind are those of a member of an entity that is not among `inner`. -/
def Elsewhere (t : Tree) (inner : List EntityId) (name : String) (kind : EntityKind) : Prop :=
  ∃ y q, t.Named y ∧ (t.get y).parent = some q ∧ q ∉ inner ∧ q ≠ root ∧
    (t.get q).kind ≠ .module ∧ (t.get y).kind = kind ∧ t.scopedName y = name

/-- Whether a member of an entity that traits announce is not one of `inner`. It need not be if the
traits do not stand behind the end of a list (`behind`), unless the member is a case. -/
def PointsAway (t : Tree) (inner : List EntityId) (behind : Bool) (ts : List Trait) : Prop :=
  ∀ name kind, Announces name kind ts → ':' ∈ name.toList → (behind = true ∨ kind = .caseEntry) →
    t.Elsewhere inner name kind

theorem PointsAway.mono (h : t.PointsAway inner true ts) : t.PointsAway inner b ts :=
  fun name kind hAnnounces hColon _ => h name kind hAnnounces hColon (Or.inl rfl)

theorem pointsAway_of_mark (h : mark ts = some .stop) : t.PointsAway inner b ts :=
  fun _ _ hAnnounces => absurd h hAnnounces.mark_ne

theorem pointsAway_text {s : String} (h : Unannounced ts) : t.PointsAway inner b (.text s :: ts) := by
  intro name kind hAnnounces
  obtain ⟨rfl, -⟩ := hAnnounces.inj
  exact absurd hAnnounces (h s kind)

theorem pointsAway_of_colon {s : String} (h : ':' ∉ s.toList) :
    t.PointsAway inner b (.text s :: ts) := by
  intro name kind hAnnounces hColon
  obtain ⟨rfl, -⟩ := hAnnounces.inj
  exact absurd hColon h

theorem pointsAway_number (n : Nat) (ts : List Trait) : t.PointsAway inner b (.number n :: ts) := by
  rintro name kind ⟨us, hEq, -⟩
  cases hEq

/-- Whether traits with others behind them point away at every place. -/
def Away (t : Tree) (inner : List EntityId) (rest : List Trait) : Bool → List Trait → Prop
  | _, [] => True
  | b, x :: ts => t.PointsAway inner b (x :: (ts ++ rest)) ∧ Away t inner rest (x == .stop) ts

namespace Away

theorem mono (h : t.Away inner rest true ts) : t.Away inner rest b ts := by
  cases ts with
  | nil => trivial
  | cons x ts => exact ⟨h.1.mono, h.2⟩

theorem append (h : t.Away inner (us ++ rest) b ts) (h' : t.Away inner rest true us) :
    t.Away inner rest b (ts ++ us) := by
  induction ts generalizing b with
  | nil => exact h'.mono
  | cons x ts ih =>
    refine ⟨?_, ih h.2⟩
    change t.PointsAway inner b (x :: (ts ++ us ++ rest))
    rw [List.append_assoc]
    exact h.1

/-- The places behind a part of the traits. -/
theorem suffix (h : t.Away inner rest b (ts ++ us)) :
    t.Away inner rest ((ts.getLast?.map (· == .stop)).getD b) us := by
  induction ts generalizing b with
  | nil => exact h
  | cons x ts ih =>
    have hBelow := ih h.2
    cases ts with
    | nil => exact hBelow
    | cons y ts => exact hBelow

theorem flatMap {ids : List EntityId} {traits : EntityId → List Trait}
    (hStart : ∀ i ∈ ids, ∀ ts, Unannounced (traits i ++ ts))
    (h : ∀ i ∈ ids, ∀ rest, Unannounced rest → t.Away inner rest true (traits i))
    (hRest : Unannounced rest) :
    Unannounced (ids.flatMap traits ++ rest) ∧ t.Away inner rest true (ids.flatMap traits) := by
  induction ids with
  | nil => exact ⟨hRest, trivial⟩
  | cons i ids ih =>
    obtain ⟨hBelow, hAway⟩ := ih (fun x hx => hStart x (List.mem_cons_of_mem i hx))
      fun x hx => h x (List.mem_cons_of_mem i hx)
    rw [List.flatMap_cons, List.append_assoc]
    exact ⟨hStart i List.mem_cons_self _, (h i List.mem_cons_self _ hBelow).append hAway⟩

/-- Texts and ends of lists in front of the last end point away, since they announce nothing. -/
theorem closing (h : ∀ n, Trait.number n ∉ ts) : t.Away inner rest b (ts ++ [Trait.stop]) := by
  induction ts generalizing b with
  | nil => exact ⟨pointsAway_of_mark rfl, trivial⟩
  | cons x ts ih =>
    refine ⟨pointsAway_of_mark ?_, ih fun n hn => h n (List.mem_cons_of_mem x hn)⟩
    change mark (x :: (ts ++ [.stop] ++ rest)) = some .stop
    rw [List.append_assoc]
    rw [← List.cons_append]
    exact mark_closing h rest

end Away

/-! ## Types -/

section Types

variable {entity : EntityId → List Trait}

theorem unannounced_optionalTraits (type : Option DeclaredType) (h : Unannounced rest) :
    Unannounced (DeclaredType.optionalTraits entity type ++ rest) := by
  match type with
  | none => exact h
  | some ⟨_, name, _, length, _, _, _⟩ => exact unannounced_type name length _

mutual

/-- The traits of a type point away if those of what it names do. -/
theorem away_type (type : DeclaredType) {b : Bool} {rest : List Trait}
    (h : ∀ x ∈ type.references, ∀ rest, Unannounced rest → t.Away inner rest false (entity x))
    (hRest : Unannounced rest) : t.Away inner rest b (type.traits entity) := by
  match type, h with
  | ⟨_, name, definition, length, decimals, key, value⟩, h =>
    rw [DeclaredType.traits]
    refine ⟨pointsAway_text (unannounced_number length _), pointsAway_number length _,
      pointsAway_number decimals _, ?_⟩
    have hValue := away_optionalType (b := true) value
      (fun x hx => h x (by simp [DeclaredType.references, hx])) hRest
    have hBehind : Unannounced (DeclaredType.optionalTraits entity value ++ rest) :=
      unannounced_optionalTraits value hRest
    have hKey := away_optionalType (b := true) key
      (fun x hx => h x (by simp [DeclaredType.references, hx])) hBehind
    refine Away.append ?_ hValue
    refine Away.append ?_ hKey
    cases definition with
    | none => trivial
    | some x =>
      exact h x (by simp [DeclaredType.references]) _ (unannounced_optionalTraits key hBehind)

theorem away_optionalType (type : Option DeclaredType) {b : Bool} {rest : List Trait}
    (h : ∀ x ∈ DeclaredType.optionReferences type, ∀ rest, Unannounced rest →
      t.Away inner rest false (entity x))
    (hRest : Unannounced rest) :
    t.Away inner rest b (DeclaredType.optionalTraits entity type) := by
  match type, h with
  | none, _ => trivial
  | some type, h => exact away_type type h hRest

end

end Types

/-! ## Data -/

/-- What stands between the type of a declaration and its first list of exceptions of attributes. -/
def particulars (t : Tree) (d : Declaration) : List Trait :=
  flagTrait d.readonly "readonly" ++ d.direction.toList.map (fun x => Trait.text x.name) ++
    d.labels.map (fun ts => Trait.text (joinTexts ts)) ++ flagTrait d.defaultCase "default" ++
    t.nameTraits d.raises

/-- What stands behind the type of a declaration, but for the last end of a list. -/
def closingTraits (t : Tree) (d : Declaration) : List Trait :=
  d.dimensions.map (fun ts => Trait.text (joinTexts ts)) ++
    ([Trait.text d.assignmentText, Trait.text d.value.display] ++ t.particulars d) ++
    Trait.stop :: (t.nameTraits d.getRaises ++ Trait.stop :: t.nameTraits d.setRaises)

theorem declarationTraits_eq (t : Tree) (entity : EntityId → List Trait) (d : Declaration) :
    t.declarationTraits entity d = d.type.traits entity ++ (t.closingTraits d ++ [Trait.stop]) := by
  simp [declarationTraits, closingTraits, particulars]

theorem number_notMem_closingTraits (t : Tree) (d : Declaration) (n : Nat) :
    .number n ∉ t.closingTraits d := by
  simp [closingTraits, particulars, nameTraits, flagTrait, apply_ite (Trait.number n ∈ ·)]

/-- The scoped names of bases announce no case. -/
theorem Concluded.away_names (h : t.Concluded) {ids : List EntityId} (hIds : ∀ i ∈ ids, t.Named i)
    (hRest : Unannounced rest) : t.Away inner rest false (t.nameTraits ids) := by
  induction ids with
  | nil => trivial
  | cons i ids ih =>
    refine ⟨?_, ih fun x hx => hIds x (List.mem_cons_of_mem i hx)⟩
    intro name kind hAnnounces _ hCase
    obtain rfl := hCase.resolve_left (by decide)
    cases ids with
    | nil => exact absurd hAnnounces (hAnnounces.inj.1 ▸ hRest _ _)
    | cons i' ids =>
      obtain ⟨-, us, hTail, -⟩ := hAnnounces.inj
      have hName : t.scopedName i' = "case entry" := Trait.text.inj (List.cons.inj hTail).1
      have hBlank := h.wellFormed.blank_notMem_scopedName (hIds i' (by simp))
      rw [hName] at hBlank
      exact absurd (by decide) hBlank

theorem Concluded.away_data (h : t.Concluded) {entity : EntityId → List Trait}
    (hTypes : ∀ x ∈ (t.get i).data.references, ∀ rest, Unannounced rest →
      t.Away inner rest false (entity x))
    (hRest : Unannounced rest) : t.Away inner rest false (t.dataTraits entity (t.get i).data) := by
  cases hData : (t.get i).data with
  | root => trivial
  | record kind content => exact ⟨pointsAway_text hRest, trivial⟩
  | definition d =>
    have hd : (t.get i).definition? = some d := by rw [Entity.definition?, hData]
    rw [hData] at hTypes
    have hLocal : t.Away inner rest true (flagTrait d.isLocal "local") ∧
        Unannounced (flagTrait d.isLocal "local" ++ rest) := by
      cases d.isLocal with
      | false => exact ⟨trivial, hRest⟩
      | true =>
        exact ⟨⟨pointsAway_of_colon (by decide), trivial⟩,
          unannounced_text EntityKind.keyword_ne_local rest⟩
    rw [dataTraits, definitionTraits]
    refine Away.append (Away.append ?_ (away_optionalType d.switchType hTypes hLocal.2)) hLocal.1
    exact h.away_names (fun x hx => ((h.reachable.heads hd).bases x hx).2.1)
      (unannounced_optionalTraits d.switchType hLocal.2)
  | declaration d =>
    rw [hData] at hTypes
    rw [dataTraits, declarationTraits_eq]
    refine Away.append (away_type d.type hTypes ?_) (Away.closing (number_notMem_closingTraits t d))
    refine unannounced_of_mark ?_
    rw [List.append_assoc]
    exact mark_closing (number_notMem_closingTraits t d) rest

/-! ## Walks -/

namespace Walk

variable {around : List EntityId}

theorem start (h : t.Walk around i ts) : ∃ us, ts = .text (t.scopedName i) :: us := by
  cases h with
  | back => exact ⟨[], rfl⟩
  | on => exact ⟨_, rfl⟩

theorem unannounced (h : t.Walk around i ts) (hColon : ':' ∈ (t.scopedName i).toList)
    (rest : List Trait) : Unannounced (ts ++ rest) := by
  obtain ⟨us, rfl⟩ := h.start
  exact unannounced_of_colon hColon _

/-- A walk inside of some entities points away from them, if it does so where it starts. -/
theorem away (hWalk : t.Walk around i ts) (h : t.Concluded) (hInner : ∀ l ∈ inner, l ∈ around)
    (hRoot : i ≠ root) (hModule : (t.get i).kind ≠ .module) (hNamed : t.Named i)
    (hPlace : b = true ∨ (t.get i).kind = .caseEntry → ∃ q, (t.get i).parent = some q ∧
      q ∉ inner ∧ q ≠ root ∧ (t.get q).kind ≠ .module)
    (hRest : Unannounced rest) : t.Away inner rest b ts := by
  induction hWalk generalizing b rest with
  | back => exact ⟨pointsAway_text hRest, trivial⟩
  | @on around i traits hNot hWalks ih =>
    have hAround : ∀ l ∈ inner, l ∈ i :: around := fun l hl => List.mem_cons_of_mem i (hInner l hl)
    -- Members and parameters stand below the entity, which is none of those around it.
    have hMembers : ∀ ids : List EntityId, (∀ c ∈ ids, c ∈ (t.get i).children ++ t.parameters i) →
        ∀ {rest}, Unannounced rest →
          Unannounced (ids.flatMap traits ++ rest) ∧ t.Away inner rest true (ids.flatMap traits) := by
      intro ids hIds rest hRest
      have hMem : ∀ c ∈ ids, c ∈ t.dependencies i := by
        intro c hc
        rw [dependencies, List.append_assoc]
        exact List.mem_append_right _ (hIds c hc)
      refine Away.flatMap (fun c hc us => ?_) (fun c hc us hUs => ?_) hRest
      · exact (hWalks c (hMem c hc)).unannounced
          (h.wellFormed.colon_mem_scopedName (h.place (hIds c hc)).1 hNamed hRoot) us
      · obtain ⟨hParent, hNamedBelow, hLt, -⟩ := h.place (hIds c hc)
        refine ih c (hMem c hc) hAround ?_ ?_ hNamedBelow (fun _ => ?_) hUs
        · exact h.wellFormed.ne_root_of_parent hParent
        · intro hFalse
          rcases (h.suited.stands c i hParent).2.module hFalse with hUp | hUp
          · exact h.wellFormed.kind_ne_root i hRoot hNamed.1 hUp
          · exact hModule hUp
        · exact ⟨i, hParent, fun hMem => hNot (hInner i hMem), hRoot, hModule⟩
    obtain ⟨hBehind, hParameters⟩ := hMembers (t.parameters i)
      (fun c hc => List.mem_append_right _ hc) hRest
    obtain ⟨hBehind', hChildren⟩ := hMembers (t.get i).children
      (fun c hc => List.mem_append_left _ hc) hBehind
    rw [ownTraits]
    refine ⟨?_, pointsAway_of_colon (t.get i).kind.colon_notMem_keyword, ?_⟩
    · intro name kind hAnnounces hColon hCase
      obtain ⟨rfl, us, hTail, -⟩ := hAnnounces.inj
      have hKind : (t.get i).kind = kind :=
        EntityKind.keyword_inj (Trait.text.inj (List.cons.inj hTail).1)
      obtain ⟨q, hParent, hq, hqRoot, hqModule⟩ := hPlace (hKind ▸ hCase)
      exact ⟨i, q, hNamed, hParent, hq, hqRoot, hqModule, hKind, rfl⟩
    · refine Away.append (Away.append (h.away_data (fun x hx us hUs => ?_) hBehind') hChildren)
        hParameters
      have hType := h.isType_of_mem_references hx
      obtain ⟨hxRoot, hxModule, hxCase⟩ := h.kind_of_isType hType
      refine ih x (by simp [dependencies, hx]) hAround hxRoot hxModule hType.1 (fun hOr => ?_) hUs
      exact absurd (hOr.resolve_left (by decide)) hxCase

end Walk

end Tree

end IdlReader
