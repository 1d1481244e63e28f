import Mathlib.Logic.Equiv.Basic
import IdlReader.Proofs.Bracket.Content
import IdlReader.Proofs.Mirror.Insertion
import IdlReader.Proofs.Suited.Content
import IdlReader.Proofs.Tree.Fingerprint
import IdlReader.Proofs.Tree.Layout
import IdlReader.Proofs.Tree.Matching

/-!
# Fingerprints in documents

The number of an entity is its place in the array of entities, and nothing that was written. A tree
may keep the same entities under other numbers, with other places, comments and recorded directives.
Entities that stand for each other have the same fingerprint: numbers only guide the walk through
what an entity depends on, and the walk goes back from the same entities in both trees.

The walk behind a fingerprint ends in every document, also where types refer to themselves and to
each other, and a fingerprint does not depend on the order in which the entities of the document
were numbered. What the walk lists tells in turn what an entity consists of: entities of two
documents that have the same traits have the same members, with the same declarations.

* `Renumbers.scopedName`, `Renumbers.traitsWithin`: what entities that stand for each other share.
* `Renumbers.fingerprint`: fingerprints.
* `renumbers_renumbered`: every numbering is that of some tree.
* `fingerprint_of_structure`: fingerprints follow the structure of a document only.
* `concluded_of_read`: what holds of the tree of a document.
* `structure_of_traits`: entities of the same traits match.
-/

/-! ## Entities under other numbers -/

namespace IdlReader

/-! ## What numbers do not change -/

namespace DeclaredType

mutual

theorem traits_renumber (f : EntityId → EntityId) (entity : EntityId → List Trait)
    (type : DeclaredType) : (type.renumber f).traits entity = type.traits (entity ∘ f) := by
  match type with
  | ⟨_, _, definition, _, _, key, value⟩ =>
    have hKey := optionalTraits_renumberPart f entity key
    have hValue := optionalTraits_renumberPart f entity value
    rw [renumber, traits, traits, hKey, hValue, Option.map_map]

theorem optionalTraits_renumberPart (f : EntityId → EntityId) (entity : EntityId → List Trait)
    (type : Option DeclaredType) :
    optionalTraits entity (renumberPart f type) = optionalTraits (entity ∘ f) type := by
  match type with
  | none => rfl
  | some type =>
    rw [renumberPart, optionalTraits, optionalTraits]
    exact traits_renumber f entity type

end

end DeclaredType

/-- What the entities of a kind have, without recorded directives and without the places of
tokens. -/
def EntityData.bare : EntityData → EntityData
  | .root _ => .root []
  | data => data.unplaced

/-- An entity without its place, its comments, its scope and what it records. -/
def Entity.bare (e : Entity) : Entity :=
  { e.unplaced with
    scope := none
    data := e.data.bare }

namespace Tree

/-- Whether a tree keeps the entities of another one under other numbers. -/
structure Renumbers (σ : Equiv.Perm EntityId) (t u : Tree) : Prop where
  size : u.size = t.size
  root : σ root = root
  lt : ∀ i, σ i < t.size ↔ i < t.size
  get : ∀ i, i < t.size → (u.get (σ i)).bare = ((t.get i).renumber σ id).bare

variable {σ : Equiv.Perm EntityId} {t u : Tree}

theorem dataTraits_bare (t : Tree) (entity : EntityId → List Trait) (data : EntityData) :
    t.dataTraits entity data.bare = t.dataTraits entity data := by
  cases data with
  | root => rfl
  | definition | record => rfl
  | declaration d => exact t.dataTraits_unplaced entity (.declaration d)

namespace Renumbers

theorem get_bare (h : Renumbers σ t u) (i : EntityId) :
    (u.get (σ i)).bare = ((t.get i).renumber σ id).bare := by
  by_cases hLt : i < t.size
  · exact h.get i hLt
  · have hNot : ¬ σ i < u.size := by
      rw [h.size, h.lt]
      exact hLt
    rw [get_of_le hLt, get_of_le hNot]
    rfl

theorem kind (h : Renumbers σ t u) (i : EntityId) : (u.get (σ i)).kind = (t.get i).kind := by
  change (u.get (σ i)).bare.kind = ((t.get i).renumber σ id).bare.kind
  rw [h.get_bare]

theorem name (h : Renumbers σ t u) (i : EntityId) : (u.get (σ i)).name = (t.get i).name := by
  change (u.get (σ i)).bare.name = ((t.get i).renumber σ id).bare.name
  rw [h.get_bare]

theorem parent (h : Renumbers σ t u) (i : EntityId) :
    (u.get (σ i)).parent = (t.get i).parent.map σ :=
  congrArg Entity.parent (h.get_bare i)

theorem children (h : Renumbers σ t u) (i : EntityId) :
    (u.get (σ i)).children = (t.get i).children.map σ :=
  congrArg Entity.children (h.get_bare i)

theorem data (h : Renumbers σ t u) (i : EntityId) :
    (u.get (σ i)).data.bare = ((t.get i).data.renumber σ).bare :=
  congrArg Entity.data (h.get_bare i)

theorem parameters (h : Renumbers σ t u) (i : EntityId) :
    u.parameters (σ i) = (t.parameters i).map σ := by
  have hBare : ∀ e : Entity, (e.declaration?.map Declaration.parameters).getD [] =
      (e.bare.declaration?.map Declaration.parameters).getD [] := by
    intro e
    unfold Entity.declaration? Entity.bare EntityData.bare EntityData.unplaced
    cases e.data <;> rfl
  have hRenumber : ∀ e : Entity,
      ((e.renumber σ id).declaration?.map Declaration.parameters).getD [] =
        ((e.declaration?.map Declaration.parameters).getD []).map σ := by
    intro e
    unfold Entity.declaration? Entity.renumber EntityData.renumber
    cases e.data <;> rfl
  unfold Tree.parameters
  rw [hBare, h.get_bare, ← hBare, hRenumber]

theorem enclosingWithin (h : Renumbers σ t u) (n : Nat) (i : EntityId) :
    u.enclosingWithin n (σ i) = (t.enclosingWithin n i).map σ := by
  induction n generalizing i with
  | zero => rfl
  | succ n ih =>
    rw [Tree.enclosingWithin, Tree.enclosingWithin, h.parent]
    cases (t.get i).parent with
    | none => rfl
    | some p => exact congrArg (σ i :: ·) (ih p)

theorem scopedName (h : Renumbers σ t u) (i : EntityId) :
    u.scopedName (σ i) = t.scopedName i := by
  have hNames : u.names (σ i) = t.names i := by
    have hRoot : ((fun j => decide ((u.get j).kind ≠ .root)) ∘ σ) =
        fun j => decide ((t.get j).kind ≠ .root) := by
      funext j
      show decide ((u.get (σ j)).kind ≠ .root) = _
      rw [h.kind]
    have hName : ((fun j => (u.get j).name) ∘ σ) = fun j => (t.get j).name := by
      funext j
      exact h.name j
    unfold names enclosing
    rw [h.size, h.enclosingWithin, List.takeWhile_map, hRoot, List.map_map, hName]
  rw [scopedName_eq, scopedName_eq, hNames]

theorem nameTraits (h : Renumbers σ t u) (ids : List EntityId) :
    u.nameTraits (ids.map σ) = t.nameTraits ids := by
  rw [Tree.nameTraits, Tree.nameTraits, List.map_map]
  apply List.map_congr_left
  intro i _
  exact congrArg Trait.text (h.scopedName i)

theorem dataTraits (h : Renumbers σ t u) (entity : EntityId → List Trait) (data : EntityData) :
    u.dataTraits entity (data.renumber σ) = t.dataTraits (entity ∘ σ) data := by
  cases data with
  | root | record => rfl
  | definition d =>
    have hSwitch : DeclaredType.optionalTraits entity (d.switchType.map (DeclaredType.renumber σ)) =
        DeclaredType.optionalTraits (entity ∘ σ) d.switchType := by
      cases d.switchType with
      | none => rfl
      | some type => exact type.traits_renumber σ entity
    show u.definitionTraits entity (d.renumber σ) = t.definitionTraits (entity ∘ σ) d
    rw [definitionTraits, definitionTraits, Definition.renumber, h.nameTraits, hSwitch]
  | declaration d =>
    show u.declarationTraits entity (d.renumber σ) = t.declarationTraits (entity ∘ σ) d
    rw [declarationTraits, declarationTraits, Declaration.renumber, h.nameTraits, h.nameTraits,
      h.nameTraits, DeclaredType.traits_renumber]
    rfl

/-- The traits of entities that stand for each other are the same if those of their dependencies
are. -/
theorem ownTraits (h : Renumbers σ t u) (inner : EntityId → List Trait) (i : EntityId) :
    u.ownTraits inner (σ i) = t.ownTraits (inner ∘ σ) i := by
  have hData : u.dataTraits inner (u.get (σ i)).data = t.dataTraits (inner ∘ σ) (t.get i).data := by
    rw [← u.dataTraits_bare, h.data, u.dataTraits_bare, h.dataTraits]
  rw [Tree.ownTraits, Tree.ownTraits, h.scopedName, h.kind, hData, h.children, h.parameters,
    List.flatMap_map, List.flatMap_map]
  rfl

/-- The walks from entities that stand for each other go back from the same entities. -/
theorem traitsWithin (h : Renumbers σ t u) (n : Nat) (around : List EntityId) (i : EntityId) :
    u.traitsWithin n (around.map σ) (σ i) = t.traitsWithin n around i := by
  induction n generalizing around i with
  | zero => rfl
  | succ n ih =>
    have hInner : u.traitsWithin n ((i :: around).map σ) ∘ σ = t.traitsWithin n (i :: around) := by
      funext j
      exact ih (i :: around) j
    have hMem : σ i ∈ around.map σ ↔ i ∈ around := List.mem_map_of_injective σ.injective
    rw [traitsWithin_succ, traitsWithin_succ, h.scopedName]
    by_cases hAround : i ∈ around
    · rw [if_pos (hMem.mpr hAround), if_pos hAround]
    · rw [if_neg (mt hMem.mp hAround), if_neg hAround, h.ownTraits, ← hInner]
      rfl

/-- Entities that stand for each other have the same fingerprint. -/
theorem fingerprint (h : Renumbers σ t u) (i : EntityId) :
    u.fingerprint (σ i) = t.fingerprint i := by
  apply fingerprint_eq_of_traits_eq
  rw [traits, traits, h.size]
  exact h.traitsWithin (t.size + 1) [] i

end Renumbers

/-! ## Numberings of a tree -/

/-- A tree with its entities under other numbers. -/
def renumbered (σ : Equiv.Perm EntityId) (t : Tree) : Tree :=
  { t with entities := Array.ofFn fun i : Fin t.size => (t.get (σ.symm i)).renumber σ id }

theorem renumbers_renumbered (hRoot : σ Tree.root = Tree.root)
    (hLt : ∀ i, σ i < t.size ↔ i < t.size) : Renumbers σ t (t.renumbered σ) where
  size := Array.size_ofFn
  root := hRoot
  lt := hLt
  get i hi := by
    have hGet : (t.renumbered σ).get (σ i) = (t.get i).renumber σ id := by
      unfold renumbered Tree.get
      simp [hLt, hi]
    rw [hGet]

end Tree

end IdlReader

/-! ## Documents -/

namespace IdlReader.Document

open IdlReader.Tree

/-- The names of the entities around every entity end at the root, and the walk through what an
entity depends on ends with its traits, of which its fingerprint is the digest. In a tree that keeps
the same entities under other numbers, at other places and with other comments and recorded
directives, each entity has the same fingerprint. -/
theorem fingerprint_of_structure {env : Environment} {files : FileTree} {input : Input}
    {d : Document} (h : read env files input = .ok d) :
    (∀ id, d.tree.Climbs id (d.tree.enclosing id)) ∧
    (∀ id ts, d.tree.Walk [] id ts ↔ ts = d.tree.traits id) ∧
    ∀ (σ : Equiv.Perm EntityId) (u : Tree), Renumbers σ d.tree u →
      ∀ id, u.fingerprint (σ id) = d.tree.fingerprint id := by
  have hFramed := (wellFormed_of_reachable (reachable_of_read h)).toFramed
  refine ⟨hFramed.climbs_enclosing, d.tree.walk_iff, ?_⟩
  intro σ u hRenumbers id
  exact hRenumbers.fingerprint id

/-- The structure refers to itself through a sequence and the interface through its operation; the
numbers of the two are exchanged. -/
theorem fingerprint_of_exchange :
    ∃ d, read {} ⟨[], []⟩ (.text
        "struct N \x7b sequence<N> next; \x7d;\ninterface I \x7b I f(in I x); \x7d;") = .ok d ∧
      d.tree.size = 6 ∧
      d.tree.Walk [] 1 (d.tree.traits 1) ∧
      (d.tree.renumbered (Equiv.swap 1 3)).fingerprint 1 = d.tree.fingerprint 3 := by
  have hRead : (read {} ⟨[], []⟩ (.text
      "struct N \x7b sequence<N> next; \x7d;\ninterface I \x7b I f(in I x); \x7d;")).toOption.any
      (fun d => decide (d.tree.size = 6)) = true := by decide +kernel
  obtain ⟨d, hd, hSize⟩ := any_toOption hRead
  have hSize := of_decide_eq_true hSize
  obtain ⟨-, hWalk, hSame⟩ := fingerprint_of_structure hd
  have hLt : ∀ i, Equiv.swap 1 3 i < d.tree.size ↔ i < d.tree.size := by
    intro i
    rw [hSize, Equiv.swap_apply_def]
    split_ifs <;> omega
  have hRenumbers := renumbers_renumbered (t := d.tree) (σ := Equiv.swap 1 3) (by decide) hLt
  refine ⟨d, hd, hSize, (hWalk 1 _).mpr rfl, ?_⟩
  have hThree := hSame _ _ hRenumbers 3
  rwa [Equiv.swap_apply_right] at hThree

/-! ## What traits tell -/

theorem concluded_of_read {env : Environment} {files : FileTree} {input : Input} {d : Document}
    (h : read env files input = .ok d) : d.tree.Concluded where
  reachable := reachable_of_read h
  calm := by
    have hReads := stages_of_read h
    exact hReads.calm (Stage.sound_start _).calm
  suited := suited_of_read h
  unreserved := unreserved_of_read h
  silent := by
    intro i e he hKind
    obtain ⟨σ, hEvaluated⟩ := Stage.exists_evaluated (stages_of_read h) (c := i) (he ▸ rfl)
    have hRun := (hEvaluated.justified he (Parsing.sessionOf σ.tree) (Refines.refl σ.tree)).2
    rw [← hEvaluated.kind] at hRun
    have hValue : e.value = .unassigned := by
      rcases hKind with hKind | hKind <;> rw [hKind] at hRun <;>
        exact (congrArg Prod.fst (EStateM.Result.ok.inj hRun).1).symm
    rw [hValue]
    rfl

/-- Definitions of two documents that have the same traits have the same scoped name and kind, and
their members and parameters match one by one, in the same order and down to the innermost ones.
Matching declarations agree in their types as they are written, in the expressions of their
dimensions, in their values, labels and marks, and in the exceptions that they raise. The unions of
both documents must have cases, since the traits of a union with a discriminator but no case leave
open where it ends. -/
theorem structure_of_traits {env env' : Environment} {files files' : FileTree} {input input' : Input}
    {d d' : Document} (h : read env files input = .ok d) (h' : read env' files' input' = .ok d')
    (hCased : d.tree.Cased) (hCased' : d'.tree.Cased) {i j : EntityId}
    (hDefinition : (d.tree.get i).kind.isDefinition = true)
    (hTraits : d.tree.traits i = d'.tree.traits j) : Matches d.tree d'.tree i j :=
  matches_of_traits (concluded_of_read h) (concluded_of_read h') hCased hCased' (Or.inl hDefinition)
    hTraits

/-- The structures match, and their fields have the same expressions of dimensions, but the constant
that stands in them is not part of the traits. -/
theorem structure_of_traits_sized :
    ∃ d d', read {} ⟨[], []⟩ (.text "const long N = 2; struct S \x7b long a[N]; \x7d;") = .ok d ∧
      read {} ⟨[], []⟩ (.text "const long N = 3; struct S \x7b long a[N]; \x7d;") = .ok d' ∧
      (d.tree.get 2).kind.isDefinition = true ∧ d.tree.traits 2 = d'.tree.traits 2 ∧
      Matches d.tree d'.tree 2 2 ∧
      (d.tree.get 3).declaration?.map (·.sizes) = some [some 2] ∧
      (d'.tree.get 3).declaration?.map (·.sizes) = some [some 3] := by
  have hRead : (read {} ⟨[], []⟩
      (.text "const long N = 2; struct S \x7b long a[N]; \x7d;")).toOption.any (fun d =>
        (read {} ⟨[], []⟩
          (.text "const long N = 3; struct S \x7b long a[N]; \x7d;")).toOption.any fun d' =>
            decide ((d.tree.Cased ∧ d'.tree.Cased ∧ (d.tree.get 2).kind.isDefinition = true ∧
              d.tree.traits 2 = d'.tree.traits 2) ∧
              (d.tree.get 3).declaration?.map (·.sizes) = some [some 2] ∧
              (d'.tree.get 3).declaration?.map (·.sizes) = some [some 3])) = true := by
    decide +kernel
  obtain ⟨d, hd, hRead⟩ := any_toOption hRead
  obtain ⟨d', hd', hFacts⟩ := any_toOption hRead
  obtain ⟨⟨hCased, hCased', hDefinition, hTraits⟩, hSizes⟩ := of_decide_eq_true hFacts
  exact ⟨d, d', hd, hd', hDefinition, hTraits,
    structure_of_traits hd hd' hCased hCased' hDefinition hTraits, hSizes⟩

/-- The union has no case: the type of its discriminator looks like the announcement of an
enumeration behind it. The structures have two and three members. -/
theorem structure_of_traits_ambiguous :
    ∃ d d', read {} ⟨[], []⟩ (.text
        "struct E \x7b enum Long \x7b\x7d; union d switch(enum long) \x7b\x7d; \x7d;") = .ok d ∧
      read {} ⟨[], []⟩ (.text
        "struct E \x7b enum Long; union d switch(long) \x7b\x7d; enum Long \x7b\x7d; \x7d;") = .ok d' ∧
      d.tree.find 0 "E" false = some 1 ∧ d'.tree.find 0 "E" false = some 1 ∧
      (d.tree.get 1).kind.isDefinition = true ∧ d.tree.scopedName 1 = d'.tree.scopedName 1 ∧
      d.tree.traits 1 = d'.tree.traits 1 ∧
      ((d.tree.get 1).children.map fun c => (d.tree.get c).kind) = [.enum, .union] ∧
      ((d'.tree.get 1).children.map fun c => (d'.tree.get c).kind) = [.enum, .union, .enum] := by
  have hRead : (read {} ⟨[], []⟩ (.text
      "struct E \x7b enum Long \x7b\x7d; union d switch(enum long) \x7b\x7d; \x7d;")).toOption.any
        (fun d => (read {} ⟨[], []⟩ (.text
          "struct E \x7b enum Long; union d switch(long) \x7b\x7d; enum Long \x7b\x7d; \x7d;")).toOption.any
            fun d' => decide (d.tree.find 0 "E" false = some 1 ∧ d'.tree.find 0 "E" false = some 1 ∧
              (d.tree.get 1).kind.isDefinition = true ∧ d.tree.scopedName 1 = d'.tree.scopedName 1 ∧
              d.tree.traits 1 = d'.tree.traits 1 ∧
              ((d.tree.get 1).children.map fun c => (d.tree.get c).kind) = [.enum, .union] ∧
              ((d'.tree.get 1).children.map fun c => (d'.tree.get c).kind) =
                [.enum, .union, .enum])) = true := by
    decide +kernel
  obtain ⟨d, hd, hRead⟩ := any_toOption hRead
  obtain ⟨d', hd', hFacts⟩ := any_toOption hRead
  exact ⟨d, d', hd, hd', of_decide_eq_true hFacts⟩

end IdlReader.Document
