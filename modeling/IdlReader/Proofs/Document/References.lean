import IdlReader.Proofs.Document.Reachable
import IdlReader.Proofs.Naming.Tree
import IdlReader.Proofs.Tree.Precedence
import IdlReader.Proofs.Tree.Resolution
import IdlReader.Proofs.Tree.ScopedName
import Mathlib.Data.List.Nodup

/-!
# References and lists in documents

In every tree that reading can build (`Document.reachable_of_read`, and `Document.reachable_of_reaches`
for the trees in the middle of a run), entities refer to entities that were read before them, so that
searches along bases, typedefs and forward declarations come to an end by themselves. The entities
stand in the list of members of their parents, in the list of recorded directives, and in the scopes
under their names. Nothing is listed twice, and no name is lost.

* `Reachable.members_nodup`: no entity is a member twice.
* `Reachable.records_eq`: the recorded directives stand in the order of the sources.
* `WellFormed.eq_of_key`: no name is taken twice.
* `WellFormed.lookupMember_name`, `WellFormed.lookup_definition`: names lead to their entities.
* `references_backward`: what entities refer to.
* `registered_entities`: where entities stand.
-/

namespace IdlReader

namespace EntityData.Starts

variable {kind : EntityKind} {data : EntityData}

theorem ne_directive (h : Starts kind data) : kind ≠ .directive := by
  rintro rfl
  cases h with
  | definition hDefinition => cases hDefinition
  | declaration hDeclaration => cases hDeclaration

theorem isRecord (h : Starts kind data) : data.isRecord = false := by
  cases h <;> rfl

end EntityData.Starts

namespace Tree

section Registration

variable {t t' : Tree}

/-! ## Members -/

/-- No entity is a member twice, neither of one entity nor of two. -/
theorem Reachable.members_nodup (h : t.Reachable) :
    ((List.range t.size).flatMap fun p => (t.get p).children).Nodup := by
  refine List.nodup_flatMap.mpr ⟨fun p _ => (h.children p).1, ?_⟩
  refine List.nodup_range.imp fun {p q} hNe c hp hq => hNe ?_
  have hParent := (h.parent_of_mem_children hp).2.1
  rw [(h.parent_of_mem_children hq).2.1] at hParent
  exact (Option.some.inj hParent).symm

theorem mem_members {p c : EntityId} (hc : c ∈ (t.get p).children) :
    c ∈ (List.range t.size).flatMap fun q => (t.get q).children := by
  refine List.mem_flatMap.mpr ⟨p, List.mem_range.mpr ?_, hc⟩
  refine Decidable.byContradiction fun hLe => ?_
  rw [children_of_le hLe] at hc
  exact List.not_mem_nil hc

/-! ## Recorded directives -/

/-- The recorded directives among the entities. -/
def directives (t : Tree) : List EntityId :=
  (List.range t.size).filter fun i => (t.get i).kind = .directive

theorem directives_of_extends (h : Extends t t') :
    (List.range t.size).filter (fun i => (t'.get i).kind = .directive) = t.directives :=
  List.filter_congr fun i hi => by rw [h.kind i (List.mem_range.mp hi)]

/-- The directives after one entity more. -/
theorem directives_succ (h : Extends t t') (hSize : t'.size = t.size + 1) :
    t'.directives =
      t.directives ++ if (t'.get t.size).kind = .directive then [t.size] else [] := by
  unfold directives
  rw [hSize, List.range_succ, List.filter_append, directives_of_extends h]
  congr 1
  by_cases hKind : (t'.get t.size).kind = .directive <;> simp [hKind]

theorem directives_same (h : Extends t t') (hSize : t'.size = t.size) :
    t'.directives = t.directives := by
  unfold directives
  rw [hSize]
  exact directives_of_extends h

/-- A change that leaves what the root lists. -/
theorem listing_modify {id : EntityId} {f : Entity → Entity} {l : List EntityId}
    (hRoot : (t.get root).data = .root l) (hf : ∀ e, e.data = .root l → (f e).data = .root l) :
    ((t.modify id f).get root).data = .root l := by
  rw [get_modify]
  split
  · rename_i hi
    exact hf _ (hi.1 ▸ hRoot)
  · exact hRoot

/-- A step that records a directive lists it at the end, and other steps list none. -/
theorem listing_step (hPos : 0 < t.size) (hRoot : (t.get root).data = .root t.directives)
    (hStep : Step t t') : (t'.get root).data = .root t'.directives := by
  have hExtends := hStep.extends hPos
  have hNe : root ≠ t.size := Nat.ne_of_lt hPos
  have hModify : ∀ {id : EntityId} {f : Entity → Entity}, Extends t (t.modify id f) →
      (∀ e, e.data = .root t.directives → (f e).data = .root t.directives) →
      ((t.modify id f).get root).data = .root (t.modify id f).directives := by
    intro id f hSame hf
    rw [directives_same hSame (size_modify _ _ _)]
    exact listing_modify hRoot hf
  have hDefinition : ∀ (f : Definition → Definition) (e : Entity),
      e.data = .root t.directives → (e.mapDefinition f).data = .root t.directives := by
    intro f e he
    unfold Entity.mapDefinition
    rw [he]
    exact he
  have hDeclaration : ∀ (f : Declaration → Declaration) (e : Entity),
      e.data = .root t.directives → (e.mapDeclaration f).data = .root t.directives := by
    intro f e he
    unfold Entity.mapDeclaration
    rw [he]
    exact he
  cases hStep with
  | record r =>
    have hNew : ((t.addRecords [r]).get t.size).kind = .directive :=
      (get_addRecords_singleton_size hPos r).kind
    rw [directives_succ hExtends (size_addRecords_singleton t r), if_pos hNew,
      addRecords_singleton, id_addRecord, get_modify_of_ne hNe, get_addRecord hPos, if_neg hNe,
      if_pos rfl]
    unfold listing
    rw [hRoot]
  | add hReady hStarts hParameter hRefers hAdd =>
    obtain ⟨-, -, hSize, -, -, hGet⟩ := add_eq_ok hAdd
    rw [directives_succ hExtends hSize, hGet, if_neg hNe, hGet, if_pos rfl]
    rw [if_neg hStarts.ne_directive, List.append_nil]
    exact hRoot
  | name hOpen hName hForward hListed hSet =>
    obtain ⟨e, hRenames, -⟩ := (naming_of_setName hOpen.lt hSet).renames
    rw [directives_same hExtends hRenames.size, hRenames.data]
    exact hRoot
  | inherit => exact hModify hExtends (hDefinition _)
  | switch => exact hModify hExtends (hDefinition _)
  | annotate hf =>
    refine hModify hExtends fun e he => ?_
    rw [hf e]
    exact he
  | complete => exact hModify hExtends (hDeclaration _)
  | start => exact hModify hExtends (hDeclaration _)
  | finish => exact hModify hExtends (hDeclaration _)

/-- The root lists the recorded directives, each of them once, in their order. -/
theorem Reachable.records_eq (h : t.Reachable) : t.records = t.directives := by
  suffices hRoot : (t.get root).data = .root t.directives by
    unfold records
    rw [hRoot]
  obtain ⟨caseSensitive, hSteps⟩ := h
  induction hSteps with
  | refl => rfl
  | tail hBefore hStep ih =>
    exact listing_step (Reachable.size_pos ⟨caseSensitive, hBefore⟩) ih hStep

/-- A step changes no other entity into a recorded directive, and none back. -/
theorem Step.isRecord (h : Step t t') {i : EntityId} (hi : i < t.size) :
    (t'.get i).isRecord = (t.get i).isRecord := by
  cases h with
  | record r => exact (agrees_addRecords t [r]).1.record i hi
  | add hReady hStarts hParameter hRefers hAdd => exact (agrees_add hAdd).1.record i hi
  | name hOpen hName hForward hListed hSet =>
    obtain ⟨e, hRenames, -⟩ := (naming_of_setName hOpen.lt hSet).renames
    exact congrArg EntityData.isRecord (hRenames.data i)
  | inherit => exact get_modify_congr Entity.isRecord (Entity.isRecord_mapDefinition _) i
  | switch => exact get_modify_congr Entity.isRecord (Entity.isRecord_mapDefinition _) i
  | annotate hf => exact get_modify_congr Entity.isRecord (fun e => (hf e).isRecord) i
  | complete => exact get_modify_congr Entity.isRecord (Entity.isRecord_mapDeclaration _) i
  | start => exact get_modify_congr Entity.isRecord (Entity.isRecord_mapDeclaration _) i
  | finish => exact get_modify_congr Entity.isRecord (Entity.isRecord_mapDeclaration _) i

/-- The directives among the entities are the recorded ones. -/
theorem Reachable.isRecord_iff (h : t.Reachable) {i : EntityId} (hi : i < t.size) :
    (t.get i).isRecord = true ↔ (t.get i).kind = .directive := by
  obtain ⟨caseSensitive, hSteps⟩ := h
  induction hSteps generalizing i with
  | refl =>
    rw [show i = root from Nat.lt_one_iff.mp hi]
    refine iff_of_false Bool.false_ne_true fun hKind => ?_
    cases hKind
  | @tail t t' hBefore hStep ih =>
    have hPos := Reachable.size_pos ⟨caseSensitive, hBefore⟩
    by_cases hOld : i < t.size
    · rw [hStep.isRecord hOld, (hStep.extends hPos).kind i hOld]
      exact ih hOld
    · obtain ⟨-, ⟨hKind, hRecord⟩ | ⟨kind, data, hStarts, -, hKind, hData⟩⟩ :=
        hStep.new hPos hOld hi
      · exact ⟨fun _ => hKind, fun _ => hRecord⟩
      · rw [hKind, Entity.isRecord, hData, hStarts.isRecord]
        exact iff_of_false Bool.false_ne_true hStarts.ne_directive

/-! ## Names -/

namespace WellFormed

/-- No two entities of a scope have one name, unless one is only declared or both are parts
of one module. -/
theorem eq_of_key (h : t.WellFormed) {x y p q : EntityId} {s : ScopeId} (hx : t.Found x)
    (hy : t.Found y) (hxParent : (t.get x).parent = some p) (hyParent : (t.get y).parent = some q)
    (hp : (t.get p).scope = some s) (hq : (t.get q).scope = some s)
    (hSort : isDeclarationName (t.get x).kind = isDeclarationName (t.get y).kind)
    (hKey : t.key (t.get x).name = t.key (t.get y).name)
    (hxFull : (t.get x).forward = false) (hyFull : (t.get y).forward = false)
    (hxModule : (t.get x).kind ≠ .module) (hyModule : (t.get y).kind ≠ .module) : x = y := by
  obtain ⟨a, ha, -, hLeads⟩ := h.get?_full hx hxFull hxParent hp
  obtain ⟨b, hb, -, hLeads'⟩ := h.get?_full hy hyFull hyParent hq
  rw [hSort, hKey, hb] at ha
  cases ha
  rcases hLeads with rfl | ⟨hModule, -⟩
  · exact hLeads'.resolve_right fun hShared => hyModule hShared.1
  · exact absurd hModule hxModule

/-- The name of a declaration leads to it. -/
theorem lookupMember_name (h : t.WellFormed) {c p : EntityId} (hNamed : t.Named c)
    (hKind : isDeclarationName (t.get c).kind = true) (hParent : (t.get c).parent = some p) :
    t.lookupMember p (t.get c).name = some c := by
  obtain ⟨-, -, ⟨s, hs⟩, -⟩ := h.parent_place hNamed.1 hParent
  have hDeclaration : (t.get c).kind.isDeclaration = true := by
    unfold isDeclarationName at hKind
    exact (Bool.and_eq_true_iff.mp hKind).2
  obtain ⟨y, hy, -, hLeads⟩ := h.get?_full ⟨hNamed, Or.inr hDeclaration⟩
    (h.forward_of_isDeclarationName hNamed.1 hKind) hParent hs
  rcases hLeads with rfl | ⟨hModule, -⟩
  · exact lookupKey_of_get? hs (lookup?_of_get? hy hKind)
  · rw [hModule] at hDeclaration
    cases hDeclaration

/-- The name of a typedef or of a full definition that is no module leads to it where
definitions come first. -/
theorem lookup_definition (h : t.WellFormed) {d p : EntityId} (hNamed : t.Named d)
    (hKind : (t.get d).kind = .typedef ∨
      (t.get d).kind.isDefinition = true ∧ (t.get d).kind ≠ .module)
    (hFull : (t.get d).forward = false) (hParent : (t.get d).parent = some p) :
    ∃ s, (t.get p).scope = some s ∧ (t.scope s).lookup? true (t.key (t.get d).name) = some d := by
  obtain ⟨-, -, ⟨s, hs⟩, -⟩ := h.parent_place hNamed.1 hParent
  have hRegistrable : Registrable (t.get d).kind := by
    rcases hKind with hTypedef | ⟨hDefinition, -⟩
    · rw [hTypedef]
      exact Or.inr rfl
    · exact Or.inl hDefinition
  have hSort : isDeclarationName (t.get d).kind = false := by
    rcases hKind with hTypedef | ⟨hDefinition, -⟩
    · rw [hTypedef]
      rfl
    · simp [isDeclarationName, EntityKind.not_isDeclaration_of_isDefinition hDefinition]
  have hModule : (t.get d).kind ≠ .module := by
    rcases hKind with hTypedef | ⟨-, hModule⟩
    · rw [hTypedef]
      decide
    · exact hModule
  obtain ⟨y, hy, -, hLeads⟩ := h.get?_full ⟨hNamed, hRegistrable⟩ hFull hParent hs
  obtain rfl := hLeads.resolve_right fun hShared => hModule hShared.1
  exact ⟨s, hs, lookup?_of_get? hy hSort⟩

end WellFormed

end Registration

/-! ## Documents -/

open Document

/-- Parents, bases and named types come before what refers to them; bases are full definitions
of the same kind, named types are types, and listed exceptions are exceptions. No chain of
references leads back. A search for a name ends before its budget does, and so does the
resolution of an entity, which leads to what neither stands for another entity by its type nor
has its full definition in its scope. Entries of enumerations have these as their types. -/
theorem references_backward {t : Tree} (h : t.Reachable) :
    (∀ e x, t.RefersTo e x → x < e) ∧
    (∀ e d b, (t.get e).definition? = some d → b ∈ d.bases →
      (t.get b).forward = false ∧ (t.get b).kind = (t.get e).kind ∧
        (t.get b).kind.isDefinition = true) ∧
    (∀ e x, t.NamesType e x →
      (t.get x).kind ∈ [.struct, .union, .enum, .exception, .interface, .typedef]) ∧
    (∀ e d x, (t.get e).declaration? = some d → x ∈ d.exceptions →
      (t.get x).kind = .exception) ∧
    (∀ e, ¬ Relation.TransGen t.RefersTo e e) ∧
    (∀ first key n owner, owner < n →
      t.lookupWithin first key n owner = t.lookupKey first key owner) ∧
    (∀ first key owner, t.lookupKey first key owner =
      (t.get owner).scope.bind fun s => ((t.scope s).lookup? first key).or
        ((t.get owner).definition?.bind fun d => d.bases.findSome? (t.lookupKey first key))) ∧
    (∀ n id, id < n → t.resolvedWithin n id = t.resolved id) ∧
    (∀ id, t.resolved (t.resolved id) = t.resolved id ∧
      ((t.get (t.resolved id)).kind = .typedef → ∀ d,
        (t.get (t.resolved id)).declaration? = some d → d.type.definition = none) ∧
      ((t.get (t.resolved id)).forward = true → ∀ p s x,
        (t.get (t.resolved id)).parent = some p → (t.get p).scope = some s →
        (t.scope s).get? false (t.key (t.get (t.resolved id)).name) = some x →
        (t.get x).forward = true)) ∧
    (∀ env files input d, read env files input = .ok d → Steps t d.tree →
      ∀ e, (t.get e).kind = .enumEntry → ∃ p declaration, (t.get e).parent = some p ∧
        (t.get p).kind = .enum ∧ (t.get e).declaration? = some declaration ∧
        declaration.type.definition = some p) := by
  have hWellFormed := wellFormed_of_reachable h
  refine ⟨fun e x => h.refersTo_lt, ?_, ?_, ?_, h.not_refersTo_self, ?_, h.lookupKey_eq, ?_, ?_,
    ?_⟩
  · intro e d b hd hb
    obtain ⟨-, -, hKind, hFull, -⟩ := (h.heads hd).bases b hb
    refine ⟨hFull, hKind, ?_⟩
    rw [hKind]
    have hSome := Option.isSome_of_eq_some hd
    exact hWellFormed.definition e (lt_of_definition? hSome) hSome
  · intro e x hx
    have hType := (h.isType_of_namesType hx).2.2
    revert hType
    generalize (t.get x).kind = kind
    cases kind <;> decide
  · intro e d x hd hx
    exact (h.exceptions hd hx).2
  · exact fun first key n owner => h.lookupWithin_of_lt first key
  · exact fun n id => h.resolvedWithin_of_lt
  · intro id
    have hFinal := h.final_resolved id
    exact ⟨h.resolved_self id, hFinal.typedef, hFinal.forward⟩
  · intro env files input d hRead hSteps e hKind
    have hLt : e < t.size := by
      refine Decidable.byContradiction fun hLe => ?_
      rw [get_of_le hLe] at hKind
      cases hKind
    obtain ⟨p, hParent, hEnum, hType⟩ :=
      (entry_iff h hSteps hLt).mp (entries_of_read hRead e) hKind
    have hSome := h.isDeclaration hLt
    rw [hKind] at hSome
    obtain ⟨declaration, hd⟩ := Option.isSome_iff_exists.mp hSome
    exact ⟨p, declaration, hParent, hEnum, hd, hType declaration hd⟩

/-- In this document the interface `F` is declared first, named by a typedef of a typedef, and
defined with a base whose operation has this type. -/
theorem references_backward_interfaces :
    ∃ d, read {} ⟨[], []⟩ (.text ("interface F; typedef F T; typedef T U;\n" ++
        "interface B \x7b U f(); \x7d;\ninterface F : B \x7b enum K \x7b a \x7d; \x7d;")) = .ok d ∧
      d.tree.Reachable ∧ (d.tree.RefersTo 6 4 ∧ ¬ Relation.TransGen d.tree.RefersTo 4 6) ∧
      d.tree.resolved 3 = 6 ∧ d.tree.resolved 6 = 6 ∧
      d.tree.lookupWithin false "f" 7 6 = d.tree.lookupKey false "f" 6 ∧
      ∃ p, (d.tree.get 8).parent = some p ∧ (d.tree.get p).kind = .enum := by
  have hRead : (match read {} ⟨[], []⟩ (.text ("interface F; typedef F T; typedef T U;\n" ++
        "interface B \x7b U f(); \x7d;\ninterface F : B \x7b enum K \x7b a \x7d; \x7d;")) with
      | .ok d => (d.tree.get 6).definition?.any (fun e => e.bases.contains 4) &&
          d.tree.resolved 3 == 6 && (d.tree.get 8).kind == .enumEntry
      | .error _ => false) = true := by decide +kernel
  split at hRead
  · rename_i d hd
    simp only [Bool.and_eq_true, beq_iff_eq, Option.any_eq_true, List.contains_iff_mem] at hRead
    obtain ⟨⟨⟨definition, hDefinition, hBase⟩, hResolved⟩, hKind⟩ := hRead
    have hReachable := reachable_of_read hd
    obtain ⟨hBefore, -, -, -, hAcyclic, hLookup, -, -, hFinal, hEntries⟩ :=
      references_backward hReachable
    have hRefers : d.tree.RefersTo 6 4 := .base hDefinition hBase
    refine ⟨d, hd, hReachable, ⟨hRefers, fun hBack => hAcyclic 6 (.head hRefers hBack)⟩,
      hResolved, ?_, hLookup false "f" 7 6 (by decide), ?_⟩
    · have hAgain := (hFinal 3).1
      rw [hResolved] at hAgain
      exact hAgain
    · obtain ⟨p, -, hParent, hEnum, -⟩ := hEntries _ _ _ d hd .refl 8 hKind
      exact ⟨p, hParent, hEnum⟩
  · exact absurd hRead (by decide)

/-- The members of an entity lie below it, and no entity is a member twice; the recorded
directives are listed once each, in their order; full definitions and declarations of one scope
have different names, modules apart; and every declaration, typedef and full definition is
found by its name in its parent, where modules that go on with each other share one entry. -/
theorem registered_entities {t : Tree} (h : t.Reachable) :
    (∀ p, ∀ c ∈ (t.get p).children, c < t.size ∧ (t.get c).parent = some p ∧
      ((List.range t.size).flatMap fun q => (t.get q).children).count c = 1) ∧
    (t.records = (List.range t.size).filter fun i => (t.get i).kind = .directive) ∧
    (∀ x y p q s, t.Found x → t.Found y → (t.get x).parent = some p → (t.get y).parent = some q →
      (t.get p).scope = some s → (t.get q).scope = some s →
      isDeclarationName (t.get x).kind = isDeclarationName (t.get y).kind →
      t.key (t.get x).name = t.key (t.get y).name →
      (t.get x).forward = false → (t.get y).forward = false →
      (t.get x).kind ≠ .module → (t.get y).kind ≠ .module → x = y) ∧
    (∀ c p, t.Named c → isDeclarationName (t.get c).kind = true → (t.get c).parent = some p →
      t.lookupMember p (t.get c).name = some c) ∧
    (∀ d p, t.Named d →
      ((t.get d).kind = .typedef ∨
        (t.get d).kind.isDefinition = true ∧ (t.get d).kind ≠ .module) →
      (t.get d).forward = false → (t.get d).parent = some p →
      ∃ s, (t.get p).scope = some s ∧
        (t.scope s).lookup? true (t.key (t.get d).name) = some d) := by
  have hWellFormed := wellFormed_of_reachable h
  refine ⟨?_, h.records_eq, ?_, ?_, ?_⟩
  · intro p c hc
    obtain ⟨hNamed, hParent, -⟩ := h.parent_of_mem_children hc
    exact ⟨hNamed.1, hParent, List.count_eq_one_of_mem h.members_nodup (mem_members hc)⟩
  · intro x y p q s hx hy hxParent hyParent hp hq
    exact hWellFormed.eq_of_key hx hy hxParent hyParent hp hq
  · intro c p hNamed hKind hParent
    exact hWellFormed.lookupMember_name hNamed hKind hParent
  · intro d p hNamed hKind hFull hParent
    exact hWellFormed.lookup_definition hNamed hKind hFull hParent

/-- In this document the struct `S` is declared in the one part of a module and defined in the
other one, and a parameter of the operation `f`, the tenth entity, has its name as well. -/
theorem registered_entities_module :
    ∃ d, read {} ⟨[], []⟩ (.text ("#define X\nmodule M \x7b struct S; \x7d;\n" ++
        "module M \x7b struct S \x7b long a; \x7d; \x7d;\ninterface I \x7b long f(in long S); \x7d;")) =
        .ok d ∧
      d.tree.Reachable ∧ d.tree.records = [1] ∧
      ((List.range d.tree.size).flatMap fun q => (d.tree.get q).children).count 5 = 1 ∧
      d.tree.lookupMember 8 "S" = some 9 ∧
      (d.tree.scope 1).lookup? true (d.tree.key "S") = some 5 ∧
      ∀ x, d.tree.Found x → (d.tree.get x).parent = some 2 → (d.tree.get x).kind = .struct →
        d.tree.key (d.tree.get x).name = d.tree.key "S" → (d.tree.get x).forward = true := by
  have hRead : (match read {} ⟨[], []⟩ (.text ("#define X\nmodule M \x7b struct S; \x7d;\n" ++
        "module M \x7b struct S \x7b long a; \x7d; \x7d;\ninterface I \x7b long f(in long S); \x7d;")) with
      | .ok d =>
          ((List.range d.tree.size).filter fun i => (d.tree.get i).kind = .directive) == [1] &&
          (d.tree.get 4).children.contains 5 && d.tree.size == 10 &&
          (d.tree.get 5).kind == .struct && (d.tree.get 5).name == "S" &&
          !(d.tree.get 5).forward && (d.tree.get 5).parent == some 4 &&
          (d.tree.get 4).scope == some 1 && (d.tree.get 2).scope == some 1 &&
          (d.tree.get 9).kind == .parameter && (d.tree.get 9).name == "S" &&
          (d.tree.get 9).parent == some 8
      | .error _ => false) = true := by decide +kernel
  split at hRead
  · rename_i d hd
    simp only [Bool.and_eq_true, beq_iff_eq, List.contains_iff_mem, Bool.not_eq_true'] at hRead
    obtain ⟨⟨⟨⟨⟨⟨⟨⟨⟨⟨⟨hRecords, hMember⟩, hSize⟩, hKind⟩, hName⟩, hFull⟩, hParent⟩, hScope⟩, hScope'⟩,
      hParameter⟩, hSame⟩, hOperation⟩ := hRead
    have hReachable := reachable_of_read hd
    obtain ⟨hMembers, hList, hUnique, hDeclared, hDefined⟩ := registered_entities hReachable
    have hNamed : d.tree.Named 5 := ⟨by rw [hSize]; decide, by rw [hName]; decide⟩
    have hDefinition : (d.tree.get 5).kind.isDefinition = true ∧ (d.tree.get 5).kind ≠ .module := by
      rw [hKind]
      decide
    refine ⟨d, hd, hReachable, hList.trans hRecords, (hMembers 4 5 hMember).2.2, ?_, ?_, ?_⟩
    · rw [← hSame]
      refine hDeclared 9 8 ⟨by rw [hSize]; decide, by rw [hSame]; decide⟩ ?_ hOperation
      rw [hParameter]
      rfl
    · obtain ⟨s, hs, hLookup⟩ := hDefined 5 4 hNamed (Or.inr hDefinition) hFull hParent
      rw [hScope] at hs
      cases hs
      rw [← hName]
      exact hLookup
    · intro x hx hxParent hxKind hKey
      refine (Bool.not_eq_false _).mp fun hxFull => ?_
      have hEq := hUnique x 5 2 4 1 hx ⟨hNamed, Or.inl hDefinition.1⟩ hxParent hParent hScope'
        hScope (by rw [hxKind, hKind]) (by rw [hKey, hName]) hxFull hFull (by rw [hxKind]; decide)
        hDefinition.2
      rw [hEq, hParent] at hxParent
      exact absurd hxParent (by decide)
  · exact absurd hRead (by decide)

end Tree

end IdlReader
