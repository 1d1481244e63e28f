import IdlReader.Proofs.Tree.Resolution

/-!
# What entities refer to

An entity refers to its parent, to its bases and to the types that it names, and all of these
were there before it. So chains of references end. Bounds on the length of such chains, in the
search for names and where typedefs are followed, are never reached.

* `Reachable.heads`: bases and types of discriminators.
* `Reachable.refersTo_lt`, `Reachable.not_refersTo_self`: references point backwards.
* `Reachable.lookupWithin_eq`: the search for names ends by itself.
* `Reachable.final_resolved`, `Reachable.resolved_self`: nothing is left to be followed.
* `Reachable.lists`: the directives and parameters that are listed exist.
-/

namespace IdlReader.Tree

variable {t t' : Tree}

/-! ## Definitions -/

/-- What the bases of a definition and the type of its discriminator are. -/
structure Heads (t : Tree) (i : EntityId) (d : Definition) : Prop where
  bases : ∀ b ∈ d.bases, b < i ∧ t.Named b ∧ (t.get b).kind = (t.get i).kind ∧
    (t.get b).forward = false ∧ (t.get b).kind.supportsInheritance = true
  switchType : ∀ type, d.switchType = some type → ∀ x ∈ type.references, x < i ∧ t.IsType x

theorem heads_local (t : Tree) (i : EntityId) (isLocal : Bool) : t.Heads i { isLocal } :=
  ⟨nofun, nofun⟩

theorem Heads.extends {i : EntityId} {d : Definition} (h : t.Heads i d) (hExtends : Extends t t')
    (hi : i < t.size) : t'.Heads i d where
  bases := by
    intro b hb
    obtain ⟨hLt, hNamed, hKind, hFull, hSupports⟩ := h.bases b hb
    rw [hExtends.kind b hNamed.1, hExtends.kind i hi,
      (hExtends.settled b hNamed.1 (Or.inr hNamed.2)).2.1]
    exact ⟨hLt, hExtends.named hNamed, hKind, hFull, hSupports⟩
  switchType := fun type hType x hx =>
    ⟨(h.switchType type hType x hx).1, hExtends.isType (h.switchType type hType x hx).2⟩

/-- Everything with a name but recorded directives comes before the entity without one. -/
theorem Open.lt_of_named {id b : EntityId} (hOpen : t.Open id) (hNamed : t.Named b)
    (hKind : (t.get b).kind ≠ .directive) : b < id := by
  refine Nat.lt_of_le_of_ne (Nat.le_of_not_lt fun hLt => ?_) (hNamed.ne_of_open hOpen)
  exact hKind (hOpen.records b hLt hNamed.1)

theorem IsType.ne_directive {x : EntityId} (h : t.IsType x) : (t.get x).kind ≠ .directive := by
  intro hKind
  have hType := h.2
  rw [hKind] at hType
  cases hType

theorem heads_step (hPos : 0 < t.size)
    (h : ∀ i d, (t.get i).definition? = some d → t.Heads i d) (hStep : Step t t') {i : EntityId}
    {d : Definition} (hd : (t'.get i).definition? = some d) : t'.Heads i d := by
  have hExtends := hStep.extends hPos
  have hOld : ∀ {d₀}, (t.get i).definition? = some d₀ → t'.Heads i d₀ := fun hd₀ =>
    (h i _ hd₀).extends hExtends (lt_of_definition? (Option.isSome_of_eq_some hd₀))
  have hSame : ∀ {id : EntityId} {f : Entity → Entity},
      (∀ e, (f e).definition? = e.definition?) → t' = t.modify id f → t'.Heads i d := by
    rintro id f hf rfl
    rw [get_modify_congr Entity.definition? hf] at hd
    exact hOld hd
  cases hStep with
  | record r =>
    rw [definition?_addRecords_singleton hPos] at hd
    exact hOld hd
  | add hReady hStarts hParameter hRefers hAdd =>
    obtain ⟨-, -, -, -, -, hGet⟩ := add_eq_ok hAdd
    rw [hGet] at hd
    split at hd
    · cases hStarts with
      | definition _ isLocal =>
        cases hd
        exact heads_local t' i isLocal
      | declaration => cases hd
    · exact hOld hd
  | @inherit id bases hOpen hKind hBases =>
    rw [definition?_modify] at hd
    split at hd
    · -- The bases have names and come before the definition, which has none yet.
      rename_i hi
      obtain ⟨d₀, hd₀, rfl⟩ := Option.map_eq_some_iff.mp hd
      rw [hi] at hd₀ ⊢
      refine Heads.extends ⟨fun b hb => ?_, (h id d₀ hd₀).switchType⟩ hExtends hOpen.lt
      obtain ⟨hNamed, hSame, hFull⟩ := hBases b hb
      rw [← hSame] at hKind
      refine ⟨hOpen.lt_of_named hNamed fun hDirective => ?_, hNamed, hSame, hFull, hKind⟩
      rw [hDirective] at hKind
      cases hKind
    · exact hOld hd
  | @switch id type hOpen hKind hRefers hIntegral =>
    rw [definition?_modify] at hd
    split at hd
    · rename_i hi
      obtain ⟨d₀, hd₀, rfl⟩ := Option.map_eq_some_iff.mp hd
      rw [hi] at hd₀ ⊢
      refine Heads.extends ⟨(h id d₀ hd₀).bases, fun type' hType x hx => ?_⟩ hExtends hOpen.lt
      cases hType
      have hIsType := hRefers x hx
      exact ⟨hOpen.lt_of_named hIsType.1 hIsType.ne_directive, hIsType⟩
    · exact hOld hd
  | name hOpen hName hForward hListed hSet =>
    obtain ⟨e, hRenames, -⟩ := (naming_of_setName hOpen.lt hSet).renames
    rw [hRenames.definition] at hd
    exact hOld hd
  | annotate hf =>
    refine hSame (fun e => ?_) rfl
    rw [hf e]
    rfl
  | complete => exact hSame (Entity.definition?_mapDeclaration _) rfl
  | start => exact hSame (Entity.definition?_mapDeclaration _) rfl
  | finish => exact hSame (Entity.definition?_mapDeclaration _) rfl

/-- The bases of a definition are full definitions of its kind, and the type of its
discriminator names types; all of these were there before it. -/
theorem Reachable.heads (h : t.Reachable) {i : EntityId} {d : Definition}
    (hd : (t.get i).definition? = some d) : t.Heads i d := by
  obtain ⟨caseSensitive, hSteps⟩ := h
  induction hSteps generalizing i d with
  | refl =>
    have hRoot : i = root := Nat.lt_one_iff.mp (lt_of_definition? (Option.isSome_of_eq_some hd))
    rw [hRoot] at hd
    cases hd
  | tail hBefore hStep ih =>
    exact heads_step (Reachable.size_pos ⟨caseSensitive, hBefore⟩) (fun _ _ => ih) hStep hd

/-! ## Exceptions -/

/-- What a step may add to the exceptions of declarations. -/
theorem Step.exceptions (hPos : 0 < t.size) (hStep : Step t t') {i x : EntityId}
    {d : Declaration} (hd : (t'.get i).declaration? = some d) (hx : x ∈ d.exceptions) :
    t.IsException x ∨ ∃ d₀, (t.get i).declaration? = some d₀ ∧ x ∈ d₀.exceptions := by
  have hSame : (t'.get i).declaration? = (t.get i).declaration? →
      t.IsException x ∨ ∃ d₀, (t.get i).declaration? = some d₀ ∧ x ∈ d₀.exceptions := by
    intro hEq
    exact Or.inr ⟨d, hEq ▸ hd, hx⟩
  have hMap : ∀ {id : EntityId} {f : Declaration → Declaration},
      t' = t.modify id (Entity.mapDeclaration f) →
      (∀ d, ∀ y ∈ (f d).exceptions, y ∈ d.exceptions ∨ t.IsException y) →
      t.IsException x ∨ ∃ d₀, (t.get i).declaration? = some d₀ ∧ x ∈ d₀.exceptions := by
    rintro id f rfl hf
    rw [declaration?_modify] at hd
    split at hd
    · obtain ⟨d₀, hd₀, rfl⟩ := Option.map_eq_some_iff.mp hd
      exact (hf d₀ x hx).symm.imp_right fun hOld => ⟨d₀, hd₀, hOld⟩
    · exact Or.inr ⟨d, hd, hx⟩
  cases hStep with
  | record r => exact hSame (declaration?_addRecords_singleton hPos r i)
  | add hReady hStarts hParameter hRefers hAdd =>
    obtain ⟨-, -, -, -, -, hGet⟩ := add_eq_ok hAdd
    rw [hGet] at hd
    split at hd
    · cases hStarts with
      | definition => cases hd
      | declaration =>
        cases hd
        exact absurd hx List.not_mem_nil
    · exact Or.inr ⟨d, hd, hx⟩
  | name hOpen hName hForward hListed hSet =>
    obtain ⟨e, hRenames, -⟩ := (naming_of_setName hOpen.lt hSet).renames
    exact hSame (hRenames.declaration i)
  | inherit => exact hSame (get_modify_congr Entity.declaration? (declaration?_mapDefinition _) i)
  | switch => exact hSame (get_modify_congr Entity.declaration? (declaration?_mapDefinition _) i)
  | annotate hf =>
    refine hSame (get_modify_congr Entity.declaration? (fun e => ?_) i)
    rw [hf e]
    rfl
  | complete _ hExceptions _ => exact hMap rfl hExceptions
  | start => exact hMap rfl fun _ _ hy => Or.inl hy
  | finish => exact hMap rfl fun _ _ hy => Or.inl hy

/-- What a declaration lists as exceptions are exceptions. -/
theorem Reachable.exceptions (h : t.Reachable) {i x : EntityId} {d : Declaration}
    (hd : (t.get i).declaration? = some d) (hx : x ∈ d.exceptions) : t.IsException x := by
  obtain ⟨caseSensitive, hSteps⟩ := h
  induction hSteps generalizing i d with
  | refl =>
    have hRoot : i = root := Nat.lt_one_iff.mp (lt_of_declaration? hd)
    rw [hRoot] at hd
    cases hd
  | tail hBefore hStep ih =>
    have hPos := Reachable.size_pos ⟨caseSensitive, hBefore⟩
    refine (hStep.extends hPos).isException ?_
    rcases hStep.exceptions hPos hd hx with hException | ⟨d₀, hd₀, hOld⟩
    · exact hException
    · exact ih hd₀ hOld

/-! ## References -/

/-- Whether a type of an entity names another one: its own type if it is a declaration, or the
type of its discriminator. -/
inductive NamesType (t : Tree) (e : EntityId) : EntityId → Prop where
  | declared {d : Declaration} {x : EntityId} (hd : (t.get e).declaration? = some d)
      (hx : x ∈ d.type.references) : NamesType t e x
  | switch {d : Definition} {type : DeclaredType} {x : EntityId}
      (hd : (t.get e).definition? = some d) (hType : d.switchType = some type)
      (hx : x ∈ type.references) : NamesType t e x

/-- What an entity refers to. -/
inductive RefersTo (t : Tree) (e : EntityId) : EntityId → Prop where
  | parent {p : EntityId} (hParent : (t.get e).parent = some p) : RefersTo t e p
  | base {d : Definition} {b : EntityId} (hd : (t.get e).definition? = some d)
      (hb : b ∈ d.bases) : RefersTo t e b
  | type {x : EntityId} (hx : t.NamesType e x) : RefersTo t e x

namespace Reachable

theorem isType_of_namesType (h : t.Reachable) {e x : EntityId} (hx : t.NamesType e x) :
    x < e ∧ t.IsType x := by
  cases hx with
  | declared hd hx => exact ⟨h.references_lt hd x hx, h.typed e _ hd x hx⟩
  | switch hd hType hx => exact (h.heads hd).switchType _ hType x hx

/-- References point backwards. -/
theorem refersTo_lt (h : t.Reachable) {e x : EntityId} (hRefers : t.RefersTo e x) : x < e := by
  cases hRefers with
  | parent hParent =>
    exact (wellFormed_of_reachable h).toFramed.parent_lt (lt_size_of_parent hParent) hParent
  | base hd hb => exact ((h.heads hd).bases x hb).1
  | type hx => exact (h.isType_of_namesType hx).1

theorem transGen_refersTo_lt (h : t.Reachable) {e x : EntityId}
    (hChain : Relation.TransGen t.RefersTo e x) : x < e := by
  induction hChain with
  | single hRefers => exact h.refersTo_lt hRefers
  | tail _ hRefers ih => exact Nat.lt_trans (h.refersTo_lt hRefers) ih

/-- No chain of references leads back. -/
theorem not_refersTo_self (h : t.Reachable) (e : EntityId) :
    ¬ Relation.TransGen t.RefersTo e e := fun hChain =>
  Nat.lt_irrefl e (h.transGen_refersTo_lt hChain)

/-! ## Searches -/

/-- The search along bases ends before the budget does. -/
theorem lookupWithin_eq (h : t.Reachable) (first : Bool) (key : String) {n m : Nat}
    {owner : EntityId} (hn : owner < n) (hm : owner < m) :
    t.lookupWithin first key n owner = t.lookupWithin first key m owner := by
  induction n generalizing m owner with
  | zero => exact absurd hn (Nat.not_lt_zero _)
  | succ n ih =>
    cases m with
    | zero => exact absurd hm (Nat.not_lt_zero _)
    | succ m =>
      rw [lookupWithin, lookupWithin]
      cases hScope : (t.get owner).scope with
      | none => rfl
      | some s =>
        dsimp only
        cases (t.scope s).lookup? first key with
        | some id => rfl
        | none =>
          dsimp only
          cases hd : (t.get owner).definition? with
          | none => rfl
          | some d =>
            refine findSome?_congr fun b hb => ?_
            have hLt := ((h.heads hd).bases b hb).1
            exact ih (Nat.lt_of_lt_of_le hLt (Nat.le_of_lt_succ hn))
              (Nat.lt_of_lt_of_le hLt (Nat.le_of_lt_succ hm))

theorem lookupWithin_of_lt (h : t.Reachable) (first : Bool) (key : String) {n : Nat}
    {owner : EntityId} (hn : owner < n) :
    t.lookupWithin first key n owner = t.lookupKey first key owner := by
  by_cases hLt : owner < t.size
  · exact h.lookupWithin_eq first key hn (Nat.lt_succ_of_lt hLt)
  · obtain ⟨m, rfl⟩ := Nat.exists_eq_succ_of_ne_zero (Nat.ne_of_gt (Nat.zero_lt_of_lt hn))
    have hNone : (t.get owner).scope = none := by
      rw [get_of_le hLt]
      rfl
    rw [lookupKey, lookupWithin, lookupWithin, hNone]

theorem resolvedWithin_of_lt (h : t.Reachable) {n : Nat} {id : EntityId} (hn : id < n) :
    t.resolvedWithin n id = t.resolved id := by
  by_cases hLt : id < t.size
  · exact h.resolvedWithin_eq hn hLt
  · have hKind : (t.get id).kind ≠ .typedef := by
      rw [get_of_le hLt]
      decide
    have hFull : (t.get id).forward = false := by
      rw [get_of_le hLt]
      rfl
    rw [resolvedWithin_of_full n hKind hFull, resolved_of_full hKind hFull]

/-- What is found in an entity is what its own scope holds, or else what its bases hold. -/
theorem lookupKey_eq (h : t.Reachable) (first : Bool) (key : String) (owner : EntityId) :
    t.lookupKey first key owner =
      (t.get owner).scope.bind fun s => ((t.scope s).lookup? first key).or
        ((t.get owner).definition?.bind fun d => d.bases.findSome? (t.lookupKey first key)) := by
  unfold lookupKey
  rw [lookupWithin]
  cases hScope : (t.get owner).scope with
  | none => rfl
  | some s =>
    rw [Option.bind_some]
    dsimp only
    cases (t.scope s).lookup? first key with
    | some id => rfl
    | none =>
      rw [Option.none_or]
      dsimp only
      cases hd : (t.get owner).definition? with
      | none => rfl
      | some d =>
        rw [Option.bind_some]
        refine findSome?_congr fun b hb => ?_
        have hLt := Nat.lt_trans ((h.heads hd).bases b hb).1 (lt_of_definition? (Option.isSome_of_eq_some hd))
        exact h.lookupWithin_eq first key hLt (Nat.lt_succ_of_lt hLt)

end Reachable

/-- Whether nothing of an entity is left to be followed: it is no typedef of another entity, and
its name leads to no full definition if it is only declared. -/
structure Final (t : Tree) (id : EntityId) : Prop where
  typedef : (t.get id).kind = .typedef → ∀ d, (t.get id).declaration? = some d →
    d.type.definition = none
  forward : (t.get id).forward = true → ∀ p s x, (t.get id).parent = some p →
    (t.get p).scope = some s → (t.scope s).get? false (t.key (t.get id).name) = some x →
    (t.get x).forward = true

namespace Reachable

theorem resolved_of_final (h : t.Reachable) {id : EntityId} (hFinal : t.Final id) :
    t.resolved id = id := by
  by_cases hKind : (t.get id).kind = .typedef
  · by_cases hLt : id < t.size
    · have hSome := h.isDeclaration hLt
      rw [hKind] at hSome
      obtain ⟨d, hd⟩ := Option.isSome_iff_exists.mp hSome
      exact resolved_typedef_none hKind hd (hFinal.typedef hKind d hd)
    · rw [get_of_le hLt] at hKind
      cases hKind
  · cases hForward : (t.get id).forward with
    | false => exact resolved_of_full hKind hForward
    | true =>
      have hFound := (wellFormed_of_reachable h).found_of_forward hForward
      obtain ⟨p, s, full, hParent, hScope, hGet, -, hResolved⟩ :=
        h.resolved_forward hFound hForward
      rw [hResolved, if_pos (hFinal.forward hForward p s full hParent hScope hGet)]

/-- Where typedefs and forward declarations lead, nothing is left to be followed. -/
theorem final_resolved (h : t.Reachable) (id : EntityId) : t.Final (t.resolved id) := by
  have hWellFormed := wellFormed_of_reachable h
  induction id using Nat.strongRecOn with
  | ind id ih =>
    by_cases hKind : (t.get id).kind = .typedef
    · have hLt : id < t.size := by
        refine Decidable.byContradiction fun hLe => ?_
        rw [get_of_le hLe] at hKind
        cases hKind
      have hSome := h.isDeclaration hLt
      rw [hKind] at hSome
      obtain ⟨d, hd⟩ := Option.isSome_iff_exists.mp hSome
      cases hNext : d.type.definition with
      | some next =>
        rw [h.resolved_typedef hKind hd hNext]
        exact ih next (h.references_lt hd next (DeclaredType.mem_references hNext))
      | none =>
        rw [resolved_typedef_none hKind hd hNext]
        refine ⟨fun _ d' hd' => ?_, fun hForward => ?_⟩
        · rw [hd] at hd'
          cases hd'
          exact hNext
        · have hDefinition := hWellFormed.forward id hLt hForward
          rw [hKind] at hDefinition
          cases hDefinition
    · cases hForward : (t.get id).forward with
      | false =>
        rw [resolved_of_full hKind hForward]
        refine ⟨fun hTypedef => absurd hTypedef hKind, fun hAgain => ?_⟩
        rw [hForward] at hAgain
        cases hAgain
      | true =>
        obtain ⟨p, s, full, hParent, hScope, hGet, hSame, hResolved⟩ :=
          h.resolved_forward (hWellFormed.found_of_forward hForward) hForward
        cases hFull : (t.get full).forward with
        | true =>
          rw [hFull, if_pos rfl] at hResolved
          rw [hResolved]
          refine ⟨fun hTypedef => absurd hTypedef hKind, fun _ p' s' x hp' hs' hx => ?_⟩
          rw [hParent] at hp'
          cases hp'
          rw [hScope] at hs'
          cases hs'
          rw [hGet] at hx
          cases hx
          exact hFull
        | false =>
          rw [hFull] at hResolved
          rw [hResolved]
          refine ⟨fun hTypedef => absurd (hSame.symm.trans hTypedef) hKind, fun hAgain => ?_⟩
          exact absurd (hFull.symm.trans hAgain) Bool.false_ne_true

/-- Following typedefs and forward declarations twice leads no further than doing so once. -/
theorem resolved_self (h : t.Reachable) (id : EntityId) :
    t.resolved (t.resolved id) = t.resolved id := h.resolved_of_final (h.final_resolved id)

end Reachable

end IdlReader.Tree

/-! ## Listed entities -/

namespace IdlReader

/-- Whether the directives and parameters that are listed are below a number. -/
def EntityData.Lists (n : Nat) : EntityData → Prop
  | .root records => ∀ i ∈ records, i < n
  | .declaration d => ∀ i ∈ d.parameters, i < n
  | _ => True

theorem EntityData.Lists.mono {n m : Nat} {data : EntityData} (h : data.Lists n) (hLe : n ≤ m) :
    data.Lists m := by
  cases data with
  | root records => exact fun i hi => Nat.lt_of_lt_of_le (h i hi) hLe
  | declaration d => exact fun i hi => Nat.lt_of_lt_of_le (h i hi) hLe
  | definition | record => trivial

theorem Entity.lists_mapDefinition {n : Nat} (f : Definition → Definition) {e : Entity}
    (h : e.data.Lists n) : (e.mapDefinition f).data.Lists n := by
  unfold mapDefinition
  split
  · trivial
  · exact h

theorem Entity.lists_mapDeclaration {n : Nat} {f : Declaration → Declaration} {e : Entity}
    (h : e.data.Lists n) (hf : ∀ d, ∀ i ∈ (f d).parameters, i ∈ d.parameters ∨ i < n) :
    (e.mapDeclaration f).data.Lists n := by
  unfold mapDeclaration
  split
  · rename_i d hd
    rw [hd] at h
    exact fun i hi => (hf d i hi).elim (h i) id
  · exact h

namespace Tree

variable {t t' : Tree}

/-- A step lists nothing but what exists. -/
theorem lists_step (hPos : 0 < t.size) (h : ∀ i, (t.get i).data.Lists t.size)
    (hStep : Step t t') (i : EntityId) : (t'.get i).data.Lists t'.size := by
  have hOld := (h i).mono (hStep.extends hPos).size
  have hModify : ∀ {id : EntityId} {f : Entity → Entity},
      (∀ e : Entity, e.data.Lists t.size → (f e).data.Lists t.size) →
      ((t.modify id f).get i).data.Lists (t.modify id f).size := by
    intro id f hf
    rw [size_modify, get_modify]
    split
    · exact hf _ (h id)
    · exact h i
  cases hStep with
  | record r =>
    have hAttach : ∀ e : Entity, (e.attach r.comments).data = e.data := fun e => by
      rw [Entity.annotates_attach r.comments e]
    rw [size_addRecords_singleton] at hOld ⊢
    rw [addRecords_singleton, get_modify_congr Entity.data hAttach, get_addRecord hPos]
    split
    · trivial
    · split
      · rename_i hRoot
        rw [hRoot] at hOld
        unfold listing
        split
        · rename_i records hRecords
          rw [hRecords] at hOld
          intro x hx
          rcases List.mem_append.mp hx with hx | hx
          · exact hOld x hx
          · exact List.mem_singleton.mp hx ▸ Nat.lt_succ_self _
        · exact hOld
      · exact hOld
  | add hReady hStarts hParameter hRefers hAdd =>
    obtain ⟨-, -, -, -, -, hGet⟩ := add_eq_ok hAdd
    rw [hGet]
    split
    · cases hStarts with
      | definition => trivial
      | declaration => exact List.forall_mem_nil _
    · exact hOld
  | name hOpen hName hForward hListed hSet =>
    obtain ⟨e, hRenames, -⟩ := (naming_of_setName hOpen.lt hSet).renames
    rw [hRenames.data]
    exact hOld
  | inherit => exact hModify fun _ => Entity.lists_mapDefinition _
  | switch => exact hModify fun _ => Entity.lists_mapDefinition _
  | annotate hf =>
    refine hModify fun e he => ?_
    rw [hf e]
    exact he
  | complete _ _ hParameters => exact hModify fun _ he => Entity.lists_mapDeclaration he hParameters
  | start => exact hModify fun _ he => Entity.lists_mapDeclaration he fun _ _ hi => Or.inl hi
  | finish => exact hModify fun _ he => Entity.lists_mapDeclaration he fun _ _ hi => Or.inl hi

/-- The directives and parameters that are listed exist. -/
theorem Reachable.lists (h : t.Reachable) (i : EntityId) : (t.get i).data.Lists t.size := by
  obtain ⟨caseSensitive, hSteps⟩ := h
  induction hSteps generalizing i with
  | refl =>
    by_cases hi : i = root
    · rw [hi]
      exact List.forall_mem_nil _
    · rw [get_of_le fun hLt => hi (Nat.lt_one_iff.mp hLt)]
      exact List.forall_mem_nil _
  | tail hBefore hStep ih =>
    exact lists_step (Reachable.size_pos ⟨caseSensitive, hBefore⟩) ih hStep i

end Tree

end IdlReader
