import IdlReader.Proofs.Tree.Precedence

/-!
# Inherited names

A name is given only if no base holds it at that moment. Bases, their names and their scopes
stay, so an entity with an inherited name of the same spelling got its name before the
inherited entity was there.

* `Reachable.exists_naming`: every entity got its name in some step.
* `Reachable.inherited_later`: what is inherited under the name of a member comes after it.
-/

namespace IdlReader.Tree

variable {t t' : Tree}

/-! ## Bases -/

/-- Whether a definition lists another one as a base. -/
def Base (t : Tree) (d b : EntityId) : Prop :=
  ∃ definition, (t.get d).definition? = some definition ∧ b ∈ definition.bases

/-- Whether an entity is another one, or a base of it, or a base of a base and so on. -/
abbrev Inherits (t : Tree) : EntityId → EntityId → Prop := Relation.ReflTransGen t.Base

/-- A definition keeps its bases when it has its name. -/
theorem Step.bases (hPos : 0 < t.size) (hStep : Step t t') {i : EntityId} (hNamed : t.Named i) :
    (t'.get i).definition?.map Definition.bases = (t.get i).definition?.map Definition.bases := by
  have hSame : ∀ {id : EntityId} {f : Entity → Entity},
      (∀ e, (f e).definition? = e.definition?) →
      ((t.modify id f).get i).definition?.map Definition.bases =
        (t.get i).definition?.map Definition.bases := fun hf =>
    congrArg (Option.map Definition.bases) (get_modify_congr Entity.definition? hf i)
  cases hStep with
  | record r => rw [definition?_addRecords_singleton hPos]
  | add hReady hStarts hParameter hRefers hAdd =>
    obtain ⟨-, -, -, -, -, hGet⟩ := add_eq_ok hAdd
    rw [hGet, if_neg (Nat.ne_of_lt hNamed.1)]
  | inherit hOpen => rw [definition?_modify, if_neg (hNamed.ne_of_open hOpen)]
  | switch hOpen => rw [definition?_modify, if_neg (hNamed.ne_of_open hOpen)]
  | name hOpen hName hForward hListed hSet =>
    obtain ⟨e, hRenames, -⟩ := (naming_of_setName hOpen.lt hSet).renames
    rw [hRenames.definition]
  | annotate hf =>
    refine hSame fun e => ?_
    rw [hf e]
    rfl
  | complete => exact hSame (Entity.definition?_mapDeclaration _)
  | start => exact hSame (Entity.definition?_mapDeclaration _)
  | finish => exact hSame (Entity.definition?_mapDeclaration _)

theorem Steps.bases (hPos : 0 < t.size) (hSteps : Steps t t') {i : EntityId}
    (hNamed : t.Named i) :
    (t'.get i).definition?.map Definition.bases = (t.get i).definition?.map Definition.bases := by
  induction hSteps with
  | refl => rfl
  | tail hBefore hStep ih =>
    have hExtends := Steps.extends hPos hBefore
    exact (hStep.bases (Nat.lt_of_lt_of_le hPos hExtends.size) (hExtends.named hNamed)).trans ih

theorem base_iff (hPos : 0 < t.size) (hSteps : Steps t t') {d b : EntityId} (hNamed : t.Named d) :
    t'.Base d b ↔ t.Base d b := by
  have hBase : ∀ u : Tree, u.Base d b ↔
      ∃ l, (u.get d).definition?.map Definition.bases = some l ∧ b ∈ l := by
    intro u
    constructor
    · rintro ⟨definition, hd, hb⟩
      exact ⟨definition.bases, by rw [hd]; rfl, hb⟩
    · rintro ⟨l, hl, hb⟩
      obtain ⟨definition, hd, rfl⟩ := Option.map_eq_some_iff.mp hl
      exact ⟨definition, hd, hb⟩
  rw [hBase, hBase, Steps.bases hPos hSteps hNamed]

namespace Reachable

/-- A base comes before what inherits from it and has a name. -/
theorem base_named (h : t.Reachable) {d b : EntityId} (hBase : t.Base d b) :
    b < d ∧ t.Named b ∧ (t.get b).kind.supportsInheritance = true := by
  obtain ⟨definition, hd, hb⟩ := hBase
  obtain ⟨hLt, hNamed, -, -, hSupports⟩ := (h.heads hd).bases b hb
  exact ⟨hLt, hNamed, hSupports⟩

/-- What a base inherits from is like a base itself. -/
theorem inherits_named (h : t.Reachable) {d b a : EntityId} (hBase : t.Base d b)
    (hInherits : t.Inherits b a) :
    a < d ∧ t.Named a ∧ (t.get a).kind.supportsInheritance = true := by
  induction hInherits with
  | refl => exact h.base_named hBase
  | tail _ hLast ih =>
    obtain ⟨hLt, hRest⟩ := h.base_named hLast
    exact ⟨Nat.lt_trans hLt ih.1, hRest⟩

/-- Bases of named definitions were there when these had their names. -/
theorem inherits_before (h : t.Reachable) (hSteps : Steps t t') {b a : EntityId}
    (hNamed : t.Named b) (hInherits : t'.Inherits b a) : t.Inherits b a ∧ t.Named a := by
  induction hInherits with
  | refl => exact ⟨.refl, hNamed⟩
  | tail _ hLast ih =>
    have hBase := (base_iff h.size_pos hSteps ih.2).mp hLast
    exact ⟨ih.1.tail hBase, (h.base_named hBase).2.1⟩

end Reachable

/-! ## Inherited entities -/

/-- What is found stands in the scope of the entity or of one that it inherits from. -/
theorem exists_inherits {first : Bool} {key : String} {n : Nat} {owner y : EntityId}
    (h : t.lookupWithin first key n owner = some y) :
    ∃ a s d, t.Inherits owner a ∧ (t.get a).scope = some s ∧ (t.scope s).get? d key = some y := by
  induction n generalizing owner with
  | zero => cases h
  | succ n ih =>
    rw [lookupWithin] at h
    split at h
    · cases h
    · rename_i s hScope
      split at h
      · rename_i id hOwn
        cases h
        obtain ⟨d, hGet⟩ := lookup?_eq_some hOwn
        exact ⟨owner, s, d, .refl, hScope, hGet⟩
      · split at h
        · cases h
        · rename_i definition hd
          obtain ⟨b, hb, hBase⟩ := List.exists_of_findSome?_eq_some h
          obtain ⟨a, s, d, hInherits, hRest⟩ := ih hBase
          exact ⟨a, s, d, .head ⟨definition, hd, hb⟩ hInherits, hRest⟩

theorem lookup?_isSome {s : Scope} {d : Bool} {key : String} {x : EntityId}
    (h : s.get? d key = some x) (first : Bool) : (s.lookup? first key).isSome = true := by
  unfold Scope.get? at h
  unfold Scope.lookup?
  cases d <;> cases first <;> simp_all

/-- Something is found if an entity that is inherited from has the name. -/
theorem Reachable.lookupKey_isSome (h : t.Reachable) (first : Bool) {key : String} {d : Bool}
    {owner a x : EntityId} {s : ScopeId} (hInherits : t.Inherits owner a)
    (hScope : (t.get a).scope = some s) (hGet : (t.scope s).get? d key = some x) :
    (t.lookupKey first key owner).isSome = true := by
  have hWellFormed := wellFormed_of_reachable h
  induction hInherits using Relation.ReflTransGen.head_induction_on with
  | refl =>
    obtain ⟨y, hy⟩ := Option.isSome_iff_exists.mp (lookup?_isSome hGet first)
    rw [lookupKey_of_get? hScope hy]
    rfl
  | @head owner b hBase _ ih =>
    obtain ⟨definition, hd, hb⟩ := hBase
    have hSome := Option.isSome_of_eq_some hd
    have hLt := lt_of_definition? hSome
    have hOwn : (t.get owner).scope.isSome = true := by
      rw [hWellFormed.hasScope owner hLt, EntityKind.supportsChildren,
        hWellFormed.definition owner hLt hSome, Bool.or_true]
    obtain ⟨own, hOwn⟩ := Option.isSome_iff_exists.mp hOwn
    rw [h.lookupKey_eq, hOwn, Option.bind_some]
    cases (t.scope own).lookup? first key with
    | some y => rfl
    | none =>
      rw [Option.none_or, hd, Option.bind_some]
      exact List.findSome?_isSome_iff.mpr ⟨b, hb, ih⟩

/-- A name is given only if it is not inherited. -/
theorem lookupInBases_of_setName {id p found : EntityId} {name : String}
    {forward listed : Bool} (hParent : (t.get id).parent = some p)
    (h : t.setName id name forward listed = .ok (found, t')) :
    t.lookupInBases p (t.key name) = none := by
  obtain ⟨parent, scope, hFound, -, hFree, -⟩ := setName_eq_ok.mp h
  obtain rfl : p = parent := Option.some.inj (hParent.symm.trans hFound)
  exact hFree

namespace Reachable

/-- Every entity but recorded directives and the root got its name in a step. -/
theorem exists_naming (h : t.Reachable) {x : EntityId} (hNamed : t.Named x)
    (hKind : (t.get x).kind ≠ .directive) :
    ∃ t₀, t₀.Reachable ∧ Steps t₀ t ∧ t₀.Open x ∧
      ∀ p, (t.get x).parent = some p → t₀.lookupInBases p (t₀.key (t.get x).name) = none := by
  obtain ⟨caseSensitive, hSteps⟩ := h
  induction hSteps with
  | refl =>
    have hRoot : x = root := Nat.lt_one_iff.mp hNamed.1
    rw [Named, hRoot] at hNamed
    exact absurd rfl hNamed.2
  | @tail t t' hBefore hStep ih =>
    have hReachable : t.Reachable := ⟨caseSensitive, hBefore⟩
    have hExtends := hStep.extends hReachable.size_pos
    by_cases hOld : t.Named x
    · obtain ⟨hName, -⟩ := hExtends.settled x hOld.1 (Or.inr hOld.2)
      rw [hExtends.kind x hOld.1] at hKind
      rw [hName, hExtends.parent x hOld.1]
      obtain ⟨t₀, hFirst, hSteps, hRest⟩ := ih hOld hKind
      exact ⟨t₀, hFirst, hSteps.tail hStep, hRest⟩
    · obtain ⟨found, name, forward, listed, hOpen, -, -, hSet⟩ :=
        hStep.naming hReachable.size_pos hOld hNamed hKind
      obtain ⟨e, hRenames, -, -, hNew⟩ := (naming_of_setName hOpen.lt hSet).renames
      refine ⟨t, hReachable, .single hStep, hOpen, fun p hp => ?_⟩
      rw [hExtends.parent x hOpen.lt] at hp
      rw [hRenames.self.name, hNew]
      exact lookupInBases_of_setName hp hSet

/-- What a definition inherits under the name of one of its members comes after this member,
and stands in something that the definition inherits from. -/
theorem inherited_later (h : t.Reachable) {d b x y : EntityId} {first : Bool}
    (hBase : t.Base d b) (hx : t.Found x) (hParent : (t.get x).parent = some d)
    (hLookup : t.lookupKey first (t.key (t.get x).name) b = some y) :
    x < y ∧ ∃ a, t.Inherits b a ∧ (t.get y).parent = some a := by
  have hWellFormed := wellFormed_of_reachable h
  obtain ⟨a, s, sort, hInherits, hScope, hGet⟩ := exists_inherits hLookup
  obtain ⟨haLt, haNamed, haKind⟩ := h.inherits_named hBase hInherits
  obtain ⟨hNamed, hRegistrable, -, hKey, p, hyParent, hPlace⟩ :=
    hWellFormed.entry s sort _ y (hWellFormed.scope_lt a s haNamed.1 hScope) hGet
  have hpLt := hWellFormed.parent_lt_size hNamed.1 hyParent
  -- The scope belongs to `a` alone, as only modules share scopes.
  obtain rfl : p = a := by
    rcases hWellFormed.shared p a s hpLt haNamed.1 hPlace hScope with hEq | ⟨-, hModule⟩
    · exact hEq
    · rw [hModule] at haKind
      cases haKind
  refine ⟨Nat.lt_of_not_le fun hLe => ?_, p, hInherits, hyParent⟩
  have hNe : y ≠ x := by
    rintro rfl
    rw [hParent] at hyParent
    cases hyParent
    exact Nat.lt_irrefl _ haLt
  have hDirective : (t.get x).kind ≠ .directive := by
    intro hKind
    rcases hx.2 with hDefinition | hDeclaration
    · rw [hKind] at hDefinition
      cases hDefinition
    · rw [hKind] at hDeclaration
      cases hDeclaration
  obtain ⟨t₀, h₀, hSteps, hOpen, hFree⟩ := h.exists_naming hx.1 hDirective
  have hExtends := hSteps.extends h₀.size_pos
  have hWellFormed₀ := wellFormed_of_reachable h₀
  have hxParent : (t₀.get x).parent = some d := by
    rw [← hExtends.parent x hOpen.lt]
    exact hParent
  -- The definition had its bases when `x` got its name.
  have hdLt := hWellFormed₀.parent_lt_size hOpen.lt hxParent
  have hdNe : d ≠ root := by
    rintro rfl
    exact absurd (h.base_named hBase).1 (Nat.not_lt_zero _)
  have hdNamed : t₀.Named d :=
    ⟨hdLt, hOpen.others d hdNe (hWellFormed₀.ne_of_open hOpen hOpen.lt hxParent) hdLt⟩
  have hBase₀ := (base_iff h₀.size_pos hSteps hdNamed).mp hBase
  obtain ⟨hInherits₀, hpNamed₀⟩ :=
    h₀.inherits_before hSteps (h₀.base_named hBase₀).2.1 hInherits
  have hScope₀ : (t₀.get p).scope = some s := by
    rw [← (hExtends.settled p hpNamed₀.1 (Or.inr hpNamed₀.2)).2.2]
    exact hScope
  -- So was `y`, whose name led to something in the same scope.
  have hyLt : y < t₀.size := Nat.lt_of_le_of_lt hLe hOpen.lt
  have hyNamed : t₀.Named y :=
    ⟨hyLt, hOpen.others y (hWellFormed.ne_root_of_parent hyParent) hNe hyLt⟩
  rw [hExtends.kind y hyLt] at hRegistrable
  rw [hExtends.parent y hyLt] at hyParent
  obtain ⟨z, hz, -⟩ := hWellFormed₀.registered y p s hyNamed hRegistrable hyParent hScope₀
  rw [← (hExtends.settled y hyLt (Or.inr hyNamed.2)).1,
    ← key_eq_of_caseSensitive hExtends.caseSensitive, ← hKey,
    key_eq_of_caseSensitive hExtends.caseSensitive] at hz
  obtain ⟨definition, hd, hb⟩ := hBase₀
  have hNone := hFree d hParent
  unfold lookupInBases at hNone
  rw [hd] at hNone
  have hFound := h₀.lookupKey_isSome false hInherits₀ hScope₀ hz
  rw [List.findSome?_eq_none_iff.mp hNone b hb] at hFound
  cases hFound

end Reachable

end IdlReader.Tree
