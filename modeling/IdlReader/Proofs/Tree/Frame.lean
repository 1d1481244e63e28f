import IdlReader.Proofs.Tree.Step

/-!
# Places of entities

What holds of single entities and their parents in every reachable tree: entities lie behind
their parents, which have names or are the root, and scopes belong to one entity, or to modules
that go on with each other.

* `Joins.framed`: what an entity more preserves.
* `Renames.framed`: what a name more preserves.
-/

namespace IdlReader.Tree

/-- Whether an entity is a definition or a declaration. -/
def Registrable (k : EntityKind) : Prop := k.isDefinition = true ∨ k.isDeclaration = true

/-- What holds of single entities and their parents in every reachable tree. -/
structure Framed (t : Tree) : Prop where
  pos : 0 < t.size
  rootKind : (t.get root).kind = .root
  rootParent : (t.get root).parent = none
  kind_ne_root : ∀ i, i ≠ root → i < t.size → (t.get i).kind ≠ .root
  parent : ∀ i, i ≠ root → i < t.size → ∃ p, (t.get i).parent = some p ∧ p < i ∧
    (p = root ∨ (t.get p).name ≠ "" ∧ (t.get p).forward = false) ∧
    (t.get p).kind.supportsChildren = true ∧
    ((t.get i).kind = .parameter ↔ (t.get p).kind = .operation)
  hasScope : ∀ i, i < t.size → ((t.get i).scope.isSome = (t.get i).kind.supportsChildren)
  scope_lt : ∀ i s, i < t.size → (t.get i).scope = some s → s < t.scopes.size
  /-- Only modules share scopes. -/
  shared : ∀ i j s, i < t.size → j < t.size → (t.get i).scope = some s →
    (t.get j).scope = some s → i = j ∨ (t.get i).kind = .module ∧ (t.get j).kind = .module
  unnamed : ∀ i, i < t.size → (t.get i).name = "" →
    (t.get i).forward = false ∧ (t.get i).kind ≠ .directive
  forward : ∀ i, i < t.size → (t.get i).forward = true → (t.get i).kind.isDefinition = true
  name : ∀ i, i < t.size → (t.get i).name ≠ "" → IsName (t.get i).name
  definition : ∀ i, i < t.size → (t.get i).definition?.isSome = true →
    (t.get i).kind.isDefinition = true

theorem framed_initial (caseSensitive : Bool) : (initial caseSensitive).Framed := by
  have hOnly : ∀ i, i < (initial caseSensitive).size → i = root := fun i hi =>
    Nat.lt_one_iff.mp hi
  have hRoot : ∀ i, i ≠ root → ¬ i < (initial caseSensitive).size := fun i hi hLt =>
    hi (hOnly i hLt)
  refine
    { pos := size_pos_initial caseSensitive
      rootKind := rfl
      rootParent := rfl
      kind_ne_root := fun i hi hLt => absurd hLt (hRoot i hi)
      parent := fun i hi hLt => absurd hLt (hRoot i hi)
      hasScope := ?_
      scope_lt := ?_
      shared := fun i j s hi hj _ _ => Or.inl ((hOnly i hi).trans (hOnly j hj).symm)
      unnamed := ?_
      forward := ?_
      name := ?_
      definition := ?_ }
  · intro i hi
    rw [hOnly i hi]
    rfl
  · intro i s hi hScope
    rw [hOnly i hi] at hScope
    cases hScope
    exact Nat.one_pos
  · intro i hi _
    rw [hOnly i hi]
    exact ⟨rfl, nofun⟩
  · intro i hi hForward
    rw [hOnly i hi] at hForward
    cases hForward
  · intro i hi hName
    rw [hOnly i hi] at hName
    exact absurd rfl hName
  · intro i hi hDefinition
    rw [hOnly i hi] at hDefinition
    cases hDefinition

theorem Framed.congr {t t' : Tree} (h : t.Framed) (hSize : t'.size = t.size)
    (hScopes : t'.scopes = t.scopes) (hAlike : ∀ i, Entity.Alike (t.get i) (t'.get i)) :
    t'.Framed := by
  have hKind : ∀ i, (t'.get i).kind = (t.get i).kind := fun i => (hAlike i).kind
  have hName : ∀ i, (t'.get i).name = (t.get i).name := fun i => (hAlike i).name
  have hParent : ∀ i, (t'.get i).parent = (t.get i).parent := fun i => (hAlike i).parent
  have hScope : ∀ i, (t'.get i).scope = (t.get i).scope := fun i => (hAlike i).scope
  have hForward : ∀ i, (t'.get i).forward = (t.get i).forward := fun i => (hAlike i).forward
  have hDefinition : ∀ i, (t'.get i).definition?.isSome = (t.get i).definition?.isSome :=
    fun i => (hAlike i).definition
  constructor
  case pos =>
    rw [hSize]
    exact h.pos
  case rootKind => simpa only [hKind] using h.rootKind
  case rootParent => simpa only [hParent] using h.rootParent
  case kind_ne_root => simpa only [hSize, hKind] using h.kind_ne_root
  case parent => simpa only [hSize, hParent, hName, hForward, hKind] using h.parent
  case hasScope => simpa only [hSize, hScope, hKind] using h.hasScope
  case scope_lt => simpa only [hSize, hScope, hScopes] using h.scope_lt
  case shared => simpa only [hSize, hScope, hKind] using h.shared
  case unnamed => simpa only [hSize, hName, hForward, hKind] using h.unnamed
  case forward => simpa only [hSize, hForward, hKind] using h.forward
  case name => simpa only [hSize, hName] using h.name
  case definition => simpa only [hSize, hDefinition, hKind] using h.definition

/-! ## Places -/

namespace Framed

variable {t : Tree}

theorem ne_root_of_parent (h : t.Framed) {x p : EntityId} (hParent : (t.get x).parent = some p) :
    x ≠ root := by
  intro hRoot
  rw [hRoot, h.rootParent] at hParent
  cases hParent

theorem parent_lt (h : t.Framed) {x p : EntityId} (hx : x < t.size)
    (hParent : (t.get x).parent = some p) : p < x := by
  obtain ⟨q, hq, hLt, -, -⟩ := h.parent x (h.ne_root_of_parent hParent) hx
  rw [hParent] at hq
  cases hq
  exact hLt

theorem parent_lt_size (h : t.Framed) {x p : EntityId} (hx : x < t.size)
    (hParent : (t.get x).parent = some p) : p < t.size := Nat.lt_trans (h.parent_lt hx hParent) hx

/-- Nothing lies inside of the entity without a name. -/
theorem ne_of_open (h : t.Framed) {id x p : EntityId} (hOpen : t.Open id) (hx : x < t.size)
    (hParent : (t.get x).parent = some p) : p ≠ id := by
  obtain ⟨q, hq, -, hFull, -⟩ := h.parent x (h.ne_root_of_parent hParent) hx
  rw [hParent] at hq
  cases hq
  intro hEq
  rcases hFull with hRoot | ⟨hName, -⟩
  · exact hOpen.ne_root (hEq.symm.trans hRoot)
  · rw [hEq] at hName
    exact hName hOpen.unnamed

/-- The entity without a name is a definition or a declaration. -/
theorem registrable_of_open (h : t.Framed) {id : EntityId} (hOpen : t.Open id) :
    Registrable (t.get id).kind := by
  have hRoot := h.kind_ne_root id hOpen.ne_root hOpen.lt
  have hDirective := (h.unnamed id hOpen.lt hOpen.unnamed).2
  unfold Registrable
  generalize (t.get id).kind = kind at hRoot hDirective
  cases kind
  case root => exact absurd rfl hRoot
  case directive => exact absurd rfl hDirective
  all_goals decide

end Framed

theorem Named.ne_of_open {t : Tree} {id x : EntityId} (hNamed : t.Named x) (hOpen : t.Open id) :
    x ≠ id := by
  intro hEq
  rw [hEq] at hNamed
  exact hNamed.2 hOpen.unnamed

/-! ## An entity more -/

/-- Whether the entity `e`, which may have a scope of its own, comes behind the others. -/
structure Joins (t t' : Tree) (e : Entity) : Prop where
  size : t'.size = t.size + 1
  caseSensitive : t'.caseSensitive = t.caseSensitive
  scopes : t'.scopes = if e.kind.supportsChildren then t.scopes.push {} else t.scopes
  old : ∀ i, i < t.size → Entity.Alike (t.get i) (t'.get i)
  new : Entity.Alike e (t'.get t.size)
  scope : e.scope = if e.kind.supportsChildren then some t.scopes.size else none

namespace Joins

variable {t t' : Tree} {e : Entity}

theorem lt_or_eq (h : Joins t t' e) {i : EntityId} (hi : i < t'.size) :
    i < t.size ∨ i = t.size := by
  rw [h.size] at hi
  exact Nat.lt_or_eq_of_le (Nat.le_of_lt_succ hi)

theorem le_scopes (h : Joins t t' e) : t.scopes.size ≤ t'.scopes.size := by
  rw [h.scopes]
  split
  · rw [Array.size_push]
    exact Nat.le_succ _
  · exact Nat.le_refl _

theorem scope_of_lt (h : Joins t t' e) {s : ScopeId} (hs : s < t.scopes.size) :
    t'.scope s = t.scope s := by
  unfold Tree.scope
  rw [h.scopes]
  split
  · rw [Array.getElem?_push, if_neg (Nat.ne_of_lt hs)]
  · rfl

/-- The scope of the new entity is empty. -/
theorem scope_of_le (h : Joins t t' e) {s : ScopeId} (hs : s < t'.scopes.size)
    (hOld : ¬ s < t.scopes.size) : t'.scope s = {} := by
  unfold Tree.scope
  rw [h.scopes] at hs ⊢
  split at hs
  · rename_i hSupports
    rw [Array.size_push] at hs
    have hEq : s = t.scopes.size :=
      Nat.le_antisymm (Nat.le_of_lt_succ hs) (Nat.le_of_not_lt hOld)
    rw [if_pos hSupports, Array.getElem?_push, if_pos hEq]
    rfl
  · exact absurd hs hOld

theorem named_iff (h : Joins t t' e) {i : EntityId} (hi : i < t.size) :
    t'.Named i ↔ t.Named i := by
  unfold Named
  rw [(h.old i hi).name, h.size]
  exact ⟨fun hNamed => ⟨hi, hNamed.2⟩, fun hNamed => ⟨Nat.lt_succ_of_lt hi, hNamed.2⟩⟩

/-- What is asked of an entity that comes to the others. -/
structure Admissible (t : Tree) (e : Entity) : Prop where
  parent : ∃ p, e.parent = some p ∧ p < t.size ∧
    (p = root ∨ (t.get p).name ≠ "" ∧ (t.get p).forward = false) ∧
    (t.get p).kind.supportsChildren = true ∧
    (e.kind = .parameter ↔ (t.get p).kind = .operation)
  forward : e.forward = false
  kind : e.kind ≠ .root
  name : e.kind ≠ .directive ∧ e.name = "" ∨ e.kind = .directive ∧ IsName e.name
  definition : e.definition?.isSome = true → e.kind.isDefinition = true

theorem framed (h : t.Framed) (hJoins : Joins t t' e) (hNew : Admissible t e) : t'.Framed := by
  have hFresh : ∀ i s, i < t.size → (t.get i).scope = some s → (t'.get t.size).scope ≠ some s := by
    intro i s hi hs hEq
    have hBound := h.scope_lt i s hi hs
    rw [hJoins.new.scope, hJoins.scope] at hEq
    split at hEq
    · cases hEq
      exact absurd hBound (Nat.lt_irrefl _)
    · cases hEq
  constructor
  case pos =>
    rw [hJoins.size]
    exact Nat.succ_pos _
  case rootKind => exact (hJoins.old root h.pos).kind.trans h.rootKind
  case rootParent => exact (hJoins.old root h.pos).parent.trans h.rootParent
  case kind_ne_root =>
    intro i hi hLt
    rcases hJoins.lt_or_eq hLt with hLt | rfl
    · rw [(hJoins.old i hLt).kind]
      exact h.kind_ne_root i hi hLt
    · rw [hJoins.new.kind]
      exact hNew.kind
  case parent =>
    intro i hi hLt
    rcases hJoins.lt_or_eq hLt with hLt | rfl
    · obtain ⟨q, hq, hqLt, hqPlace⟩ := h.parent i hi hLt
      have hqOld := hJoins.old q (Nat.lt_trans hqLt hLt)
      rw [(hJoins.old i hLt).parent, (hJoins.old i hLt).kind]
      refine ⟨q, hq, hqLt, ?_⟩
      rw [hqOld.name, hqOld.forward, hqOld.kind]
      exact hqPlace
    · obtain ⟨q, hq, hqLt, hqPlace⟩ := hNew.parent
      have hqOld := hJoins.old q hqLt
      rw [hJoins.new.parent, hJoins.new.kind]
      refine ⟨q, hq, hqLt, ?_⟩
      rw [hqOld.name, hqOld.forward, hqOld.kind]
      exact hqPlace
  case hasScope =>
    intro i hi
    rcases hJoins.lt_or_eq hi with hi | rfl
    · rw [(hJoins.old i hi).scope, (hJoins.old i hi).kind]
      exact h.hasScope i hi
    · rw [hJoins.new.scope, hJoins.new.kind, hJoins.scope]
      cases e.kind.supportsChildren <;> rfl
  case scope_lt =>
    intro i s hi hs
    rcases hJoins.lt_or_eq hi with hi | rfl
    · rw [(hJoins.old i hi).scope] at hs
      exact Nat.lt_of_lt_of_le (h.scope_lt i s hi hs) hJoins.le_scopes
    · rw [hJoins.new.scope, hJoins.scope] at hs
      split at hs
      · rename_i hSupports
        cases hs
        rw [hJoins.scopes, if_pos hSupports, Array.size_push]
        exact Nat.lt_succ_self _
      · cases hs
  case shared =>
    intro i j s hi hj hsi hsj
    rcases hJoins.lt_or_eq hi with hi | rfl
    · rw [(hJoins.old i hi).scope] at hsi
      rcases hJoins.lt_or_eq hj with hj | rfl
      · rw [(hJoins.old j hj).scope] at hsj
        rw [(hJoins.old i hi).kind, (hJoins.old j hj).kind]
        exact h.shared i j s hi hj hsi hsj
      · exact absurd hsj (hFresh i s hi hsi)
    · rcases hJoins.lt_or_eq hj with hj | rfl
      · rw [(hJoins.old j hj).scope] at hsj
        exact absurd hsi (hFresh j s hj hsj)
      · exact Or.inl rfl
  case unnamed =>
    intro i hi hEmpty
    rcases hJoins.lt_or_eq hi with hi | rfl
    · rw [(hJoins.old i hi).name] at hEmpty
      rw [(hJoins.old i hi).forward, (hJoins.old i hi).kind]
      exact h.unnamed i hi hEmpty
    · rw [hJoins.new.name] at hEmpty
      rw [hJoins.new.forward, hJoins.new.kind]
      rcases hNew.name with ⟨hKind, -⟩ | ⟨-, hIsName⟩
      · exact ⟨hNew.forward, hKind⟩
      · exact absurd hEmpty hIsName.ne_empty
  case forward =>
    intro i hi hTrue
    rcases hJoins.lt_or_eq hi with hi | rfl
    · rw [(hJoins.old i hi).forward] at hTrue
      rw [(hJoins.old i hi).kind]
      exact h.forward i hi hTrue
    · rw [hJoins.new.forward, hNew.forward] at hTrue
      cases hTrue
  case name =>
    intro i hi hNe
    rcases hJoins.lt_or_eq hi with hi | rfl
    · rw [(hJoins.old i hi).name] at hNe ⊢
      exact h.name i hi hNe
    · rw [hJoins.new.name] at hNe ⊢
      rcases hNew.name with ⟨-, hEmpty⟩ | ⟨-, hIsName⟩
      · exact absurd hEmpty hNe
      · exact hIsName
  case definition =>
    intro i hi hSome
    rcases hJoins.lt_or_eq hi with hi | rfl
    · rw [(hJoins.old i hi).definition] at hSome
      rw [(hJoins.old i hi).kind]
      exact h.definition i hi hSome
    · rw [hJoins.new.definition] at hSome
      rw [hJoins.new.kind]
      exact hNew.definition hSome

end Joins

/-! ## A name more -/

/-- What becomes of the entity that is named: its scope may become that of a module, and it
may be a forward declaration if it is a definition. -/
structure Renamed (t : Tree) (id : EntityId) (e : Entity) : Prop where
  kind : e.kind = (t.get id).kind
  parent : e.parent = (t.get id).parent
  name : IsName e.name
  definition : e.definition?.isSome = (t.get id).definition?.isSome
  forward : e.forward = true → (t.get id).kind.isDefinition = true
  scope : e.scope = (t.get id).scope ∨
    ∃ x, x < t.size ∧ (t.get x).kind = .module ∧ (t.get id).kind = .module ∧
      e.scope = (t.get x).scope

namespace Renames

variable {t t' : Tree} {id : EntityId} {e : Entity}

theorem framed (h : t.Framed) (hOpen : t.Open id) (hRenames : Renames t t' id e)
    (hScopes : t'.scopes.size = t.scopes.size) (hNew : Renamed t id e) : t'.Framed := by
  have hKind : ∀ i, (t'.get i).kind = (t.get i).kind := by
    intro i
    by_cases hi : i = id
    · rw [hi, hRenames.self.kind, hNew.kind]
    · exact (hRenames.others i hi).kind
  have hParent : ∀ i, (t'.get i).parent = (t.get i).parent := by
    intro i
    by_cases hi : i = id
    · rw [hi, hRenames.self.parent, hNew.parent]
    · exact (hRenames.others i hi).parent
  have hDefinition : ∀ i, (t'.get i).definition?.isSome = (t.get i).definition?.isSome := by
    intro i
    by_cases hi : i = id
    · rw [hi, hRenames.self.definition, hNew.definition]
    · exact (hRenames.others i hi).definition
  /- The scope of each entity is that of one of the same kind, and for `id` also among the
  modules. -/
  have hScope : ∀ i, i < t.size → (t'.get i).scope = (t.get i).scope ∨
      ∃ x, x < t.size ∧ (t.get x).kind = .module ∧ (t.get i).kind = .module ∧
        (t'.get i).scope = (t.get x).scope := by
    intro i _
    by_cases hi : i = id
    · rw [hi, hRenames.self.scope]
      exact hNew.scope
    · exact Or.inl (hRenames.others i hi).scope
  constructor
  case pos =>
    rw [hRenames.size]
    exact h.pos
  case rootKind => exact (hKind root).trans h.rootKind
  case rootParent => exact (hParent root).trans h.rootParent
  case kind_ne_root =>
    intro i hi hLt
    rw [hKind]
    exact h.kind_ne_root i hi (hRenames.size ▸ hLt)
  case parent =>
    intro i hi hLt
    have hLt : i < t.size := hRenames.size ▸ hLt
    obtain ⟨q, hq, hqLt, hPlace⟩ := h.parent i hi hLt
    have hqAlike := hRenames.others q (h.ne_of_open hOpen hLt hq)
    rw [hParent, hKind]
    refine ⟨q, hq, hqLt, ?_⟩
    rw [hqAlike.name, hqAlike.forward, hqAlike.kind]
    exact hPlace
  case hasScope =>
    intro i hi
    have hi : i < t.size := hRenames.size ▸ hi
    rw [hKind]
    rcases hScope i hi with hSame | ⟨x, hx, hxKind, hiKind, hSame⟩
    · rw [hSame]
      exact h.hasScope i hi
    · rw [hSame, h.hasScope x hx, hxKind, hiKind]
  case scope_lt =>
    intro i s hi hs
    have hi : i < t.size := hRenames.size ▸ hi
    rw [hScopes]
    rcases hScope i hi with hSame | ⟨x, hx, -, -, hSame⟩
    · exact h.scope_lt i s hi (hSame ▸ hs)
    · exact h.scope_lt x s hx (hSame ▸ hs)
  case shared =>
    intro i j s hi hj hsi hsj
    have hi : i < t.size := hRenames.size ▸ hi
    have hj : j < t.size := hRenames.size ▸ hj
    rw [hKind, hKind]
    rcases hScope i hi with hiSame | ⟨x, hx, hxKind, hiKind, hiSame⟩
    · rcases hScope j hj with hjSame | ⟨y, hy, hyKind, hjKind, hjSame⟩
      · exact h.shared i j s hi hj (hiSame ▸ hsi) (hjSame ▸ hsj)
      · rcases h.shared i y s hi hy (hiSame ▸ hsi) (hjSame ▸ hsj) with rfl | ⟨hiKind, -⟩
        · exact Or.inr ⟨hyKind, hjKind⟩
        · exact Or.inr ⟨hiKind, hjKind⟩
    · rcases hScope j hj with hjSame | ⟨y, hy, hyKind, hjKind, hjSame⟩
      · rcases h.shared x j s hx hj (hiSame ▸ hsi) (hjSame ▸ hsj) with rfl | ⟨-, hjKind⟩
        · exact Or.inr ⟨hiKind, hxKind⟩
        · exact Or.inr ⟨hiKind, hjKind⟩
      · exact Or.inr ⟨hiKind, hjKind⟩
  case unnamed =>
    intro i hi hEmpty
    have hi : i < t.size := hRenames.size ▸ hi
    by_cases hEq : i = id
    · rw [hEq, hRenames.self.name] at hEmpty
      exact absurd hEmpty hNew.name.ne_empty
    · have hAlike := hRenames.others i hEq
      rw [hAlike.name] at hEmpty
      rw [hAlike.forward, hAlike.kind]
      exact h.unnamed i hi hEmpty
  case forward =>
    intro i hi hTrue
    rw [hKind]
    by_cases hEq : i = id
    · rw [hEq, hRenames.self.forward] at hTrue
      rw [hEq]
      exact hNew.forward hTrue
    · rw [(hRenames.others i hEq).forward] at hTrue
      exact h.forward i (hRenames.size ▸ hi) hTrue
  case name =>
    intro i hi hNe
    by_cases hEq : i = id
    · rw [hEq, hRenames.self.name]
      exact hNew.name
    · rw [(hRenames.others i hEq).name] at hNe ⊢
      exact h.name i (hRenames.size ▸ hi) hNe
  case definition =>
    intro i hi hSome
    rw [hDefinition] at hSome
    rw [hKind]
    exact h.definition i (hRenames.size ▸ hi) hSome

/-- Parents keep their scopes. -/
theorem place (h : t.Framed) (hOpen : t.Open id) (hRenames : Renames t t' id e)
    {x p : EntityId} {s : ScopeId} (hx : x < t.size) (hParent : (t.get x).parent = some p)
    (hScope : (t.get p).scope = some s) :
    (t'.get p).scope = some s ∧ s < t.scopes.size := by
  rw [(hRenames.others p (h.ne_of_open hOpen hx hParent)).scope]
  exact ⟨hScope, h.scope_lt p s (h.parent_lt_size hx hParent) hScope⟩

theorem named_iff (hRenames : Renames t t' id e) {x : EntityId} (hx : x ≠ id) :
    t'.Named x ↔ t.Named x := by
  unfold Named
  rw [hRenames.size, (hRenames.others x hx).name]

end Renames

end IdlReader.Tree
