import IdlReader.Proofs.Mirror.Lookup
import IdlReader.Proofs.Tree.Precedence

/-!
# One entity more

A reader that meets one definition more gives it the next number, and all that is read behind it
gets the next higher one. What was read before refers to nothing but what was read before. So the
entities of the one tree stand for those of the other one, from there on.

* `Reachable.mirrors_self`: what was read before stands for itself.
* `Tree.Mirrors.inserted`: a tree and the tree with one definition more.
* `Entity.Mirrors.eq_renumber`: exact mirrors differ in numbers and ends only.
-/

namespace IdlReader

/-! ## Numbers -/

/-- The numbers from `k` on are moved by one. -/
def shift (k i : Nat) : Nat := if i < k then i else i + 1

theorem shift_of_lt {k i : Nat} (h : i < k) : shift k i = i := if_pos h

theorem shift_of_le {k i : Nat} (h : k ≤ i) : shift k i = i + 1 := if_neg (Nat.not_lt_of_le h)

theorem shift_ne (k i : Nat) : shift k i ≠ k := by
  unfold shift
  split <;> omega

theorem shift_injective (k : Nat) : Function.Injective (shift k) := by
  intro i j h
  unfold shift at h
  split at h <;> split at h <;> omega

theorem exists_shift {k i : Nat} (h : i ≠ k) : ∃ j, shift k j = i := by
  rcases Nat.lt_or_ge i k with hLt | hLe
  · exact ⟨i, shift_of_lt hLt⟩
  · refine ⟨i - 1, ?_⟩
    rw [shift_of_le (by omega)]
    omega

/-! ## The mirror -/

/-- The numbers behind a definition that only one of two readers meets. It has the numbers `k`
and `s` and is `slot`; the entity `m` may end at `q` instead. -/
def Mirror.inserting {k : EntityId} (hk : 0 < k) (s : ScopeId) (slot : Entity) (m : EntityId)
    (q : Position) (reading : Prop) : Mirror where
  entity := shift k
  scope := shift s
  other := fun _ => slot
  exact := True
  reading := reading
  ends := fun i p p' => p' = p ∨ i = m ∧ p' = q
  ends_refl := fun _ _ => Or.inl rfl
  entity_root := shift_of_lt hk
  entity_injective := shift_injective k
  scope_injective := shift_injective s

/-! ## What was read before -/

theorem map_eq_self {α : Type} {f : α → α} {l : List α} (h : ∀ x ∈ l, f x = x) : l.map f = l :=
  (List.map_congr_left h).trans (List.map_id l)

theorem option_map_eq_self {α : Type} {f : α → α} {x : Option α} (h : ∀ a, x = some a → f a = a) :
    x.map f = x := by
  cases x with
  | none => rfl
  | some a => exact congrArg some (h a rfl)

namespace DeclaredType

mutual

theorem renumber_eq_self {f : EntityId → EntityId} : ∀ (type : DeclaredType),
    (∀ x ∈ type.references, f x = x) → type.renumber f = type
  | ⟨base, text, definition, length, decimals, key, value⟩, h => by
    have hDefinition : definition.map f = definition := by
      refine option_map_eq_self fun x hx => h x ?_
      rw [references, hx]
      simp
    have hKey := renumberPart_eq_self key fun x hx => h x (by
      rw [references]
      simp [hx])
    have hValue := renumberPart_eq_self value fun x hx => h x (by
      rw [references]
      simp [hx])
    rw [renumber, hDefinition, hKey, hValue]

theorem renumberPart_eq_self {f : EntityId → EntityId} : ∀ (type : Option DeclaredType),
    (∀ x ∈ optionReferences type, f x = x) → renumberPart f type = type
  | none, _ => rfl
  | some type, h => by
    rw [renumberPart, renumber_eq_self type h]

end

theorem renumber_id (type : DeclaredType) : type.renumber id = type :=
  type.renumber_eq_self fun _ _ => rfl

end DeclaredType

theorem Definition.renumber_id (d : Definition) : d.renumber id = d := by
  have hSwitch : d.switchType.map (DeclaredType.renumber id) = d.switchType :=
    option_map_eq_self fun type _ => type.renumber_id
  unfold Definition.renumber
  rw [hSwitch, List.map_id]

theorem Declaration.Mirrors.self {M : Mirror} {d : Declaration}
    (hType : ∀ x ∈ d.type.references, M.entity x = x)
    (hParameters : ∀ x ∈ d.parameters, M.entity x = x)
    (hExceptions : ∀ x ∈ d.exceptions, M.entity x = x) : d.Mirrors M d := by
  have hRaises := fun x hx => hExceptions x
    (List.mem_append_left _ (List.mem_append_left _ hx))
  have hGetRaises := fun x hx => hExceptions x
    (List.mem_append_left _ (List.mem_append_right _ hx))
  have hSetRaises := fun x hx => hExceptions x (List.mem_append_right _ hx)
  have hTokens : ∀ l : List (List Token), List.Forall₂ M.Tokens l l := by
    intro l
    induction l with
    | nil => exact .nil
    | cons ts l ih => exact .cons (.refl ts) ih
  exact
    { type := (DeclaredType.renumber_eq_self _ hType).symm
      dimensions := hTokens _, sizes := rfl, assignment := .refl _, value := rfl, readonly := rfl
      direction := rfl, constOperation := rfl, parameters := (map_eq_self hParameters).symm
      raises := (map_eq_self hRaises).symm, getRaises := (map_eq_self hGetRaises).symm
      setRaises := (map_eq_self hSetRaises).symm, labels := hTokens _, caseValues := rfl
      defaultCase := rfl, progress := rfl }

namespace Tree

variable {M : Mirror} {t t' : Tree}

/-- What was read before stands for itself if its numbers stay. -/
theorem Reachable.mirrors_self (h : t.Reachable) (hEntity : ∀ x, x < t.size → M.entity x = x)
    (hScope : ∀ s, s < t.scopes.size → M.scope s = s) (i : EntityId) :
    (t.get i).Mirrors M i (t.get i) := by
  by_cases hi : i < t.size
  · have hWellFormed := wellFormed_of_reachable h
    have hData : (t.get i).data.Mirrors M (t.get i).data := by
      have hLists := h.lists i
      cases hd : (t.get i).data with
      | root records =>
        rw [hd] at hLists
        have hRoot := EntityData.Mirrors.root (M := M) records
        rwa [map_eq_self fun x hx => hEntity x (hLists x hx)] at hRoot
      | definition d =>
        have hHeads := h.heads (i := i) (d := d) (by rw [Entity.definition?, hd])
        have hDefinition := EntityData.Mirrors.definition (M := M) d
        have hBases := map_eq_self fun b hb => hEntity b (hHeads.bases b hb).2.1.1
        have hSwitch : d.switchType.map (DeclaredType.renumber M.entity) = d.switchType :=
          option_map_eq_self fun type hType => DeclaredType.renumber_eq_self type
            fun x hx => hEntity x (hHeads.switchType type hType x hx).2.1.1
        rwa [Definition.renumber, hBases, hSwitch] at hDefinition
      | declaration d =>
        have hd? : (t.get i).declaration? = some d := by rw [Entity.declaration?, hd]
        rw [hd] at hLists
        exact .declaration (.self (fun x hx => hEntity x (h.typed i d hd? x hx).1.1)
          (fun x hx => hEntity x (hLists x hx))
          fun x hx => hEntity x (h.exceptions hd? hx).1.1)
      | record kind content => exact .record kind content
    exact
      { kind := rfl, name := rfl
        parent := (option_map_eq_self fun p hp => hEntity p (Nat.lt_trans
          (hWellFormed.toFramed.parent_lt hi hp) hi)).symm
        children := (map_eq_self fun c hc =>
          hEntity c (h.parent_of_mem_children hc).1.1).symm
        scope := (option_map_eq_self fun s hs =>
          hScope s (hWellFormed.scope_lt i s hi hs)).symm
        forward := rfl, anonymous := rfl, data := hData, source := fun _ => rfl
        first := fun _ => rfl, last := fun _ => M.ends_refl _ _, comments := fun _ => rfl
        commentFlags := fun _ => rfl }
  · rw [get_of_le hi]
    exact ⟨rfl, rfl, rfl, rfl, rfl, rfl, rfl, .root [], fun _ => rfl, fun _ => rfl,
      fun _ => M.ends_refl _ _, fun _ => rfl, fun _ => rfl⟩

/-- A tree stands for the tree with one definition more. -/
theorem Mirrors.inserted (h : t.Reachable) {slot : Entity} (m : EntityId) (q : Position)
    (reading : Prop)
    (hCase : t'.caseSensitive = t.caseSensitive) (hSize : t'.size = t.size + 1)
    (hScopes : t'.scopes = t.scopes.push {})
    (hGet : ∀ i, t'.get i = if i = t.size then slot else t.get i) :
    t.Mirrors (.inserting h.size_pos t.scopes.size slot m q reading) t' := by
  have hScopesSize : t'.scopes.size = t.scopes.size + 1 := by rw [hScopes, Array.size_push]
  have hFirst : ∀ x, x < t.size → shift t.size x = x := fun x hx => shift_of_lt hx
  have hFirstScopes : ∀ s, s < t.scopes.size → shift t.scopes.size s = s :=
    fun s hs => shift_of_lt hs
  have hBehind : ∀ {n : Nat} (j : Nat), shift n (n + j) = n + 1 + j := fun j => by
    rw [shift_of_le (Nat.le_add_right _ _), Nat.add_right_comm]
  have hEmpty : ∀ j, t.scopes.size ≤ j → t.scope j = {} := fun j hj => by
    unfold Tree.scope
    rw [Array.getElem?_eq_none hj]
    rfl
  refine ⟨hCase, fun i => ?_, fun j declaration key => ?_, fun i' hi' => ?_,
    fun j' hj' declaration key => ?_, ?_, fun i hi => ?_, fun j => ?_, fun j hj => ?_, fun j => ?_⟩
  · have hSelf := h.mirrors_self (M := .inserting h.size_pos t.scopes.size slot m q reading) hFirst
      hFirstScopes i
    have hSame : t'.get (shift t.size i) = t.get i := by
      rw [hGet, if_neg (shift_ne t.size i)]
      by_cases hi : i < t.size
      · rw [shift_of_lt hi]
      · have hNext : ¬ i + 1 < t.size := fun hLt => hi (Nat.lt_of_succ_lt hLt)
        rw [shift_of_le (Nat.le_of_not_lt hi), get_of_le hi, get_of_le hNext]
    change (t.get i).Mirrors _ i (t'.get (shift t.size i))
    rw [hSame]
    exact hSelf
  · change (t'.scope (shift t.scopes.size j)).get? declaration key =
      ((t.scope j).get? declaration key).map (shift t.size)
    rw [scope_of_push hScopes]
    by_cases hj : j < t.scopes.size
    · rw [shift_of_lt hj]
      refine (option_map_eq_self fun x hx => hFirst x ?_).symm
      exact ((wellFormed_of_reachable h).entry j declaration key x hj hx).1.1
    · have hLe := Nat.le_of_not_lt hj
      rw [shift_of_le hLe, hEmpty j hLe, hEmpty (j + 1) (Nat.le_succ_of_le hLe), Scope.get?_empty]
      rfl
  · have hNew : i' = t.size := by
      refine Decidable.byContradiction fun hNe => ?_
      obtain ⟨i, hi⟩ := exists_shift hNe
      exact hi' i hi
    rw [hGet, if_pos hNew]
    rfl
  · have hNew : t.scopes.size ≤ j' := by
      refine Nat.le_of_not_lt fun hLt => hj' j' (hFirstScopes j' hLt)
    rw [scope_of_push hScopes, hEmpty j' hNew, Scope.get?_empty]
  · rw [hSize]
    exact Nat.le_succ _
  · rw [hSize]
    exact Nat.lt_succ_of_lt (lt_of_eq_of_lt (hFirst i hi) hi)
  · rw [hSize]
    exact hBehind j
  · rw [hScopesSize]
    exact Nat.lt_succ_of_lt (lt_of_eq_of_lt (hFirstScopes j hj) hj)
  · rw [hScopesSize]
    exact hBehind j

end Tree

/-! ## Exact mirrors -/

/-- What the entities of a kind have, with other numbers for the entities that it refers to. -/
def Declaration.renumber (f : EntityId → EntityId) (d : Declaration) : Declaration :=
  { d with
    type := d.type.renumber f
    parameters := d.parameters.map f
    raises := d.raises.map f
    getRaises := d.getRaises.map f
    setRaises := d.setRaises.map f }

/-- What the entities of a kind have, with other numbers for the entities that it refers to. -/
def EntityData.renumber (f : EntityId → EntityId) : EntityData → EntityData
  | .root records => .root (records.map f)
  | .definition d => .definition (d.renumber f)
  | .declaration d => .declaration (d.renumber f)
  | .record kind content => .record kind content

/-- An entity with other numbers for the entities that it refers to and for its scope. -/
def Entity.renumber (f : EntityId → EntityId) (g : ScopeId → ScopeId) (e : Entity) : Entity :=
  { e with
    parent := e.parent.map f
    children := e.children.map f
    scope := e.scope.map g
    data := e.data.renumber f }

variable {M : Mirror}

theorem Mirror.Tokens.eq {ts ts' : List Token} (h : M.Tokens ts ts') (hExact : M.exact) :
    ts' = ts := by
  induction h with
  | nil => rfl
  | cons ht _ ih => rw [ht.exact hExact, ih]

theorem Mirror.Tokens.eq_all {l l' : List (List Token)} (h : List.Forall₂ M.Tokens l l')
    (hExact : M.exact) : l' = l := by
  induction h with
  | nil => rfl
  | cons hts _ ih => rw [Mirror.Tokens.eq hts hExact, ih]

theorem Declaration.Mirrors.eq_renumber {d d' : Declaration} (h : d.Mirrors M d')
    (hExact : M.exact) : d' = d.renumber M.entity := by
  calc d' = ⟨d'.type, d'.dimensions, d'.sizes, d'.assignment, d'.value, d'.readonly, d'.direction,
        d'.constOperation, d'.parameters, d'.raises, d'.getRaises, d'.setRaises, d'.labels,
        d'.caseValues, d'.defaultCase, d'.progress⟩ := rfl
    _ = d.renumber M.entity := by
      rw [h.type, Mirror.Tokens.eq_all h.dimensions hExact, h.sizes,
        Mirror.Tokens.eq h.assignment hExact, h.value, h.readonly, h.direction, h.constOperation,
        h.parameters, h.raises, h.getRaises, h.setRaises, Mirror.Tokens.eq_all h.labels hExact,
        h.caseValues, h.defaultCase, h.progress]
      rfl

/-- Exact mirrors differ in numbers and ends only. -/
theorem Entity.Mirrors.eq_renumber {id : EntityId} {e e' : Entity} (h : e.Mirrors M id e')
    (hExact : M.exact) :
    e' = { e.renumber M.entity M.scope with span := ⟨e.span.first, e'.span.last⟩ } := by
  have hData : e'.data = e.data.renumber M.entity := by
    have hMirrors := h.data
    generalize e.data = data at hMirrors
    generalize e'.data = data' at hMirrors
    cases hMirrors with
    | root | definition | record => rfl
    | declaration hd => exact congrArg EntityData.declaration (hd.eq_renumber hExact)
  calc e' = ⟨e'.kind, e'.name, e'.parent, e'.children, e'.scope, e'.forward, e'.anonymous, e'.source,
        ⟨e'.span.first, e'.span.last⟩, e'.comments, e'.commentFlags, e'.data⟩ := rfl
    _ = _ := by
      rw [h.kind, h.name, h.parent, h.children, h.scope, h.forward, h.anonymous, hData,
        h.first hExact, h.source hExact, h.comments hExact, h.commentFlags hExact]
      rfl

end IdlReader
