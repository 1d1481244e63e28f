import IdlReader.Proofs.Tree.Lookup

/-!
# Scoped names

The scoped name of an entity lists the names of the entities that enclose it. Looked up from
the root on it is followed name by name (`walk`), and in each scope a declaration comes before
a definition. So the walk leads to a declaration unless one of the definitions on the way
shares its name with a declaration (`Shadowed`).

* `find_join`: the search for names with marks between them is a walk.
* `walk_names`, `walk_names_shadowed`: where the names of an entity lead.
* `find_scopedName_iff`: when the scoped name of a declaration leads to it.
-/

namespace IdlReader.Tree

variable {t : Tree}

/-! ## Walks -/

/-- Follows names, each in the scope of what the one before it leads to. -/
def walk (t : Tree) (start : EntityId) : List String → Option EntityId
  | [] => none
  | [name] => t.lookupKey false (t.key name) start
  | name :: names =>
    match t.lookupKey false (t.key name) start with
    | none => none
    | some found => t.walk (t.resolved found) names

theorem walk_cons (t : Tree) (start : EntityId) (name : String) {names : List String}
    (h : names ≠ []) :
    t.walk start (name :: names) =
      (t.lookupKey false (t.key name) start).bind fun found => t.walk (t.resolved found) names := by
  cases names with
  | nil => exact absurd rfl h
  | cons next names =>
    rw [walk]
    · cases t.lookupKey false (t.key name) start <;> rfl
    · exact h

theorem walk_concat (t : Tree) (start : EntityId) {names : List String} (h : names ≠ [])
    (name : String) :
    t.walk start (names ++ [name]) =
      (t.walk start names).bind fun found =>
        t.lookupKey false (t.key name) (t.resolved found) := by
  induction names generalizing start with
  | nil => exact absurd rfl h
  | cons first names ih =>
    rw [List.cons_append, walk_cons t start first (by simp)]
    by_cases hNames : names = []
    · subst hNames
      rfl
    · rw [walk_cons t start first hNames, Option.bind_assoc]
      exact congrArg _ (funext fun found => ih (t.resolved found) hNames)

theorem splitSegment_word {s : List Char} (h : ∀ c ∈ s, Text.isWord c = true) :
    splitSegment s = (s, none) ∧
      ∀ tail, splitSegment (s ++ ':' :: ':' :: tail) = (s, some (.scope, tail)) := by
  induction s with
  | nil => exact ⟨rfl, fun tail => rfl⟩
  | cons c s ih =>
    obtain ⟨hEnd, hTail⟩ := ih fun d hd => h d (List.mem_cons_of_mem c hd)
    have hWord := h c List.mem_cons_self
    have hColon : c ≠ ':' := by
      rintro rfl
      revert hWord
      decide
    have hPoint : c ≠ '.' := by
      rintro rfl
      revert hWord
      decide
    have hSplit : ∀ u, splitSegment (c :: u) = (c :: (splitSegment u).1, (splitSegment u).2) := by
      intro u
      rw [splitSegment]
      · rintro v rfl
        exact fun _ => hColon rfl
      · exact hPoint
    refine ⟨?_, fun tail => ?_⟩
    · rw [hSplit, hEnd]
    · rw [List.cons_append, hSplit, hTail]

theorem splitSegment_member {s : List Char} (h : ∀ c ∈ s, Text.isWord c = true) (path : List Char) :
    splitSegment (s ++ '.' :: path) = (s, some (.member, path)) := by
  induction s with
  | nil => rfl
  | cons c s ih =>
    have hWord := h c List.mem_cons_self
    rw [List.cons_append, splitSegment, ih fun d hd => h d (List.mem_cons_of_mem c hd)]
    · rintro u rfl -
      cases hWord
    · rintro rfl
      cases hWord

theorem isPrefixOf_word {s : List Char} (h : ∀ c ∈ s, Text.isWord c = true) (tail : List Char)
    (hEmpty : s ≠ []) : [':', ':'].isPrefixOf (s ++ tail) = false := by
  cases s with
  | nil => exact absurd rfl hEmpty
  | cons c s =>
    have hWord := h c List.mem_cons_self
    have hColon : (':' == c) = false := by
      rw [beq_eq_false_iff_ne]
      rintro rfl
      revert hWord
      decide
    simp [List.isPrefixOf, hColon]

/-- The text of a path of members. -/
def memberText : Option (List Char) → List Char
  | none => []
  | some path => '.' :: path

/-- What a path of members leads to from an entity on. -/
def followed (t : Tree) (found : EntityId) : Option (List Char) → Option EntityId
  | none => some found
  | some path => t.findMemberWithin (path.length + 1) found path

/-- The search for names with marks between them is a walk, and members are followed behind it. -/
theorem findWithin_path {names : List String} (hNames : ∀ name ∈ names, IsName name)
    (hEmpty : names ≠ []) (path : Option (List Char)) {n : Nat} (hBudget : names.length ≤ n)
    (start : EntityId) :
    t.findWithin false n start (("::".intercalate names).toList ++ memberText path) false =
        (t.walk start names).bind (t.followed · path) ∧
      ∀ m, n = m + 1 →
        t.findFrom false m (("::".intercalate names).toList ++ memberText path) start =
          (t.walk start names).bind (t.followed · path) := by
  induction names generalizing n start with
  | nil => exact absurd rfl hEmpty
  | cons name names ih =>
    obtain ⟨n, rfl⟩ : ∃ m, n = m + 1 := ⟨n - 1, by simp at hBudget; omega⟩
    have hName := hNames name List.mem_cons_self
    have hFrom : t.findFrom false n (("::".intercalate (name :: names)).toList ++ memberText path)
        start = (t.walk start (name :: names)).bind (t.followed · path) := by
      cases names with
      | nil =>
        unfold findFrom
        rw [String.intercalate_singleton, walk]
        cases path with
        | none =>
          rw [memberText, List.append_nil, (splitSegment_word hName.isWord).1, String.ofList_toList]
          cases t.lookupKey false (t.key name) start <;> rfl
        | some path =>
          rw [memberText, splitSegment_member hName.isWord, String.ofList_toList]
          cases t.lookupKey false (t.key name) start <;> rfl
      | cons next names =>
        have hRest := fun found => (ih (fun x hx => hNames x (List.mem_cons_of_mem name hx))
          (by simp) (n := n) (by simpa using hBudget) found).1
        have hText : ("::".intercalate (name :: next :: names)).toList ++ memberText path =
            name.toList ++ ':' :: ':' ::
              (("::".intercalate (next :: names)).toList ++ memberText path) := by
          rw [String.intercalate_cons_cons]
          simp
        rw [hText, walk_cons t start name (by simp)]
        unfold findFrom
        rw [(splitSegment_word hName.isWord).2, String.ofList_toList]
        cases t.lookupKey false (t.key name) start with
        | none => rfl
        | some found => exact hRest (t.resolved found)
    have hText : ∃ tail, ("::".intercalate (name :: names)).toList ++ memberText path =
        name.toList ++ tail := by
      cases names with
      | nil => exact ⟨memberText path, by rw [String.intercalate_singleton]⟩
      | cons next names =>
        rw [String.intercalate_cons_cons, String.toList_append, String.toList_append,
          List.append_assoc, List.append_assoc]
        exact ⟨_, rfl⟩
    obtain ⟨tail, hTail⟩ := hText
    refine ⟨?_, fun m hm => ?_⟩
    · have hRelative : [':', ':'].isPrefixOf (("::".intercalate (name :: names)).toList ++
          memberText path) = false := by
        rw [hTail]
        exact isPrefixOf_word hName.isWord tail hName.ne_nil
      have hNonempty : (("::".intercalate (name :: names)).toList ++ memberText path).isEmpty =
          false := by
        rw [hTail, List.isEmpty_eq_false_iff]
        exact List.append_ne_nil_of_left_ne_nil hName.ne_nil tail
      rw [findWithin_relative false n start hRelative, hNonempty]
      simp only [Bool.false_eq_true, if_false, List.findSome?_singleton]
      exact hFrom
    · cases hm
      exact hFrom

/-- The search for names with marks between them is a walk. -/
theorem findWithin_join {names : List String} (hNames : ∀ name ∈ names, IsName name)
    (hEmpty : names ≠ []) {n : Nat} (hBudget : names.length ≤ n) (start : EntityId) :
    t.findWithin false n start ("::".intercalate names).toList false = t.walk start names ∧
      ∀ m, n = m + 1 →
        t.findFrom false m ("::".intercalate names).toList start = t.walk start names := by
  have hPath := findWithin_path (t := t) hNames hEmpty none hBudget start
  have hFollowed : (fun found => t.followed found none) = some := rfl
  rwa [memberText, List.append_nil, hFollowed, Option.bind_fun_some] at hPath

theorem length_le_join {names : List String} (h : ∀ name ∈ names, IsName name) :
    names.length ≤ ("::".intercalate names).toList.length := by
  induction names with
  | nil => exact Nat.zero_le _
  | cons name names ih =>
    have hName := List.length_pos_iff.mpr (h name List.mem_cons_self).ne_nil
    have hRest := ih fun x hx => h x (List.mem_cons_of_mem name hx)
    cases names with
    | nil =>
      rw [String.intercalate_singleton]
      exact hName
    | cons next names =>
      rw [String.intercalate_cons_cons, String.toList_append, String.toList_append,
        List.length_append, List.length_append]
      simp only [List.length_cons] at hRest ⊢
      omega

theorem find_join {names : List String} (hNames : ∀ name ∈ names, IsName name)
    (hEmpty : names ≠ []) (start : EntityId) :
    t.find start ("::".intercalate names) false = t.walk start names :=
  (findWithin_join hNames hEmpty (Nat.le_succ_of_le (length_le_join hNames)) start).1

/-- The member of the type of a declaration that has a name. -/
def memberOf (t : Tree) (owner : EntityId) (name : String) : Option EntityId := do
  let d ← (t.get owner).declaration?
  let definition ← d.type.definition
  t.lookupMember (t.resolved definition) name

/-- A name behind a point leads on to a member of the type of a declaration. -/
theorem find_join_member {names : List String} (hNames : ∀ name ∈ names, IsName name)
    (hEmpty : names ≠ []) {name : String} (hName : IsName name) (start : EntityId) :
    t.find start ("::".intercalate names ++ "." ++ name) false =
      (t.walk start names).bind (t.memberOf · name) := by
  have hText : ("::".intercalate names ++ "." ++ name).toList =
      ("::".intercalate names).toList ++ memberText (some name.toList) := by
    rw [String.toList_append, String.toList_append, List.append_assoc]
    rfl
  have hMember : (fun found => t.followed found (some name.toList)) = (t.memberOf · name) := by
    funext found
    rw [followed, findMemberWithin, (splitSegment_word hName.isWord).1]
    unfold memberOf
    simp only [String.ofList_toList, Option.bind_eq_bind, Option.bind_fun_some]
  have hLength := length_le_join hNames
  unfold find
  rw [hText, (findWithin_path hNames hEmpty (some name.toList) ?_ start).1, hMember]
  rw [List.length_append]
  omega

/-- Behind the mark of the root, names are followed from the root on. -/
theorem find_absolute {names : List String} (hNames : ∀ name ∈ names, IsName name)
    (hEmpty : names ≠ []) (start : EntityId) (upwards : Bool) :
    t.find start ("::" ++ "::".intercalate names) upwards = t.walk root names := by
  have hText : ("::" ++ "::".intercalate names).toList =
      ':' :: ':' :: ("::".intercalate names).toList := by simp
  have hLength := length_le_join hNames
  have hNonempty : ("::".intercalate names).toList.isEmpty = false := by
    have hPos := List.length_pos_iff.mpr hEmpty
    rw [List.isEmpty_eq_false_iff]
    exact List.ne_nil_of_length_pos (Nat.lt_of_lt_of_le hPos hLength)
  have hFrom := (findWithin_join hNames hEmpty (t := t)
    (n := ("::" ++ "::".intercalate names).toList.length + 1)
    (by rw [hText]; simp only [List.length_cons]; omega) root).2 _ rfl
  unfold find
  rw [hText] at hFrom ⊢
  rw [findWithin_absolute, hNonempty]
  exact hFrom

/-! ## The names of an entity -/

/-- The names of an entity and of those that enclose it, the outermost first. -/
def names (t : Tree) (id : EntityId) : List String :=
  (((t.enclosing id).takeWhile fun i => (t.get i).kind ≠ .root).map fun i =>
    (t.get i).name).reverse

theorem scopedName_eq (t : Tree) (id : EntityId) :
    t.scopedName id = "::".intercalate (t.names id) := rfl

/-- Whether a declaration has the name of an entity in the same scope. -/
def Shadowed (t : Tree) (id : EntityId) : Prop :=
  ∃ p s x, (t.get id).parent = some p ∧ (t.get p).scope = some s ∧
    (t.scope s).get? true (t.key (t.get id).name) = some x

/-- Whether no definition among an entity and those that enclose it is shadowed. -/
def Clear (t : Tree) (id : EntityId) : Prop :=
  ∀ a ∈ t.enclosing id, (t.get a).kind.isDefinition = true → ¬ t.Shadowed a

namespace Framed

theorem enclosingWithin_eq (h : t.Framed) {n m : Nat} {id : EntityId} (hLt : id < t.size)
    (hn : id < n) (hm : id < m) : t.enclosingWithin n id = t.enclosingWithin m id := by
  induction n generalizing m id with
  | zero => exact absurd hn (Nat.not_lt_zero _)
  | succ n ih =>
    cases m with
    | zero => exact absurd hm (Nat.not_lt_zero _)
    | succ m =>
      rw [enclosingWithin, enclosingWithin]
      cases hParent : (t.get id).parent with
      | none => rfl
      | some p =>
        have hp := h.parent_lt hLt hParent
        have hRest := ih (h.parent_lt_size hLt hParent)
          (Nat.lt_of_lt_of_le hp (Nat.le_of_lt_succ hn))
          (Nat.lt_of_lt_of_le hp (Nat.le_of_lt_succ hm))
        exact congrArg (id :: ·) hRest

theorem enclosing_of_parent (h : t.Framed) {id p : EntityId} (hLt : id < t.size)
    (hParent : (t.get id).parent = some p) : t.enclosing id = id :: t.enclosing p := by
  have hp := h.parent_lt_size hLt hParent
  unfold enclosing
  rw [enclosingWithin, hParent]
  exact congrArg (id :: ·) (h.enclosingWithin_eq hp hp (Nat.lt_succ_of_lt hp))

theorem names_root (h : t.Framed) : t.names root = [] := by
  unfold names enclosing
  rw [enclosingWithin, h.rootParent]
  simp [h.rootKind]

theorem clear_root (h : t.Framed) : t.Clear root := by
  intro a ha hDefinition
  unfold enclosing at ha
  rw [enclosingWithin, h.rootParent, List.mem_singleton] at ha
  rw [ha, h.rootKind] at hDefinition
  cases hDefinition

theorem names_of_parent (h : t.Framed) {id p : EntityId} (hLt : id < t.size)
    (hParent : (t.get id).parent = some p) : t.names id = t.names p ++ [(t.get id).name] := by
  have hKind := h.kind_ne_root id (h.ne_root_of_parent hParent) hLt
  unfold names
  rw [h.enclosing_of_parent hLt hParent, List.takeWhile_cons_of_pos (by simpa using hKind)]
  simp

theorem clear_of_parent (h : t.Framed) {id p : EntityId} (hLt : id < t.size)
    (hParent : (t.get id).parent = some p) :
    t.Clear id ↔ t.Clear p ∧ ((t.get id).kind.isDefinition = true → ¬ t.Shadowed id) := by
  unfold Clear
  rw [h.enclosing_of_parent hLt hParent]
  simp [and_comm]

end Framed

/-! ## Where the names of an entity lead -/

namespace WellFormed

theorem parent_place (h : t.WellFormed) {id p : EntityId} (hLt : id < t.size)
    (hParent : (t.get id).parent = some p) :
    p < t.size ∧ (p = root ∨ t.Found p ∧ (t.get p).forward = false) ∧
      (∃ s, (t.get p).scope = some s) ∧
      ((t.get id).kind = .parameter ↔ (t.get p).kind = .operation) := by
  obtain ⟨q, hq, hqLt, hPlace, hSupports, hParameter⟩ :=
    h.parent id (h.ne_root_of_parent hParent) hLt
  rw [hParent] at hq
  cases hq
  have hp := Nat.lt_trans hqLt hLt
  have hScope : (t.get p).scope.isSome = true := by
    rw [h.hasScope p hp]
    exact hSupports
  refine ⟨hp, ?_, Option.isSome_iff_exists.mp hScope, hParameter⟩
  by_cases hRoot : p = root
  · exact Or.inl hRoot
  · obtain hRoot' | ⟨hName, hFull⟩ := hPlace
    · exact absurd hRoot' hRoot
    · refine Or.inr ⟨⟨⟨hp, hName⟩, ?_⟩, hFull⟩
      have hKind := h.kind_ne_root p hRoot hp
      revert hSupports hKind
      unfold Registrable
      cases (t.get p).kind <;> simp [EntityKind.supportsChildren, EntityKind.isDefinition,
        EntityKind.isDeclaration]

/-- What a scope holds stands for itself unless it is a typedef. -/
theorem resolved_of_get? (h : t.WellFormed) {owner y : EntityId} {s : ScopeId} {d : Bool}
    {key : String} (hScope : (t.get owner).scope = some s)
    (hGet : (t.scope s).get? d key = some y) (hKind : (t.get y).kind ≠ .typedef) :
    t.resolved y = y := by
  cases hForward : (t.get y).forward with
  | false => exact resolved_of_full hKind hForward
  | true =>
    have hLt := h.scope_lt owner s (lt_size_of_scope hScope) hScope
    obtain ⟨hNamed, -, hd, hk, p, hParent, hp⟩ := h.entry s d key y hLt hGet
    have hDefinition := h.forward y hNamed.1 hForward
    have hFalse : d = false := by
      rw [← hd]
      simp [isDeclarationName, EntityKind.not_isDeclaration_of_isDefinition hDefinition]
    have hOwn : (t.scope s).lookup? true (t.key (t.get y).name) = some y := by
      rw [hFalse, hk] at hGet
      have hDefinitions : (t.scope s).definitions.lookup (t.key (t.get y).name) = some y := hGet
      simp [Scope.lookup?, hDefinitions]
    have hLookup := lookupKey_of_get? hp hOwn
    unfold resolved
    cases t.size with
    | zero => rfl
    | succ n =>
      rw [resolvedWithin]
      simp only [if_neg hKind, hForward, if_true, hParent, Option.bind_some, hLookup]
      simp

theorem lookup?_false (s : Scope) (key : String) :
    s.lookup? false key = (s.get? true key).or (s.get? false key) := rfl

/-- One name more leads from the scope of the parent to an entity, or to what it goes on
with, unless the entity is a shadowed definition. -/
theorem lookupKey_name (h : t.WellFormed) {id p owner : EntityId} {s : ScopeId}
    (hFound : t.Found id) (hFull : (t.get id).forward = false)
    (hKind : (t.get id).kind ≠ .typedef) (hParent : (t.get id).parent = some p)
    (hScope : (t.get p).scope = some s) (hOwner : (t.get owner).scope = some s)
    (hClear : (t.get id).kind.isDefinition = true → ¬ t.Shadowed id) :
    ∃ y, t.lookupKey false (t.key (t.get id).name) owner = some y ∧ t.resolved y = y ∧
      (y = id ∨ (t.get id).kind = .module ∧ (t.get y).scope = (t.get id).scope) := by
  obtain ⟨y, hGet, hSame, hLeads⟩ := h.get?_full hFound hFull hParent hScope
  have hOwn : (t.scope s).lookup? false (t.key (t.get id).name) = some y := by
    rw [lookup?_false]
    cases hName : isDeclarationName (t.get id).kind with
    | true =>
      rw [hName] at hGet
      rw [hGet]
      rfl
    | false =>
      have hDefinition : (t.get id).kind.isDefinition = true := by
        rcases hFound.2 with hDefinition | hDeclaration
        · exact hDefinition
        · simp [isDeclarationName, hDeclaration, hKind] at hName
      have hNone : (t.scope s).get? true (t.key (t.get id).name) = none := by
        cases hDeclared : (t.scope s).get? true (t.key (t.get id).name) with
        | none => rfl
        | some x => exact absurd ⟨p, s, x, hParent, hScope, hDeclared⟩ (hClear hDefinition)
      rw [hName] at hGet
      rw [hNone, hGet]
      rfl
  exact ⟨y, lookupKey_of_get? hOwner hOwn,
    h.resolved_of_get? hScope hGet (hSame.symm ▸ hKind), hLeads⟩

theorem kind_of_scope (h : t.WellFormed) {id : EntityId} {s : ScopeId}
    (hScope : (t.get id).scope = some s) : (t.get id).kind.supportsChildren = true := by
  rw [← h.hasScope id (lt_size_of_scope hScope), hScope]
  rfl

theorem kind_ne_typedef_of_scope (h : t.WellFormed) {id : EntityId} {s : ScopeId}
    (hScope : (t.get id).scope = some s) : (t.get id).kind ≠ .typedef := by
  intro hTypedef
  have hSupports := h.kind_of_scope hScope
  rw [hTypedef] at hSupports
  cases hSupports

theorem ne_root_of_found (h : t.WellFormed) {id : EntityId} (hFound : t.Found id) :
    id ≠ root := by
  intro hRoot
  rw [hRoot] at hFound
  rcases hFound.2 with hFalse | hFalse <;> rw [h.rootKind] at hFalse <;> cases hFalse

/-- The names of an entity lead on from the root or from what those of its parent lead to. -/
theorem walk_from_parent (h : t.WellFormed) {id p : EntityId} {s : ScopeId} (hLt : id < t.size)
    (hParent : (t.get id).parent = some p) (hScope : (t.get p).scope = some s)
    (hLeads : p = root ∨ ∃ y, t.walk root (t.names p) = some y ∧ t.resolved y = y ∧
      (y = p ∨ (t.get p).kind = .module ∧ (t.get y).scope = (t.get p).scope)) :
    ∃ owner, (t.get owner).scope = some s ∧
      t.walk root (t.names id) = t.lookupKey false (t.key (t.get id).name) owner := by
  rw [h.names_of_parent hLt hParent]
  rcases hLeads with rfl | ⟨y, hWalk, hResolved, hPlace⟩
  · rw [h.names_root]
    exact ⟨root, hScope, rfl⟩
  · have hNames : t.names p ≠ [] := by
      intro hNil
      rw [hNil] at hWalk
      cases hWalk
    refine ⟨y, ?_, ?_⟩
    · rcases hPlace with rfl | ⟨-, hSame⟩
      · exact hScope
      · exact hSame.trans hScope
    · rw [walk_concat t root hNames, hWalk, Option.bind_some, hResolved]

/-- The names of an entity lead to it, or to what it goes on with, if nothing on the way is
shadowed. -/
theorem walk_names (h : t.WellFormed) {id : EntityId} (hFound : t.Found id)
    (hFull : (t.get id).forward = false) (hKind : (t.get id).kind ≠ .typedef)
    (hClear : t.Clear id) :
    ∃ y, t.walk root (t.names id) = some y ∧ t.resolved y = y ∧
      (y = id ∨ (t.get id).kind = .module ∧ (t.get y).scope = (t.get id).scope) := by
  induction id using Nat.strongRecOn with
  | _ id ih =>
    obtain ⟨p, hParent, -⟩ := h.parent id (h.ne_root_of_found hFound) hFound.1.1
    obtain ⟨hClearParent, hClearSelf⟩ := (h.clear_of_parent hFound.1.1 hParent).mp hClear
    obtain ⟨-, hPlace, ⟨s, hScope⟩, -⟩ := h.parent_place hFound.1.1 hParent
    have hLeads := hPlace.imp_right fun hp =>
      ih p (h.parent_lt hFound.1.1 hParent) hp.1 hp.2 (h.kind_ne_typedef_of_scope hScope)
        hClearParent
    obtain ⟨owner, hOwner, hWalk⟩ := h.walk_from_parent hFound.1.1 hParent hScope hLeads
    rw [hWalk]
    exact h.lookupKey_name hFound hFull hKind hParent hScope hOwner hClearSelf

/-- In a declaration nothing but its own parameters is found. -/
theorem lookupKey_declaration (h : t.WellFormed) {owner y : EntityId} {key : String}
    (hOwner : isDeclarationName (t.get owner).kind = true)
    (hLookup : t.lookupKey false key owner = some y) :
    (t.get y).parent = some owner ∧ isDeclarationName (t.get y).kind = true := by
  rw [lookupKey, lookupWithin] at hLookup
  split at hLookup
  · cases hLookup
  · rename_i s hScope
    have hLt := lt_size_of_scope hScope
    have hNotModule : (t.get owner).kind ≠ .module := by
      intro hModule
      rw [hModule] at hOwner
      cases hOwner
    have hNoBases : (t.get owner).definition? = none := by
      cases hDefinition : (t.get owner).definition? with
      | none => rfl
      | some d =>
        have hKind := h.definition owner hLt (by rw [hDefinition]; rfl)
        simp [isDeclarationName, EntityKind.not_isDeclaration_of_isDefinition hKind] at hOwner
    have hOperation : (t.get owner).kind = .operation := by
      have hSupports := h.kind_of_scope hScope
      revert hOwner hSupports
      cases (t.get owner).kind <;> decide
    rw [hNoBases] at hLookup
    split at hLookup
    · rename_i id hOwn
      cases hLookup
      obtain ⟨d, hGet⟩ := lookup?_eq_some hOwn
      obtain ⟨hNamed, -, -, -, p, hParent, hp⟩ :=
        h.entry s d key y (h.scope_lt owner s hLt hScope) hGet
      have hSame : p = owner := by
        rcases h.shared p owner s (h.parent_lt_size hNamed.1 hParent) hLt hp hScope with
          hEq | ⟨-, hModule⟩
        · exact hEq
        · exact absurd hModule hNotModule
      rw [hSame] at hParent
      have hParameter := (h.parent_place hNamed.1 hParent).2.2.2.mpr hOperation
      rw [hParameter]
      exact ⟨hParent, rfl⟩
    · cases hLookup

/-- The names of a shadowed definition lead to the declaration that shadows it if nothing
before it is shadowed. -/
theorem walk_names_self (h : t.WellFormed) {id p y : EntityId} (hLt : id < t.size)
    (hParent : (t.get id).parent = some p) (hClear : t.Clear p)
    (hDefinition : (t.get id).kind.isDefinition = true) (hShadowed : t.Shadowed id)
    (hWalk : t.walk root (t.names id) = some y) :
    isDeclarationName (t.get y).kind = true ∧ y ≠ id := by
  obtain ⟨p', s, x, hp', hScope, hGet⟩ := hShadowed
  rw [hParent] at hp'
  cases hp'
  have hLeads := (h.parent_place hLt hParent).2.1.imp_right fun hp =>
    h.walk_names hp.1 hp.2 (h.kind_ne_typedef_of_scope hScope) hClear
  obtain ⟨owner, hOwner, hEq⟩ := h.walk_from_parent hLt hParent hScope hLeads
  have hOwn : (t.scope s).lookup? false (t.key (t.get id).name) = some x := by
    rw [lookup?_false, hGet]
    rfl
  rw [hEq, lookupKey_of_get? hOwner hOwn] at hWalk
  cases hWalk
  have hKind := h.kind_of_get? hScope hGet
  refine ⟨hKind, ?_⟩
  rintro rfl
  simp [isDeclarationName, EntityKind.not_isDeclaration_of_isDefinition hDefinition] at hKind

/-- If the names of the parent lead to another declaration, those of an entity lead to one of
its parameters. -/
theorem walk_names_behind (h : t.WellFormed) {id p owner y : EntityId} (hLt : id < t.size)
    (hParent : (t.get id).parent = some p) (hOwner : t.walk root (t.names p) = some owner)
    (hDeclared : isDeclarationName (t.get owner).kind = true) (hNe : owner ≠ p)
    (hWalk : t.walk root (t.names id) = some y) :
    isDeclarationName (t.get y).kind = true ∧ y ≠ id := by
  have hNames : t.names p ≠ [] := by
    intro hNil
    rw [hNil] at hOwner
    cases hOwner
  have hSelf : t.resolved owner = owner := by
    apply resolved_of_full
    · intro hTypedef
      rw [hTypedef] at hDeclared
      cases hDeclared
    · by_cases hOwnerLt : owner < t.size
      · exact h.forward_of_isDeclarationName hOwnerLt hDeclared
      · rw [get_of_le hOwnerLt]
        rfl
  rw [h.names_of_parent hLt hParent, walk_concat t root hNames, hOwner, Option.bind_some,
    hSelf] at hWalk
  obtain ⟨hyParent, hyDeclared⟩ := h.lookupKey_declaration hDeclared hWalk
  refine ⟨hyDeclared, ?_⟩
  rintro rfl
  rw [hParent] at hyParent
  cases hyParent
  exact hNe rfl

/-- Behind a shadowed definition the names of an entity lead to a declaration, if anywhere,
and never to the entity. -/
theorem walk_names_shadowed (h : t.WellFormed) {id y : EntityId} (hLt : id < t.size)
    (hRoot : id ≠ root) (hShadowed : ¬ t.Clear id)
    (hWalk : t.walk root (t.names id) = some y) :
    isDeclarationName (t.get y).kind = true ∧ y ≠ id := by
  induction id using Nat.strongRecOn generalizing y with
  | _ id ih =>
    obtain ⟨p, hParent, -⟩ := h.parent id hRoot hLt
    have hpLt := h.parent_lt_size hLt hParent
    rw [h.clear_of_parent hLt hParent, not_and, Classical.not_imp, Classical.not_not] at hShadowed
    by_cases hClear : t.Clear p
    · obtain ⟨hDefinition, hSelf⟩ := hShadowed hClear
      exact h.walk_names_self hLt hParent hClear hDefinition hSelf hWalk
    · have hpRoot : p ≠ root := by
        rintro rfl
        exact hClear h.clear_root
      have hNames : t.names p ≠ [] := by
        obtain ⟨q, hq, -⟩ := h.parent p hpRoot hpLt
        rw [h.names_of_parent hpLt hq]
        simp
      have hBelow := hWalk
      rw [h.names_of_parent hLt hParent, walk_concat t root hNames] at hBelow
      obtain ⟨owner, hOwner, -⟩ := Option.bind_eq_some_iff.mp hBelow
      obtain ⟨hDeclared, hNe⟩ := ih p (h.parent_lt hLt hParent) hpLt hpRoot hClear hOwner
      exact h.walk_names_behind hLt hParent hOwner hDeclared hNe hWalk

theorem isName_of_mem_names (h : t.WellFormed) {id : EntityId} (hNamed : t.Named id) {name : String}
    (hName : name ∈ t.names id) : IsName name := by
  induction id using Nat.strongRecOn with
  | _ id ih =>
    by_cases hRoot : id = root
    · rw [hRoot, h.names_root] at hName
      cases hName
    · obtain ⟨p, hParent, -⟩ := h.parent id hRoot hNamed.1
      rw [h.names_of_parent hNamed.1 hParent] at hName
      rcases List.mem_append.mp hName with hName | hName
      · rcases (h.parent_place hNamed.1 hParent).2.1 with hpRoot | ⟨hpFound, -⟩
        · rw [hpRoot, h.names_root] at hName
          cases hName
        · exact ih p (h.parent_lt hNamed.1 hParent) hpFound.1 hName
      · rw [List.mem_singleton.mp hName]
        exact h.name id hNamed.1 hNamed.2

/-- The names of a declaration lead to it exactly if no definition on the way is shadowed. -/
theorem walk_names_iff (h : t.WellFormed) {e : EntityId} (hNamed : t.Named e)
    (hKind : isDeclarationName (t.get e).kind = true) :
    t.walk root (t.names e) = some e ↔ t.Clear e := by
  have hDeclaration : (t.get e).kind.isDeclaration = true ∧ (t.get e).kind ≠ .typedef := by
    revert hKind
    cases (t.get e).kind <;> decide
  have hRoot : e ≠ root := by
    rintro rfl
    rw [h.rootKind] at hKind
    cases hKind
  constructor
  · intro hWalk
    by_cases hClear : t.Clear e
    · exact hClear
    · exact absurd rfl (h.walk_names_shadowed hNamed.1 hRoot hClear hWalk).2
  · intro hClear
    obtain ⟨y, hWalk, -, rfl | ⟨hModule, -⟩⟩ :=
      h.walk_names ⟨hNamed, Or.inr hDeclaration.1⟩
        (h.forward_of_isDeclarationName hNamed.1 hKind) hDeclaration.2 hClear
    · exact hWalk
    · rw [hModule] at hKind
      cases hKind

theorem names_ne_nil (h : t.WellFormed) {e : EntityId} (hNamed : t.Named e) (hRoot : e ≠ root) :
    t.names e ≠ [] := by
  obtain ⟨p, hParent, -⟩ := h.parent e hRoot hNamed.1
  rw [h.names_of_parent hNamed.1 hParent]
  simp

/-- The scoped name of a declaration leads to it exactly if no definition on the way is
shadowed. -/
theorem find_scopedName_iff (h : t.WellFormed) {e : EntityId} (hNamed : t.Named e)
    (hKind : isDeclarationName (t.get e).kind = true) :
    t.find root (t.scopedName e) false = some e ↔ t.Clear e := by
  have hRoot : e ≠ root := by
    rintro rfl
    rw [h.rootKind] at hKind
    cases hKind
  rw [scopedName_eq, find_join (fun name => h.isName_of_mem_names hNamed)
    (h.names_ne_nil hNamed hRoot), h.walk_names_iff hNamed hKind]

/-- Nothing encloses the root. -/
theorem find_root (h : t.WellFormed) (name : String) (upwards : Bool) :
    t.find root name upwards = t.find root name false := by
  have hEnclosing : t.enclosing root = [root] := by
    unfold enclosing
    rw [enclosingWithin, h.rootParent]
  unfold find
  cases hAbsolute : [':', ':'].isPrefixOf name.toList with
  | true =>
    obtain ⟨tail, hTail⟩ := List.isPrefixOf_iff_prefix.mp hAbsolute
    have hText : name.toList = ':' :: ':' :: tail := hTail.symm
    rw [hText, findWithin_absolute, findWithin_absolute]
  | false =>
    rw [findWithin_relative _ _ _ hAbsolute, findWithin_relative _ _ _ hAbsolute, hEnclosing,
      ite_self]
    rfl

end WellFormed

end IdlReader.Tree
