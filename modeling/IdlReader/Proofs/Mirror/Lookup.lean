import IdlReader.Grammar.Evaluation
import IdlReader.Proofs.Mirror.Tree
import IdlReader.Proofs.Tree.Precedence
import IdlReader.Proofs.Tree.ScopedName

/-!
# Names in mirrored trees

What a name leads to in a tree is mirrored by what it leads to in the other one. The other tree may
be larger, so the bounds on searches differ; since references in the first one point backwards, the
searches there end before their bounds.

* `Reflects.lookupKey`, `Reflects.resolved`, `Reflects.findType`: searches.
* `Tree.Mirrors.setName`: giving a name to mirrored entities.
-/

namespace IdlReader

variable {M : Mirror}

theorem findSome?_mirror {α β : Type} {f : α → Option α} {f' : β → Option β} {g : α → β}
    {l : List α} (h : ∀ a ∈ l, f' (g a) = (f a).map g) :
    (l.map g).findSome? f' = (l.findSome? f).map g := by
  induction l with
  | nil => rfl
  | cons a l ih =>
    rw [List.map_cons, List.findSome?_cons, List.findSome?_cons, h a List.mem_cons_self]
    cases f a with
    | some b => rfl
    | none => exact ih fun b hb => h b (List.mem_cons_of_mem a hb)

/-- Names that lead to mirrored entities of each sort do so of both. -/
theorem Scope.lookup?_mirror {s s' : Scope} {f : EntityId → EntityId} {key : String}
    (h : ∀ declaration, s'.get? declaration key = (s.get? declaration key).map f) (first : Bool) :
    s'.lookup? first key = (s.lookup? first key).map f := by
  have hDefinitions : s'.definitions.lookup key = (s.definitions.lookup key).map f := h false
  have hDeclarations : s'.declarations.lookup key = (s.declarations.lookup key).map f := h true
  unfold lookup?
  rw [hDefinitions, hDeclarations]
  split
  · exact Option.map_or.symm
  · exact Option.map_or.symm

namespace Tree

open Parsing

/-- A mirror of a tree whose references point backwards. -/
structure Reflects (M : Mirror) (t t' : Tree) : Prop where
  mirrors : t.Mirrors M t'
  reachable : t.Reachable

namespace Reflects

variable {t t' : Tree} (h : Reflects M t t')

include h

/-! ## Searches -/

theorem lookupWithin (first : Bool) (key : String) (n : Nat) (owner : EntityId) :
    t'.lookupWithin first key n (M.entity owner) =
      (t.lookupWithin first key n owner).map M.entity := by
  induction n generalizing owner with
  | zero => rfl
  | succ n ih =>
    have hOwner := h.mirrors.entity owner
    rw [Tree.lookupWithin, Tree.lookupWithin, hOwner.scope, hOwner.definition?]
    cases (t.get owner).scope with
    | none => rfl
    | some s =>
      dsimp only [Option.map_some]
      rw [Scope.lookup?_mirror fun declaration => h.mirrors.scope s declaration key]
      cases (t.scope s).lookup? first key with
      | some id => rfl
      | none =>
        cases (t.get owner).definition? with
        | none => rfl
        | some d => exact findSome?_mirror fun b _ => ih b

theorem lookupKey (first : Bool) (key : String) (owner : EntityId) :
    t'.lookupKey first key (M.entity owner) = (t.lookupKey first key owner).map M.entity := by
  unfold Tree.lookupKey
  rw [h.lookupWithin]
  by_cases hLt : owner < t'.size + 1
  · rw [h.reachable.lookupWithin_of_lt first key hLt]
    rfl
  · have hNone : (t.get owner).scope = none := by
      rw [get_of_le fun hOwner => hLt (Nat.lt_succ_of_lt (Nat.lt_of_lt_of_le hOwner h.mirrors.size))]
      rfl
    rw [Tree.lookupWithin, Tree.lookupWithin, hNone]

theorem lookupMember (owner : EntityId) (name : String) :
    t'.lookupMember (M.entity owner) name = (t.lookupMember owner name).map M.entity := by
  unfold Tree.lookupMember
  rw [h.mirrors.key, h.lookupKey]

theorem lookupInBases (owner : EntityId) (key : String) :
    t'.lookupInBases (M.entity owner) key = (t.lookupInBases owner key).map M.entity := by
  unfold Tree.lookupInBases
  rw [(h.mirrors.entity owner).definition?]
  cases (t.get owner).definition? with
  | none => rfl
  | some d => exact findSome?_mirror fun b _ => h.lookupKey false key b

theorem enclosing (id : EntityId) : t'.enclosing (M.entity id) = (t.enclosing id).map M.entity := by
  have hWithin : ∀ n id, t'.enclosingWithin n (M.entity id) =
      (t.enclosingWithin n id).map M.entity := by
    intro n
    induction n with
    | zero => exact fun _ => rfl
    | succ n ih =>
      intro id
      rw [enclosingWithin, enclosingWithin, (h.mirrors.entity id).parent]
      cases (t.get id).parent with
      | none => rfl
      | some p => exact congrArg (M.entity id :: ·) (ih p)
  unfold Tree.enclosing
  rw [hWithin]
  refine congrArg (List.map M.entity) ?_
  by_cases hLt : id < t.size
  · exact (wellFormed_of_reachable h.reachable).enclosingWithin_eq hLt
      (Nat.lt_succ_of_lt (Nat.lt_of_lt_of_le hLt h.mirrors.size)) (Nat.lt_succ_of_lt hLt)
  · rw [enclosingWithin, enclosingWithin, get_of_le hLt]
    rfl

/-! ## Resolution -/

theorem resolvedWithin (n : Nat) (id : EntityId) :
    t'.resolvedWithin n (M.entity id) = M.entity (t.resolvedWithin n id) := by
  induction n generalizing id with
  | zero => rfl
  | succ n ih =>
    have hEntity := h.mirrors.entity id
    rw [Tree.resolvedWithin, Tree.resolvedWithin]
    rw [hEntity.kind, hEntity.forward, hEntity.parent, hEntity.name, h.mirrors.key]
    by_cases hKind : (t.get id).kind = .typedef
    · rw [if_pos hKind, if_pos hKind]
      cases hd : (t.get id).declaration? with
      | none =>
        rw [hEntity.declaration?_none hd]
        rfl
      | some d =>
        obtain ⟨d', hd', hMirrors⟩ := hEntity.declaration? hd
        rw [hd', Option.bind_some, Option.bind_some, hMirrors.type,
          DeclaredType.definition_renumber]
        cases d.type.definition with
        | none => rfl
        | some next =>
          dsimp only [Option.map_some]
          by_cases hNext : next = id
          · rw [if_pos hNext, if_pos (congrArg M.entity hNext)]
          · rw [if_neg hNext, if_neg fun hEq => hNext (M.entity_injective hEq)]
            exact ih next
    · rw [if_neg hKind, if_neg hKind]
      split
      · cases (t.get id).parent with
        | none => rfl
        | some p =>
          dsimp only [Option.map_some, Option.bind_some]
          rw [h.lookupKey]
          cases t.lookupKey true (t.key (t.get id).name) p with
          | none => rfl
          | some full =>
            dsimp only [Option.map_some]
            have hEq : decide (M.entity full = M.entity id) = decide (full = id) :=
              decide_eq_decide.mpr M.entity_injective.eq_iff
            rw [hEq, (h.mirrors.entity full).forward]
            split
            · rfl
            · exact ih full
      · rfl

theorem resolved (id : EntityId) : t'.resolved (M.entity id) = M.entity (t.resolved id) := by
  by_cases hLt : id < t.size
  · rw [← h.reachable.resolvedWithin_of_lt (Nat.lt_of_lt_of_le hLt h.mirrors.size)]
    exact h.resolvedWithin t'.size id
  · have hKind : (t.get id).kind ≠ .typedef := by
      rw [get_of_le hLt]
      decide
    have hFull : (t.get id).forward = false := by
      rw [get_of_le hLt]
      rfl
    have hEntity := h.mirrors.entity id
    rw [resolved_of_full hKind hFull,
      resolved_of_full (hEntity.kind ▸ hKind) (hEntity.forward.trans hFull)]

/-- The struct or exception whose members a value of a type has. -/
theorem compoundDefinition? (type : DeclaredType) :
    Parsing.compoundDefinition? t' (type.renumber M.entity) =
      (Parsing.compoundDefinition? t type).map M.entity := by
  unfold Parsing.compoundDefinition?
  rw [DeclaredType.definition_renumber]
  cases type.definition with
  | none => rfl
  | some definition =>
    simp only [Option.map_some, bind, Option.bind_some, h.resolved,
      (h.mirrors.entity (t.resolved definition)).kind]
    split <;> rfl

/-! ## Scoped names -/

theorem findMemberWithin (n : Nat) (id : EntityId) (path : List Char) :
    t'.findMemberWithin n (M.entity id) path = (t.findMemberWithin n id path).map M.entity := by
  induction n generalizing id path with
  | zero => rfl
  | succ n ih =>
    rw [Tree.findMemberWithin, Tree.findMemberWithin]
    cases hd : (t.get id).declaration? with
    | none =>
      rw [(h.mirrors.entity id).declaration?_none hd]
      rfl
    | some d =>
      obtain ⟨d', hd', hMirrors⟩ := (h.mirrors.entity id).declaration? hd
      rw [hd']
      simp only [bind, Option.bind_some, hMirrors.type, DeclaredType.definition_renumber]
      cases d.type.definition with
      | none => rfl
      | some definition =>
        simp only [Option.map_some, Option.bind_some, h.resolved, h.lookupMember]
        cases t.lookupMember (t.resolved definition) (String.ofList (splitSegment path).1) with
        | none => rfl
        | some found =>
          simp only [Option.map_some, Option.bind_some]
          cases (splitSegment path).2 with
          | none => rfl
          | some rest => exact ih found rest.2

theorem findWithin (first : Bool) (n : Nat) (start : EntityId) (name : List Char)
    (upwards : Bool) :
    t'.findWithin first n (M.entity start) name upwards =
      (t.findWithin first n start name upwards).map M.entity := by
  induction n generalizing start name upwards with
  | zero => rfl
  | succ n ih =>
    rw [Tree.findWithin, Tree.findWithin]
    dsimp only
    generalize hName : (if [':', ':'].isPrefixOf name then name.drop 2 else name) = rest
    have hOwners : (if [':', ':'].isPrefixOf name then [root]
        else if upwards then t'.enclosing (M.entity start) else [M.entity start]) =
        (if [':', ':'].isPrefixOf name then [root]
          else if upwards then t.enclosing start else [start]).map M.entity := by
      split
      · exact congrArg (· :: []) M.entity_root.symm
      · split
        · exact h.enclosing start
        · rfl
    rw [hOwners]
    by_cases hEmpty : rest.isEmpty
    · rw [if_pos hEmpty, if_pos hEmpty]
      rfl
    · rw [if_neg hEmpty, if_neg hEmpty]
      refine findSome?_mirror fun owner _ => ?_
      rw [h.mirrors.key, h.lookupKey]
      cases t.lookupKey first (t.key (String.ofList (splitSegment rest).1)) owner with
      | none => rfl
      | some found =>
        dsimp only [Option.map_some]
        split
        · rfl
        · rw [h.resolved]
          exact ih _ _ _
        · exact h.findMemberWithin _ _ _

theorem find (start : EntityId) (name : String) (upwards : Bool) :
    t'.find (M.entity start) name upwards = (t.find start name upwards).map M.entity :=
  h.findWithin _ _ _ _ _

theorem findType (start : EntityId) (name : String) :
    t'.findType (M.entity start) name = (t.findType start name).map M.entity :=
  h.findWithin _ _ _ _ _

end Reflects

/-! ## Giving names -/

namespace Mirrors

variable {t t' : Tree}

theorem addChild (h : t.Mirrors M t') (parent id : EntityId) :
    (t.addChild parent id).Mirrors M (t'.addChild (M.entity parent) (M.entity id)) := by
  refine h.modify parent fun hParent => { hParent with children := ?_ }
  dsimp only
  rw [hParent.children, List.map_append]
  rfl

/-- What becomes of an entity in mirrored trees. -/
theorem nameOutcome (h : t.Mirrors M t') (kind : EntityKind) (forward : Bool)
    (existing? : Option EntityId) {outcome : NameOutcome}
    (hOutcome : t.nameOutcome kind forward existing? = .ok outcome) :
    t'.nameOutcome kind forward (existing?.map M.entity) = .ok (match outcome with
      | .fresh => .fresh
      | .repeated existing => .repeated (M.entity existing)
      | .reopened scope => .reopened (scope.map M.scope)
      | .completed => .completed) := by
  rcases nameOutcome_eq_ok hOutcome with ⟨rfl, rfl⟩ | ⟨x, rfl, hKind, hCase⟩
  · rfl
  · have hExisting := h.entity x
    rw [Option.map_some, Tree.nameOutcome]
    rw [hExisting.kind, if_neg (not_not_intro hKind), hKind, hExisting.forward, hExisting.scope]
    rcases hCase with ⟨rfl, rfl⟩ | ⟨rfl, rfl, rfl⟩ | ⟨rfl, hModule, hForward, rfl⟩
    · rfl
    · rfl
    · have hExtendable : kind.isExtendable = false := by
        simpa [EntityKind.isExtendable] using hModule
      rw [hExtendable, hForward]
      rfl

/-- Giving a name to an entity in both trees. -/
theorem setName (h : t.Mirrors M t') (hReachable : t.Reachable) {id found : EntityId}
    {name : String} {forward listed : Bool} {u : Tree}
    (hSet : t.setName id name forward listed = .ok (found, u)) :
    ∃ u', t'.setName (M.entity id) name forward listed = .ok (M.entity found, u') ∧
      u.Mirrors M u' := by
  have hReflects : Reflects M t t' := ⟨h, hReachable⟩
  obtain ⟨parent, scope, hParent, hScope, hFree, hEnter⟩ := setName_eq_ok.mp hSet
  have hNamed : (t.rename id name).Mirrors M (t'.rename (M.entity id) name) :=
    h.modify id fun hId => { hId with name := rfl }
  suffices hEntered : ∃ u', (t'.rename (M.entity id) name).enterName (M.entity parent, M.scope scope)
      (M.entity id) name forward listed = .ok (M.entity found, u') ∧ u.Mirrors M u' by
    obtain ⟨u', hEnter', hu⟩ := hEntered
    refine ⟨u', setName_eq_ok.mpr ⟨M.entity parent, M.scope scope, ?_, ?_, ?_, hEnter'⟩, hu⟩
    · rw [(h.entity id).parent, hParent]
      rfl
    · rw [(h.entity parent).scope, hScope]
      rfl
    · rw [h.key, hReflects.lookupInBases, hFree]
      rfl
  unfold Tree.enterName at hEnter ⊢
  dsimp only at hEnter ⊢
  rw [(hNamed.entity id).kind, hNamed.key]
  generalize t.rename id name = v at hEnter hNamed
  generalize t'.rename (M.entity id) name = v' at hNamed
  have hList : ∀ {w w' : Tree}, w.Mirrors M w' →
      (if listed then w.addChild parent id else w).Mirrors M
        (if listed then w'.addChild (M.entity parent) (M.entity id) else w') := by
    intro w w' hw
    split
    · exact hw.addChild parent id
    · exact hw
  rw [hNamed.scope]
  cases hOutcome : v.nameOutcome (v.get id).kind forward
      ((v.scope scope).get? (isDeclarationName (v.get id).kind) (v.key name)) with
  | error cause =>
    rw [hOutcome] at hEnter
    cases hEnter
  | ok outcome =>
    rw [hOutcome] at hEnter
    rw [hNamed.nameOutcome _ _ _ hOutcome]
    have hInserted := hNamed.insertName scope (isDeclarationName (v.get id).kind) (v.key name) id
    cases outcome with
    | fresh =>
      cases hEnter
      exact ⟨_, rfl, hList (hInserted.modify id fun hId => { hId with forward := rfl })⟩
    | repeated existing =>
      cases hEnter
      exact ⟨_, rfl, hNamed.modify id fun hId => { hId with forward := rfl }⟩
    | reopened shared =>
      cases hEnter
      exact ⟨_, rfl, hList (hNamed.modify id fun hId => { hId with scope := rfl })⟩
    | completed =>
      cases hEnter
      exact ⟨_, rfl, hList hInserted⟩

end Mirrors

end Tree

end IdlReader
