import IdlReader.Grammar.Evaluation
import IdlReader.Proofs.Grammar.Growth
import IdlReader.Proofs.Tree.Outline

/-!
# Replayed evaluations

An evaluation only settles declarations: some that were pending become done, and nothing else
changes. Once everything that an evaluation asks for is done, it can be replayed with `consult`,
which looks evaluated declarations up and changes nothing, and gives the same again. A
declaration is `Justified` in a tree if the evaluation of its parts, replayed there, gives what
the tree holds for it.

* `Settles.trans`: settling goes on, and what is justified stays so.
* `Replays.bind`: evaluations one after the other are replayed one after the other.
* `Replays.asked`: a declaration that was asked for is found again as it was.
-/

namespace IdlReader

namespace Tree

variable {t t' t'' : Tree}

/-! ## Refined trees -/

/-- Whether a declaration, if there is one, was evaluated. -/
def Finished (t : Tree) (id : EntityId) : Prop :=
  ∀ d, (t.get id).declaration? = some d → d.progress = .done

theorem exists_of_not_finished {id : EntityId} (h : ¬ t.Finished id) :
    ∃ d, (t.get id).declaration? = some d ∧ d.progress ≠ .done := by
  cases hd : (t.get id).declaration? with
  | none =>
    refine absurd (fun d hSome => ?_) h
    rw [hd] at hSome
    cases hSome
  | some d =>
    refine ⟨d, rfl, fun hDone => h fun d' hSome => ?_⟩
    rw [hd] at hSome
    cases hSome
    exact hDone

/-- Whether a tree differs from another one in declarations only that were not evaluated
there. -/
structure Refines (t t' : Tree) : Prop where
  outline : t'.outline = t.outline
  kept : ∀ i d, (t.get i).declaration? = some d → d.progress = .done →
    (t'.get i).declaration? = some d

theorem Refines.refl (t : Tree) : Refines t t := ⟨rfl, fun _ _ hd _ => hd⟩

theorem Refines.trans (h : Refines t t') (h' : Refines t' t'') : Refines t t'' where
  outline := h'.outline.trans h.outline
  kept := fun i d hd hDone => h'.kept i d (h.kept i d hd hDone) hDone

/-- A declaration that was evaluated stays as it is. -/
theorem Refines.declaration? (h : Refines t t') {id : EntityId} (hFinished : t.Finished id) :
    (t'.get id).declaration? = (t.get id).declaration? := by
  cases hd : (t.get id).declaration? with
  | some d => exact h.kept id d hd (hFinished d hd)
  | none =>
    cases hd' : (t'.get id).declaration? with
    | none => rfl
    | some d' =>
      obtain ⟨d, hSome, -⟩ := declaration?_congr h.outline hd'
      rw [hd] at hSome
      cases hSome

theorem Refines.finished (h : Refines t t') {id : EntityId} (hFinished : t.Finished id) :
    t'.Finished id := by
  intro d hd
  rw [h.declaration? hFinished] at hd
  exact hFinished d hd

end Tree

namespace Parsing

open IdlReader.Tree

/-- Looks up a declaration that must have been evaluated. -/
def consult (id : EntityId) : Parsing Unit := do
  let e ← entity id
  match e.declaration? with
  | none => return
  | some d => if d.progress = .done then return else fail .circular

/-- Reading an entity leaves the session as it is. -/
theorem entity_bind {β : Type} (f : Entity → Parsing β) (id : EntityId) (s : Session) :
    (entity id >>= f) s = f (s.tree.get id) s := rfl

theorem consult_finished {id : EntityId} {s : Session} (h : s.tree.Finished id) :
    consult id s = .ok () s := by
  unfold consult
  rw [entity_bind]
  cases hd : (s.tree.get id).declaration? with
  | none => rfl
  | some d =>
    dsimp only
    rw [if_pos (h d hd)]
    rfl

theorem consult_eq_ok {id : EntityId} {s s' : Session} {a : Unit} (h : consult id s = .ok a s') :
    s' = s ∧ s.tree.Finished id := by
  unfold consult at h
  rw [entity_bind] at h
  cases hd : (s.tree.get id).declaration? with
  | none =>
    rw [hd] at h
    cases h
    refine ⟨rfl, fun d hSome => ?_⟩
    rw [hd] at hSome
    cases hSome
  | some d =>
    rw [hd] at h
    dsimp only at h
    split at h
    · rename_i hDone
      cases h
      refine ⟨rfl, fun d' hSome => ?_⟩
      rw [hd] at hSome
      cases hSome
      exact hDone
    · cases h

end Parsing

namespace Tree

open Parsing

/-- Whether the replayed evaluation of the parts of a declaration gives what it holds. -/
def Justified (t : Tree) (id : EntityId) (d : Declaration) : Prop :=
  ∀ u : Session, Refines t u.tree →
    d.dimensions.mapM (arraySize consult ((t.get id).parent.getD root)) u = .ok d.sizes u ∧
      declaredValue consult id (t.get id).kind d d.sizes ((t.get id).parent.getD root) u =
        .ok (d.value, d.caseValues) u

theorem Justified.refines {t t' : Tree} {id : EntityId} {d : Declaration}
    (h : t.Justified id d) (hRefines : Refines t t') : t'.Justified id d := by
  intro u hu
  rw [kind_congr hRefines.outline, parent_congr hRefines.outline]
  exact h u (hRefines.trans hu)

/-- Whether an evaluation can lead from a tree to another one. -/
structure Settles (t t' : Tree) : Prop where
  steps : Steps t t'
  outline : t'.outline = t.outline
  /-- What is not pending stays. -/
  kept : ∀ i d, (t.get i).declaration? = some d → d.progress ≠ .pending →
    (t'.get i).declaration? = some d
  /-- What is not done was so before. -/
  waiting : ∀ i d, (t'.get i).declaration? = some d → d.progress ≠ .done →
    (t.get i).declaration? = some d
  /-- What becomes done is justified. -/
  settled : ∀ i d, (t'.get i).declaration? = some d → d.progress = .done →
    (t.get i).declaration? = some d ∨ t'.Justified i d

namespace Settles

variable {t t' t'' : Tree}

theorem refl (t : Tree) : Settles t t where
  steps := .refl
  outline := rfl
  kept := fun _ _ hd _ => hd
  waiting := fun _ _ hd _ => hd
  settled := fun _ _ hd _ => Or.inl hd

theorem refines (h : Settles t t') : Refines t t' where
  outline := h.outline
  kept := fun i d hd hDone => h.kept i d hd (by rw [hDone]; decide)

theorem trans (h : Settles t t') (h' : Settles t' t'') : Settles t t'' where
  steps := h.steps.trans h'.steps
  outline := h'.outline.trans h.outline
  kept := fun i d hd hNot => h'.kept i d (h.kept i d hd hNot) hNot
  waiting := fun i d hd hNot => h.waiting i d (h'.waiting i d hd hNot) hNot
  settled := by
    intro i d hd hDone
    rcases h'.settled i d hd hDone with hOld | hNew
    · exact (h.settled i d hOld hDone).imp id fun hJustified => hJustified.refines h'.refines
    · exact Or.inr hNew

theorem quiet (h : Settles t t') : Quiet t t' := by
  have hSize := size_congr h.outline
  refine ⟨h.steps, ?_, ?_⟩
  · intro hCalm i hRoot hLt
    rw [name_congr h.outline]
    exact hCalm i hRoot (hSize ▸ hLt)
  · intro id hOpen
    refine ⟨hOpen.ne_root, hSize ▸ hOpen.lt, ?_, ?_, ?_⟩
    · rw [name_congr h.outline]
      exact hOpen.unnamed
    · intro i hRoot hi hLt
      rw [name_congr h.outline]
      exact hOpen.others i hRoot hi (hSize ▸ hLt)
    · intro i hi hLt
      rw [kind_congr h.outline]
      exact hOpen.records i hi (hSize ▸ hLt)

end Settles

/-- Relations of trees that hold along the evaluation of parts of declarations: evaluations settle
declarations, and looking them up changes nothing. -/
class Refining (R : Tree → Tree → Prop) : Prop where
  refl : ∀ t, R t t
  trans : ∀ {t t' t''}, R t t' → R t' t'' → R t t''
  refines : ∀ {t t'}, R t t' → Refines t t'

instance : Refining Settles := ⟨Settles.refl, Settles.trans, Settles.refines⟩

instance : Refining Eq := ⟨fun _ => rfl, Eq.trans, fun h => h ▸ Refines.refl _⟩

end Tree

namespace Parsing

open IdlReader.Tree

variable {α β : Type} {u : Session} {R : Tree → Tree → Prop}

/-! ## Settling actions -/

/-- Whether an action changes nothing but the tree, and that by a relation. -/
def Settling (R : Tree → Tree → Prop) (x : Parsing α) : Prop :=
  ∀ s a s', x s = .ok a s' → s' = { s with tree := s'.tree } ∧ R s.tree s'.tree

/-- Whether an action settles what it is asked for. -/
def Asks (R : Tree → Tree → Prop) (evaluate : EntityId → Parsing Unit) : Prop :=
  (∀ id, Settling R (evaluate id)) ∧ ∀ id s a s', evaluate id s = .ok a s' → s'.tree.Finished id

theorem asks_consult : Asks Eq consult := by
  refine ⟨?_, ?_⟩
  · intro id s a s' h
    rw [(consult_eq_ok h).1]
    exact ⟨rfl, rfl⟩
  · intro id s a s' h
    rw [(consult_eq_ok h).1]
    exact (consult_eq_ok h).2

/-- Whether what an action settles and gives is given again by a second action in the session
`u`, if the tree there refines the one that the action leads to. -/
def Replays (R : Tree → Tree → Prop) (u : Session) (x y : Parsing α) : Prop :=
  ∀ s a s', x s = .ok a s' → s' = { s with tree := s'.tree } ∧ R s.tree s'.tree ∧
    (Refines s'.tree u.tree → y u = .ok a u)

namespace Replays

/-- Nothing is asked of the replay of an action that fails. -/
theorem throw (f : Fault) {y : Parsing α} : Replays R u (throwThe Fault f) y := by
  intro s a s' h
  cases h

theorem fail (cause : Cause) {y : Parsing α} : Replays R u (IdlReader.fail cause) y := throw _

theorem failAt (cause : Cause) (p : Position) {y : Parsing α} :
    Replays R u (IdlReader.failAt cause p) y := throw _

theorem failAtToken (cause : Cause) (t : Token) {y : Parsing α} :
    Replays R u (Parsing.failAtToken cause t) y := throw _

/-- A failed action goes on with nothing. -/
theorem failAtToken_bind (cause : Cause) (t : Token) {f : α → Parsing β} {y : Parsing β} :
    Replays R u (Parsing.failAtToken cause t >>= f) y := by
  intro s b s' h
  obtain ⟨a, s₁, ha, -⟩ := bind_eq_ok.mp h
  cases ha

theorem fail_bind (cause : Cause) {f : α → Parsing β} {y : Parsing β} :
    Replays R u (IdlReader.fail cause >>= f) y := by
  intro s b s' h
  obtain ⟨a, s₁, ha, -⟩ := bind_eq_ok.mp h
  cases ha

variable [Refining R]

theorem pure (a : α) : Replays R u (pure a) (pure a) := by
  intro s b s' h
  cases h
  exact ⟨rfl, Refining.refl _, fun _ => rfl⟩

theorem bind {x y : Parsing α} {f g : α → Parsing β} (hx : Replays R u x y)
    (hf : ∀ a, Replays R u (f a) (g a)) : Replays R u (x >>= f) (y >>= g) := by
  intro s b s' h
  obtain ⟨a, s₁, ha, hfa⟩ := bind_eq_ok.mp h
  obtain ⟨hSession, hSettles, hReplay⟩ := hx s a s₁ ha
  obtain ⟨hSession', hSettles', hReplay'⟩ := hf a s₁ b s' hfa
  refine ⟨?_, Refining.trans hSettles hSettles', fun hRefines => ?_⟩
  · rw [hSession', hSession]
  · exact bind_eq_ok.mpr ⟨a, u, hReplay ((Refining.refines hSettles').trans hRefines), hReplay' hRefines⟩

/-- The tree in which an action is replayed refines the one that it saw. -/
theorem tree {f g : Tree → Parsing β}
    (h : ∀ t t' : Tree, Refines t t' → Replays R u (f t) (g t')) :
    Replays R u (tree >>= f) (tree >>= g) := by
  intro s b s' hRun
  have hRun : f s.tree s = .ok b s' := hRun
  obtain ⟨hSession, hSettles, -⟩ := h s.tree s.tree (Refines.refl _) s b s' hRun
  refine ⟨hSession, hSettles, fun hRefines => ?_⟩
  exact (h s.tree u.tree ((Refining.refines hSettles).trans hRefines) s b s' hRun).2.2 hRefines

theorem entity {f g : Entity → Parsing β} {id : EntityId}
    (h : ∀ t t' : Tree, Refines t t' → Replays R u (f (t.get id)) (g (t'.get id))) :
    Replays R u (entity id >>= f) (entity id >>= g) :=
  tree (f := fun t => f (t.get id)) (g := fun t => g (t.get id)) h

theorem orFail (x : Except Cause α) : Replays R u (orFail x) (orFail x) := by
  cases x with
  | ok a => exact pure a
  | error cause => exact fail cause

theorem orThrow (x : Except Fault α) :
    Replays R u (Expression.orThrow x) (Expression.orThrow x) := by
  cases x with
  | ok a => exact pure a
  | error f => exact throw f

theorem orFailAt (p : Position) (x : Except Cause α) :
    Replays R u (Expression.orFailAt p x) (Expression.orFailAt p x) := by
  cases x with
  | ok a => exact pure a
  | error cause => exact failAt cause p

theorem mapM {f g : α → Parsing β} (h : ∀ a, Replays R u (f a) (g a)) (l : List α) :
    Replays R u (l.mapM f) (l.mapM g) := by
  induction l with
  | nil => exact pure _
  | cons a l ih =>
    rw [List.mapM_cons, List.mapM_cons]
    exact (h a).bind fun _ => ih.bind fun _ => pure _

/-! ## Declarations that are asked for -/

section Asking

variable {evaluate evaluate' : EntityId → Parsing Unit} (hAsks : Asks R evaluate)
  (hIdle : ∀ id, u.tree.Finished id → evaluate' id u = .ok () u)

include hAsks hIdle

/-- What was asked for is done and found again as it was. -/
theorem asked {id : EntityId} {f g : Tree → Parsing β}
    (h : ∀ t t' : Tree, Refines t t' → t.Finished id → Replays R u (f t) (g t')) :
    Replays R u (evaluate id >>= fun _ => Parsing.tree >>= f)
      (evaluate' id >>= fun _ => Parsing.tree >>= g) := by
  intro s b s' hRun
  obtain ⟨a, s₁, ha, hRun⟩ := bind_eq_ok.mp hRun
  have hRun : f s₁.tree s₁ = .ok b s' := hRun
  obtain ⟨hSession, hSettles⟩ := hAsks.1 id s a s₁ ha
  have hFinished := hAsks.2 id s a s₁ ha
  obtain ⟨hSession', hSettles', -⟩ :=
    h s₁.tree s₁.tree (Refines.refl _) hFinished s₁ b s' hRun
  refine ⟨?_, Refining.trans hSettles hSettles', fun hRefines => ?_⟩
  · rw [hSession', hSession]
  · have hLast := (Refining.refines hSettles').trans hRefines
    refine bind_eq_ok.mpr ⟨(), u, hIdle id (hLast.finished hFinished), ?_⟩
    exact (h s₁.tree u.tree hLast hFinished s₁ b s' hRun).2.2 hRefines

theorem asked_entity {id : EntityId} {f g : Entity → Parsing β}
    (h : ∀ t t' : Tree, Refines t t' → t.Finished id →
      Replays R u (f (t.get id)) (g (t'.get id))) :
    Replays R u (evaluate id >>= fun _ => Parsing.entity id >>= f)
      (evaluate' id >>= fun _ => Parsing.entity id >>= g) :=
  asked hAsks hIdle (f := fun t => f (t.get id)) (g := fun t => g (t.get id)) h

end Asking

end Replays

end Parsing

end IdlReader
