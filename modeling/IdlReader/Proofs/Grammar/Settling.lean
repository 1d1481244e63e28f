import IdlReader.Grammar.Content
import IdlReader.Proofs.Grammar.Evaluation

/-!
# Evaluations of members

The members of an entity are evaluated without reading anything: nothing but the tree changes, and of
the tree nothing but what declarations hold when they are evaluated.

* `settling_checkEntries`: the entries of an enumeration.
* `settling_evaluateMembers`: the members of an entity.
-/

namespace IdlReader.Parsing

open IdlReader.Tree

variable {α β : Type}

namespace Settling

theorem pure (a : α) : Settling Settles (pure a) := by
  intro s b s' hRun
  cases hRun
  exact ⟨rfl, .refl _⟩

theorem bind {x : Parsing α} {f : α → Parsing β} (hx : Settling Settles x)
    (hf : ∀ a, Settling Settles (f a)) : Settling Settles (x >>= f) := by
  intro s b s'' hRun
  obtain ⟨a, s', ha, hb⟩ := bind_eq_ok.mp hRun
  obtain ⟨hFirst, hSettles⟩ := hx s a s' ha
  obtain ⟨hSecond, hSettles'⟩ := hf a s' b s'' hb
  exact ⟨by rw [hSecond, hFirst], hSettles.trans hSettles'⟩

theorem throw (f : Fault) : Settling Settles (throwThe Fault f : Parsing α) := by
  intro s a s' hRun
  cases hRun

theorem ite {c : Prop} [Decidable c] {x y : Parsing α} (hx : c → Settling Settles x)
    (hy : ¬ c → Settling Settles y) : Settling Settles (if c then x else y) := by
  split
  · exact hx ‹_›
  · exact hy ‹_›

theorem tree {f : Tree → Parsing β} (h : ∀ t, Settling Settles (f t)) :
    Settling Settles (tree >>= f) := fun s => h s.tree s

theorem entity {id : EntityId} {f : Entity → Parsing β} (h : ∀ e, Settling Settles (f e)) :
    Settling Settles (entity id >>= f) := fun s => h (s.tree.get id) s

theorem forM {f : α → Parsing Unit} (h : ∀ a, Settling Settles (f a)) (l : List α) :
    Settling Settles (l.forM f) := by
  induction l with
  | nil => exact pure _
  | cons a l ih => exact (h a).bind fun _ => ih

end Settling

theorem settling_checkEntries (seen : List Constant) (ids : List EntityId) :
    Settling Settles (checkEntries seen ids) := by
  induction ids generalizing seen with
  | nil => exact .pure _
  | cons id ids ih =>
    unfold checkEntries
    refine (asks_evaluateDeclaration.1 id).bind fun _ => .entity fun e => ?_
    split
    · exact .throw _
    · exact .ite (fun _ => .throw _) fun _ => ih _

theorem settling_checkLabels (p : Position) (seen cs : List Constant) :
    Settling Settles (checkCases.checkLabels p seen cs) := by
  induction cs generalizing seen with
  | nil => exact .pure _
  | cons c cs ih =>
    unfold checkCases.checkLabels
    exact .ite (fun _ => .throw _) fun _ => ih _

theorem settling_checkCases (hasDefault : Bool) (seen : List Constant) (ids : List EntityId) :
    Settling Settles (checkCases hasDefault seen ids) := by
  induction ids generalizing hasDefault seen with
  | nil => exact .pure _
  | cons id ids ih =>
    unfold checkCases
    refine (asks_evaluateDeclaration.1 id).bind fun _ => .entity fun e => ?_
    split
    · exact ih _ _
    · exact .ite (fun _ => Settling.bind (.throw _) fun _ =>
          (settling_checkLabels _ _ _).bind fun _ => ih _ _) fun _ =>
        (settling_checkLabels _ _ _).bind fun _ => ih _ _

theorem settling_childrenOfKinds (kinds : List EntityKind) (ids : List EntityId) :
    Settling Settles (childrenOfKinds kinds ids) := .tree fun _ => .pure _

theorem settling_evaluateType (id : EntityId) : Settling Settles (evaluateType id) := by
  unfold evaluateType
  refine .entity fun e => .ite (fun _ => ?_) fun _ => asks_evaluateDeclaration.1 id
  exact .ite (fun _ => .pure _) fun _ =>
    (settling_childrenOfKinds _ _).bind fun _ => settling_checkCases _ _ _

theorem settling_evaluateWithParameters (id : EntityId) :
    Settling Settles (evaluateWithParameters id) :=
  (asks_evaluateDeclaration.1 id).bind fun _ => .tree fun _ =>
    .forM (fun id => asks_evaluateDeclaration.1 id) _

theorem settling_evaluateMembers (owner : EntityId) :
    Settling Settles (evaluateMembers owner) := by
  unfold evaluateMembers
  refine .entity fun e => (settling_childrenOfKinds _ _).bind fun _ => ?_
  refine (Settling.forM (fun id => settling_evaluateType id) _).bind fun _ => ?_
  refine (settling_childrenOfKinds _ _).bind fun _ => ?_
  refine (Settling.forM (fun id => asks_evaluateDeclaration.1 id) _).bind fun _ => ?_
  refine (settling_childrenOfKinds _ _).bind fun _ => ?_
  refine (Settling.forM (fun id => settling_evaluateWithParameters id) _).bind fun _ => ?_
  exact (settling_childrenOfKinds _ _).bind fun _ =>
    .forM (fun id => asks_evaluateDeclaration.1 id) _

end IdlReader.Parsing
