import IdlReader.Proofs.Grammar.Addition
import IdlReader.Proofs.Grammar.Evaluation

/-!
# Stages of reading

A stage is a tree with the definitions whose content is being read, the innermost one first. From
stage to stage the innermost definition gets members (`Tree.Grown`), a definition is opened in it
(`Tree.Entered`), or its members are evaluated, after which it gets none any more and is closed
when all of them are done (`Tree.Swept`).

* `Stage.Advances.steps`: the trees of stages grow by steps.
* `Evaluations.concludes`: the content of a definition ends with evaluations.
-/

namespace IdlReader

namespace Tree

variable {t t' t'' : Tree}

/-- Whether a declaration was evaluated, with its parameters if it is an operation. -/
structure Settled (t : Tree) (c : EntityId) : Prop where
  self : t.Finished c
  parameters : (t.get c).kind = .operation → ∀ q ∈ t.parameters c, t.Finished q

/-- Whether all members of an entity were evaluated. Elsewhere than in enumerations entries of
these do not count. -/
structure Swept (t : Tree) (o : EntityId) : Prop where
  entries : (t.get o).kind = .enum → ∀ c ∈ (t.get o).children, t.Finished c
  members : (t.get o).kind ≠ .enum → ∀ c ∈ (t.get o).children, (t.get c).kind ≠ .enumEntry →
    t.Settled c

end Tree

open IdlReader.Tree

/-! ## Stages -/

/-- A tree with the definitions that are being read, the innermost one first. -/
structure Stage where
  tree : Tree
  opened : List EntityId
  /-- Whether the evaluation of the members of the innermost definition has started. -/
  closing : Bool

namespace Stage

/-- The stage in which nothing was read. -/
def start (caseSensitive : Bool) : Stage := ⟨initial caseSensitive, [root], false⟩

/-- The definitions that may still get members. -/
def growing (σ : Stage) : List EntityId := if σ.closing then σ.opened.tail else σ.opened

/-- From a stage to the next one. -/
inductive Advance : Stage → Stage → Prop where
  /-- The innermost definition gets members. -/
  | grow {t t' : Tree} {o : EntityId} {os : List EntityId} (h : Grown o t t') :
      Advance ⟨t, o :: os, false⟩ ⟨t', o :: os, false⟩
  /-- A definition is opened. -/
  | enter {t t' : Tree} {o id : EntityId} {os : List EntityId} (h : Entered o id t t') :
      Advance ⟨t, o :: os, false⟩ ⟨t', id :: o :: os, false⟩
  /-- A declaration is evaluated. -/
  | evaluate {id o : EntityId} {os : List EntityId} {closing : Bool} {s s' : Session}
      (h : Parsing.evaluateDeclaration id s = .ok () s') :
      Advance ⟨s.tree, o :: os, closing⟩ ⟨s'.tree, o :: os, true⟩
  /-- The innermost definition is closed. -/
  | close {t : Tree} {o : EntityId} {os : List EntityId} {closing : Bool} (h : t.Swept o) :
      Advance ⟨t, o :: os, closing⟩ ⟨t, os, false⟩

/-- From a stage to one of those that follow. -/
abbrev Advances : Stage → Stage → Prop := Relation.ReflTransGen Advance

variable {σ σ' : Stage}

theorem Advance.steps (h : Advance σ σ') : Steps σ.tree σ'.tree := by
  cases h with
  | grow hGrown => exact hGrown.steps
  | enter hEntered => exact hEntered.steps
  | evaluate hRun => exact (Parsing.asks_evaluateDeclaration.1 _ _ _ _ hRun).2.steps
  | close => exact .refl

theorem Advance.calm (h : Advance σ σ') (hCalm : σ.tree.Calm) : σ'.tree.Calm := by
  cases h with
  | grow hGrown => exact hGrown.calm hCalm
  | enter hEntered => exact hEntered.calm hCalm
  | evaluate hRun => exact (Parsing.asks_evaluateDeclaration.1 _ _ _ _ hRun).2.quiet.calm hCalm
  | close => exact hCalm

theorem Advances.steps (h : Advances σ σ') : Steps σ.tree σ'.tree := by
  induction h with
  | refl => exact .refl
  | tail _ hLast ih => exact ih.trans hLast.steps

theorem Advances.calm (h : Advances σ σ') (hCalm : σ.tree.Calm) : σ'.tree.Calm := by
  induction h with
  | refl => exact hCalm
  | tail _ hLast ih => exact hLast.calm ih

end Stage

/-! ## Courses of stages -/

namespace Tree

open Stage

variable {t t' t'' : Tree}

/-- Whether reading goes on in an entity from one tree to another one. -/
def Continues (o : EntityId) (t t' : Tree) : Prop :=
  ∀ os, Advances ⟨t, o :: os, false⟩ ⟨t', o :: os, false⟩

/-- Whether the content of an entity is read from one tree to another one. -/
def Concludes (o : EntityId) (t t' : Tree) : Prop :=
  ∀ os, Advances ⟨t, o :: os, false⟩ ⟨t', os, false⟩

/-- Whether a declaration is evaluated from one tree to another one. -/
def Evaluates (t t' : Tree) : Prop :=
  ∃ id s s', Parsing.evaluateDeclaration id s = .ok () s' ∧ s.tree = t ∧ s'.tree = t'

/-- Any number of evaluations. -/
abbrev Evaluations : Tree → Tree → Prop := Relation.ReflTransGen Evaluates

theorem Evaluations.settles (h : Evaluations t t') : Settles t t' := by
  induction h with
  | refl => exact Settles.refl t
  | tail _ hLast ih =>
    obtain ⟨id, s, s', hRun, rfl, rfl⟩ := hLast
    exact ih.trans (Parsing.asks_evaluateDeclaration.1 _ _ _ _ hRun).2

theorem Evaluations.advances (h : Evaluations t t') (o : EntityId) (os : List EntityId) :
    ∃ closing, Advances ⟨t, o :: os, false⟩ ⟨t', o :: os, closing⟩ := by
  induction h with
  | refl => exact ⟨false, .refl⟩
  | tail _ hLast ih =>
    obtain ⟨closing, hBefore⟩ := ih
    obtain ⟨id, s, s', hRun, rfl, rfl⟩ := hLast
    exact ⟨true, hBefore.tail (.evaluate hRun)⟩

/-- The content of an entity ends when all its members were evaluated. -/
theorem Evaluations.concludes {o : EntityId} (h : Evaluations t t') (hSwept : t'.Swept o) :
    Concludes o t t' := by
  intro os
  obtain ⟨closing, hAdvances⟩ := h.advances o os
  exact hAdvances.tail (.close hSwept)

theorem Grown.continues {o : EntityId} (h : Grown o t t') : Continues o t t' :=
  fun _ => .single (.grow h)

theorem Continues.concludes {o : EntityId} (h : Continues o t t') (h' : Concludes o t' t'') :
    Concludes o t t'' := fun os => (h os).trans (h' os)

theorem Entered.continues {o id : EntityId} (h : Entered o id t t') (h' : Concludes id t' t'') :
    Continues o t t'' := fun os => (Relation.ReflTransGen.single (.enter h)).trans (h' (o :: os))

theorem Continues.calm {o : EntityId} (h : Continues o t t') (hCalm : t.Calm) : t'.Calm :=
  (h []).calm hCalm

instance (o : EntityId) : Growth (Continues o) where
  steps h := (h []).steps
  refl _ _ := .refl
  trans h h' os := (h os).trans (h' os)
  noted h := (h.grown o).continues

/-- How trees go on while content is read: by `C o` as long as the content of `o` is read, and by
`K o` when it was read to its end. Whatever more is said than that stages follow each other, it holds
of the members that are added, of a definition between its braces and of what is read up to the
end. -/
structure Reading (C K : EntityId → Tree → Tree → Prop) : Prop where
  growth : ∀ o, Growth (C o)
  continues : ∀ {o : EntityId} {t t' : Tree}, C o t t' → Continues o t t'
  grown : ∀ {o : EntityId} {t t' : Tree}, Grown o t t' → C o t t'
  enters : ∀ {o id : EntityId} {t t' t'' : Tree}, Entered o id t t' → K id t' t'' → C o t t''
  closes : ∀ {o : EntityId} {t t' t'' : Tree}, C o t t' → K o t' t'' → K o t t''

theorem reading_stages : Reading Continues Concludes where
  growth := fun _ => inferInstance
  continues := fun h => h
  grown := Grown.continues
  enters := Entered.continues
  closes := Continues.concludes

instance : Course Evaluations where
  steps h := h.settles.steps
  refl _ := .refl
  trans h h' := h.trans h'

theorem Evaluations.kind (h : Evaluations t t') (i : EntityId) :
    (t'.get i).kind = (t.get i).kind := kind_congr h.settles.outline i

theorem Evaluations.finished (h : Evaluations t t') {id : EntityId} (hFinished : t.Finished id) :
    t'.Finished id := h.settles.refines.finished hFinished

theorem Evaluations.settled (h : Evaluations t t') {id : EntityId} (hSettled : t.Settled id) :
    t'.Settled id := by
  refine ⟨h.finished hSettled.self, fun hKind q hq => h.finished (hSettled.parameters ?_ q ?_)⟩
  · exact (h.kind id).symm.trans hKind
  · rw [parameters_congr h.settles.outline] at hq
    exact hq

end Tree

namespace Parsing

variable {α : Type} {s : Session}

/-! ## Evaluating actions -/

theorem grows_evaluateDeclaration (hs : s.Sound) (id : EntityId) :
    Grows Evaluations (evaluateDeclaration id) s fun _ s' => s'.tree.Finished id := by
  intro a s' hRun
  obtain ⟨hSession, hSettles⟩ := asks_evaluateDeclaration.1 id s a s' hRun
  refine ⟨?_, .single ⟨id, s, s', hRun, rfl, rfl⟩, asks_evaluateDeclaration.2 id s a s' hRun⟩
  rw [hSession]
  exact hs.steps hSettles.steps (entry_of_size (size_congr hSettles.outline))

/-- What holds of each element when it was worked on, and of it ever after, holds of all. -/
theorem Grows.forM {f : α → Parsing Unit} {P : α → Tree → Prop}
    (hStays : ∀ a t t', Evaluations t t' → P a t → P a t') (l : List α)
    (h : ∀ a ∈ l, ∀ s : Session, s.Sound → Grows Evaluations (f a) s fun _ s' => P a s'.tree)
    (hs : s.Sound) : Grows Evaluations (l.forM f) s fun _ s' => ∀ a ∈ l, P a s'.tree := by
  induction l generalizing s with
  | nil => exact Grows.pure hs nofun
  | cons a l ih =>
    refine (h a List.mem_cons_self s hs).bind ?_
    intro _ s₁ hs₁ _ ha
    refine (ih (fun b hb => h b (List.mem_cons_of_mem a hb)) hs₁).mono ?_
    intro _ s₂ _ hR₂ hl b hb
    rcases List.mem_cons.mp hb with rfl | hb
    · exact hStays b _ _ hR₂ ha
    · exact hl b hb

end Parsing

end IdlReader
