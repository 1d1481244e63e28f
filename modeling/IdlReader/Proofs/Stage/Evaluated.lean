import IdlReader.Proofs.Stage.Sound

/-!
# When declarations are evaluated

Every declaration of a document was evaluated between two stages of reading, keeps what this gave
it, and has the same evaluated again from there on. A definition that gets no members any more
when that happens is complete: it has all its members.

* `exists_evaluated`: every declaration was evaluated once.
* `Evaluated.justified`: what it holds is what its evaluation gives in that stage.
* `Advances.complete`: complete definitions keep their members.
* `Evaluated.sibling_lt`: what else stands in the definition of a declaration by then.
-/

namespace IdlReader.Stage

open IdlReader.Tree

variable {σ σ' : Stage} {t : Tree} {c : EntityId}

/-! ## From stage to stage -/

/-- What was evaluated stays as it is. -/
theorem Advance.kept (h : Advance σ σ') {d : Declaration}
    (hd : (σ.tree.get c).declaration? = some d) (hDone : d.progress = .done) :
    (σ'.tree.get c).declaration? = some d := by
  cases h with
  | grow hGrown => exact (hGrown.adds.declaration? c (lt_of_declaration? hd)).trans hd
  | enter hEntered => exact (hEntered.adds.declaration? c (lt_of_declaration? hd)).trans hd
  | evaluate hRun =>
    exact (Parsing.asks_evaluateDeclaration.1 _ _ _ _ hRun).2.kept c d hd (by rw [hDone]; decide)
  | close => exact hd

theorem Advances.kept (h : Advances σ σ') {d : Declaration}
    (hd : (σ.tree.get c).declaration? = some d) (hDone : d.progress = .done) :
    (σ'.tree.get c).declaration? = some d := by
  induction h with
  | refl => exact hd
  | tail _ hLast ih => exact hLast.kept ih hDone

/-- The data of definitions stays as it is. -/
theorem Advance.definition? (h : Advance σ σ') {D : EntityId} (hD : D < σ.tree.size) :
    (σ'.tree.get D).definition? = (σ.tree.get D).definition? := by
  cases h with
  | grow hGrown => exact hGrown.adds.definition? D hD
  | enter hEntered => exact hEntered.adds.definition? D hD
  | evaluate hRun =>
    exact definition?_congr (Parsing.asks_evaluateDeclaration.1 _ _ _ _ hRun).2.outline D
  | close => rfl

theorem Advances.definition? (hSound : σ.Sound) (h : Advances σ σ') {D : EntityId}
    (hD : D < σ.tree.size) : (σ'.tree.get D).definition? = (σ.tree.get D).definition? := by
  induction h with
  | refl => rfl
  | tail hBefore hLast ih =>
    have hSize := ((Advances.steps hBefore).extends hSound.reachable.size_pos).size
    exact (hLast.definition? (Nat.lt_of_lt_of_le hD hSize)).trans ih

/-- New declarations wait for their evaluation. -/
theorem Advance.new (hSound : σ.Sound) (h : Advance σ σ') {d : Declaration}
    (hd : (σ'.tree.get c).declaration? = some d) (hNone : (σ.tree.get c).declaration? = none) :
    d.progress = .pending := by
  have hSound' := hSound.advance h
  have hLt := lt_of_declaration? hd
  have hDirective : (σ'.tree.get c).kind ≠ .directive := by
    intro hDirective
    have hSome := hSound'.reachable.isDeclaration hLt
    rw [hDirective, hd] at hSome
    cases hSome
  have hAdded : ∀ {q : EntityId → Prop}, Adds σ.tree σ'.tree q → q c := by
    intro q hAdds
    refine hAdds.new c (Nat.le_of_not_lt fun hOld => ?_) hLt hDirective
    rw [hAdds.declaration? c hOld, hNone] at hd
    cases hd
  cases h with
  | grow hGrown => exact ((hAdded hGrown.adds).pending d hd).1
  | enter hEntered =>
    have hSome := hSound'.reachable.isDeclaration hLt
    rw [hd, hAdded hEntered.adds,
      EntityKind.not_isDeclaration_of_isDefinition hEntered.kind] at hSome
    cases hSome
  | evaluate hRun =>
    have hOutline := (Parsing.asks_evaluateDeclaration.1 _ _ _ _ hRun).2.outline
    obtain ⟨d₀, hd₀, -⟩ := declaration?_congr hOutline hd
    rw [hNone] at hd₀
    cases hd₀
  | close =>
    rw [hNone] at hd
    cases hd

/-- Only evaluations finish declarations. -/
theorem Advance.evaluation (h : Advance σ σ') (hNot : ¬ σ.tree.Finished c)
    (hFinished : σ'.tree.Finished c) :
    Settles σ.tree σ'.tree ∧ σ'.opened = σ.opened ∧ σ'.closing = true := by
  obtain ⟨d, hd, hWaits⟩ := exists_of_not_finished hNot
  have hAdded : ∀ {q : EntityId → Prop}, Adds σ.tree σ'.tree q → False := fun hAdds =>
    hWaits (hFinished d ((hAdds.declaration? c (lt_of_declaration? hd)).trans hd))
  cases h with
  | grow hGrown => exact (hAdded hGrown.adds).elim
  | enter hEntered => exact (hAdded hEntered.adds).elim
  | evaluate hRun => exact ⟨(Parsing.asks_evaluateDeclaration.1 _ _ _ _ hRun).2, rfl, rfl⟩
  | close => exact absurd hFinished hNot

/-! ## Evaluations -/

/-- Whether a declaration was evaluated right before a stage on the way to a tree in which all
definitions are closed. -/
structure Evaluated (t : Tree) (c : EntityId) (σ : Stage) : Prop where
  before : ∃ caseSensitive σ₀, Advances (start caseSensitive) σ₀ ∧ Advance σ₀ σ ∧
    ¬ σ₀.tree.Finished c
  finished : σ.tree.Finished c
  after : Advances σ ⟨t, [], false⟩

/-- Every declaration was evaluated. -/
theorem exists_evaluated {caseSensitive : Bool} (h : Advances (start caseSensitive) ⟨t, [], false⟩)
    (hSome : (t.get c).declaration?.isSome = true) : ∃ σ, Evaluated t c σ := by
  have hStart := sound_start caseSensitive
  suffices hBetween : ∀ σ', Advances (start caseSensitive) σ' →
      (σ'.tree.get c).declaration?.isSome = true → σ'.tree.Finished c →
      ∃ σ₀ σ, Advances (start caseSensitive) σ₀ ∧ Advance σ₀ σ ∧ ¬ σ₀.tree.Finished c ∧
        σ.tree.Finished c ∧ Advances σ σ' by
    obtain ⟨σ₀, σ, hBefore, hStep, hNot, hFinished, hAfter⟩ :=
      hBetween _ h hSome ((hStart.advances h).finished c)
    exact ⟨σ, ⟨caseSensitive, σ₀, hBefore, hStep, hNot⟩, hFinished, hAfter⟩
  intro σ' hAdvances
  induction hAdvances with
  | refl =>
    intro hSome
    obtain ⟨d, hd⟩ := Option.isSome_iff_exists.mp hSome
    have hRoot : c = root := Nat.lt_one_iff.mp (lt_of_declaration? hd)
    rw [hRoot] at hd
    cases hd
  | @tail σ₁ σ₂ hBefore hStep ih =>
    intro hSome hFinished
    obtain ⟨d, hd⟩ := Option.isSome_iff_exists.mp hSome
    cases hOld : (σ₁.tree.get c).declaration? with
    | none =>
      have hPending := hStep.new (hStart.advances hBefore) hd hOld
      rw [hFinished d hd] at hPending
      cases hPending
    | some d₁ =>
      by_cases hDone : d₁.progress = .done
      · have hFinished₁ : σ₁.tree.Finished c := by
          intro d' hd'
          rw [hOld] at hd'
          cases hd'
          exact hDone
        obtain ⟨σ₀, σ, hFirst, hThis, hNot, hThen, hRest⟩ :=
          ih (by rw [hOld]; rfl) hFinished₁
        exact ⟨σ₀, σ, hFirst, hThis, hNot, hThen, hRest.tail hStep⟩
      · exact ⟨σ₁, σ₂, hBefore, hStep, fun hNot => hDone (hNot d₁ hOld), hFinished, .refl⟩

namespace Evaluated

variable (h : Evaluated t c σ)

include h

theorem sound : σ.Sound := by
  obtain ⟨caseSensitive, σ₀, hBefore, hStep, -⟩ := h.before
  exact ((sound_start caseSensitive).advances hBefore).advance hStep

theorem steps : Steps σ.tree t := h.after.steps

theorem calm : t.Calm := h.after.calm h.sound.calm

theorem exists_declaration : ∃ d, (σ.tree.get c).declaration? = some d ∧
    (t.get c).declaration? = some d := by
  obtain ⟨caseSensitive, σ₀, hBefore, hStep, hNot⟩ := h.before
  obtain ⟨d₀, hd₀, -⟩ := exists_of_not_finished hNot
  have hPos := ((sound_start caseSensitive).advances hBefore).reachable.size_pos
  obtain ⟨d, hd, -⟩ := Steps.type hPos hStep.steps hd₀
  exact ⟨d, hd, h.after.kept hd (h.finished d hd)⟩

/-- What is evaluated is what the declaration of the tree holds. -/
theorem declaration? : (t.get c).declaration? = (σ.tree.get c).declaration? := by
  obtain ⟨d, hd, hFinal⟩ := h.exists_declaration
  rw [hd, hFinal]

theorem lt : c < σ.tree.size := by
  obtain ⟨d, hd, -⟩ := h.exists_declaration
  exact lt_of_declaration? hd

theorem kind : (t.get c).kind = (σ.tree.get c).kind :=
  (h.steps.extends h.sound.reachable.size_pos).kind c h.lt

theorem parent : (t.get c).parent = (σ.tree.get c).parent :=
  (h.steps.extends h.sound.reachable.size_pos).parent c h.lt

/-- The evaluation gives what the declaration holds. -/
theorem justified {d : Declaration} (hd : (t.get c).declaration? = some d) :
    σ.tree.Justified c d := by
  rw [h.declaration?] at hd
  obtain ⟨caseSensitive, σ₀, hBefore, hStep, hNot⟩ := h.before
  have hDone := h.finished d hd
  refine ((hStep.evaluation hNot h.finished).1.settled c d hd hDone).resolve_left fun hOld => ?_
  refine hNot fun d' hd' => ?_
  rw [hOld] at hd'
  cases hd'
  exact hDone

end Evaluated

/-! ## Complete definitions -/

/-- Whether a definition, or the root, is there and gets no members any more. -/
structure Complete (σ : Stage) (D : EntityId) : Prop where
  lt : D < σ.tree.size
  full : (σ.tree.get D).forward = false
  closed : D ∉ σ.growing

/-- What gets no members keeps them. -/
theorem Advance.complete (hSound : σ.Sound) (h : Advance σ σ') {D : EntityId}
    (hComplete : σ.Complete D) :
    σ'.Complete D ∧ (σ'.tree.get D).children = (σ.tree.get D).children := by
  have hExtends := h.steps.extends hSound.reachable.size_pos
  have hLt := Nat.lt_of_lt_of_le hComplete.lt hExtends.size
  have hSettled : D = root ∨ (σ.tree.get D).name ≠ "" := by
    by_cases hRoot : D = root
    · exact Or.inl hRoot
    · exact Or.inr (hSound.calm D hRoot hComplete.lt)
  have hFull := (hExtends.settled D hComplete.lt hSettled).2.1.trans hComplete.full
  have hNew : ∀ {c : EntityId}, Joining σ.tree σ'.tree D c → σ.tree.size ≤ c := by
    intro c hJoining
    refine Nat.le_of_not_lt fun hOld => hJoining.unnamed ⟨hOld, hSound.calm c ?_ hOld⟩
    have hFramed := (wellFormed_of_reachable (hSound.advance h).reachable).toFramed
    exact hFramed.ne_root_of_parent hJoining.parent
  obtain ⟨l, hl, -, hJoining⟩ := h.steps.children hSound.reachable D
  have hNone : (∀ c, Joining σ.tree σ'.tree D c → False) →
      (σ'.tree.get D).children = (σ.tree.get D).children := by
    intro hNot
    cases l with
    | nil => rw [hl, List.append_nil]
    | cons c l => exact (hNot c (hJoining c List.mem_cons_self)).elim
  cases h with
  | @grow t t' o os hGrown =>
    refine ⟨⟨hLt, hFull, hComplete.closed⟩, hNone fun c hc => ?_⟩
    have hFresh := hGrown.adds.new c (hNew hc) hc.named.1 hc.directive
    rcases hFresh.place with ⟨hParent, -⟩ | ⟨hParameter, -⟩
    · rw [hc.parent] at hParent
      cases hParent
      exact hComplete.closed List.mem_cons_self
    · exact hc.kind hParameter
  | @enter t t' o id os hEntered =>
    refine ⟨⟨hLt, hFull, fun hMem => ?_⟩, hNone fun c hc => ?_⟩
    · rcases List.mem_cons.mp hMem with rfl | hMem
      · exact Nat.not_le_of_lt hComplete.lt hEntered.new
      · exact hComplete.closed hMem
    · have hEq := hEntered.adds.new c (hNew hc) hc.named.1 hc.directive
      have hParent := hc.parent
      rw [hEq, hEntered.parent] at hParent
      cases hParent
      exact hComplete.closed List.mem_cons_self
  | @evaluate id o os closing s s' hRun =>
    have hOutline := (Parsing.asks_evaluateDeclaration.1 _ _ _ _ hRun).2.outline
    refine ⟨⟨hLt, hFull, fun hMem => hComplete.closed ?_⟩, children_congr hOutline D⟩
    unfold growing at hMem ⊢
    cases closing with
    | true => exact hMem
    | false => exact List.mem_cons_of_mem o hMem
  | @close t o os closing hSwept =>
    refine ⟨⟨hLt, hFull, fun hMem => hComplete.closed ?_⟩, rfl⟩
    unfold growing at hMem ⊢
    cases closing with
    | true => exact hMem
    | false => exact List.mem_cons_of_mem o hMem

theorem Advances.complete (hSound : σ.Sound) (h : Advances σ σ') {D : EntityId}
    (hComplete : σ.Complete D) :
    σ'.Complete D ∧ (σ'.tree.get D).children = (σ.tree.get D).children := by
  induction h with
  | refl => exact ⟨hComplete, rfl⟩
  | tail hBefore hLast ih =>
    obtain ⟨hMiddle, hChildren⟩ := ih
    obtain ⟨hLater, hSame⟩ := hLast.complete (hSound.advances hBefore) hMiddle
    exact ⟨hLater, hSame.trans hChildren⟩

/-! ## Siblings -/

/-- A declaration is evaluated while its definition is being read. -/
theorem Evaluated.reading (h : Evaluated t c σ) {p : EntityId}
    (hParent : (t.get c).parent = some p) (hKind : (t.get c).kind ≠ .parameter) :
    ∃ o os, σ.tree.Nested (o :: os) ∧ σ.growing = os ∧ p ∈ o :: os := by
  obtain ⟨caseSensitive, σ₀, hBefore, hStep, hNot⟩ := h.before
  have hSound₀ := (sound_start caseSensitive).advances hBefore
  obtain ⟨d₀, hd₀, hWaits⟩ := exists_of_not_finished hNot
  obtain ⟨-, o, ho, hUnder⟩ := hSound₀.waiting c d₀ hd₀ hWaits
  have hLt₀ := lt_of_declaration? hd₀
  have hSteps : Steps σ₀.tree t := hStep.steps.trans h.steps
  have hExtends₀ := hSteps.extends hSound₀.reachable.size_pos
  have hEq : o = p := by
    rcases hUnder with ⟨hPlace, -⟩ | ⟨hParameter, -⟩
    · rw [← hExtends₀.parent c hLt₀, hParent] at hPlace
      cases hPlace
      rfl
    · rw [← hExtends₀.kind c hLt₀] at hParameter
      exact absurd hParameter hKind
  obtain ⟨-, hOpened, hClosing⟩ := hStep.evaluation hNot h.finished
  rw [hEq, ← hOpened] at ho
  cases hos : σ.opened with
  | nil =>
    rw [hos] at ho
    cases ho
  | cons head os =>
    refine ⟨head, os, ?_, ?_, hos ▸ ho⟩
    · rcases h.sound.nested with hNil | hNested
      · rw [hos] at hNil
        cases hNil
      · rwa [hos] at hNested
    · unfold growing
      rw [hClosing, hos]
      rfl

/-- When a declaration is evaluated, all members of its definition are there up to a definition
that stands behind it. -/
theorem Evaluated.sibling_lt (h : Evaluated t c σ) {p x : EntityId}
    (hParent : (t.get c).parent = some p) (hKind : (t.get c).kind ≠ .parameter)
    (hx : x ∈ (t.get p).children)
    (hBetween : ∀ D, (t.get D).parent = some p → (t.get D).kind.isDefinition = true →
      (t.get D).forward = false → c < D → ¬ D < x) :
    x < σ.tree.size := by
  have hSound := h.sound
  have hFramed := (wellFormed_of_reachable hSound.reachable).toFramed
  have hExtends := h.steps.extends hSound.reachable.size_pos
  obtain ⟨o, os, hNested, hGrowing, hp⟩ := h.reading hParent hKind
  rcases List.mem_cons.mp hp with rfl | hp
  · -- The definition gets no members any more.
    have hFull : (σ.tree.get p).forward = false := by
      cases hNested with
      | root =>
        refine Bool.eq_false_iff.mpr fun hForward => ?_
        have hDefinition := hFramed.forward root hFramed.pos hForward
        rw [hFramed.rootKind] at hDefinition
        cases hDefinition
      | inner _ hFull => exact hFull
    have hComplete : σ.Complete p := by
      refine ⟨hNested.lt hSound.reachable p List.mem_cons_self, hFull, fun hMem => ?_⟩
      rw [hGrowing] at hMem
      exact Nat.lt_irrefl _ (hNested.lt_head hSound.reachable p hMem)
    rw [(h.after.complete hSound hComplete).2] at hx
    exact (hSound.reachable.parent_of_mem_children hx).1.1
  · -- A definition in it is being read, behind the declaration.
    obtain ⟨a, ha, haParent, haFull, haKind, haLast⟩ := hNested.exists_inner hp
    have haLt := hNested.lt hSound.reachable a ha
    obtain ⟨d, hd, -⟩ := h.exists_declaration
    have hDeclaration : (σ.tree.get c).kind.isDeclaration = true := by
      rw [← hSound.reachable.isDeclaration h.lt, hd]
      rfl
    have hNe : c ≠ a := by
      rintro rfl
      rw [EntityKind.not_isDeclaration_of_isDefinition haKind] at hDeclaration
      cases hDeclaration
    have hLe : c ≤ a := by
      refine haLast c (h.parent.symm.trans hParent) fun hDirective => ?_
      rw [hDirective] at hDeclaration
      cases hDeclaration
    have haName := hSound.calm a (hFramed.ne_root_of_parent haParent) haLt
    have hNotLt := hBetween a ((hExtends.parent a haLt).trans haParent)
      (by rw [hExtends.kind a haLt]; exact haKind)
      ((hExtends.settled a haLt (Or.inr haName)).2.1.trans haFull)
      (Nat.lt_of_le_of_ne hLe hNe)
    exact Nat.lt_of_le_of_lt (Nat.le_of_not_lt hNotLt) haLt

end IdlReader.Stage
