import IdlReader.Proofs.Grammar.Stage

/-!
# What holds in every stage

In every stage the definitions that are being read stand in each other, and every declaration
that was not evaluated stands in one of them, or is a parameter of an operation there. So nothing
is left to evaluate when all definitions are closed.

* `Stage.Sound.advance`: one case for each way from a stage to the next one.
* `Stage.Sound.finished`: what holds at the end.
-/

namespace IdlReader

open IdlReader.Tree

namespace Tree

variable {t t' : Tree} {a o i p : EntityId} {os : List EntityId}

/-- Whether entities stand in each other, the innermost one first, up to the root. Each but the
root is a definition, and the last thing that was read of what it stands in. -/
inductive Nested (t : Tree) : List EntityId → Prop where
  | root : Nested t [Tree.root]
  | inner {a o : EntityId} {os : List EntityId} (hParent : (t.get a).parent = some o)
      (hFull : (t.get a).forward = false) (hKind : (t.get a).kind.isDefinition = true)
      (hSwitch : (t.get a).kind = .union → t.Switched a)
      (hLast : ∀ i, (t.get i).parent = some o → (t.get i).kind ≠ .directive → i ≤ a)
      (hOuter : Nested t (o :: os)) : Nested t (a :: o :: os)

theorem Nested.tail (h : t.Nested (o :: os)) : os = [] ∨ t.Nested os := by
  cases h with
  | root => exact Or.inl rfl
  | inner _ _ _ _ _ hOuter => exact Or.inr hOuter

theorem Nested.lt (h : t.Nested os) (hReachable : t.Reachable) : ∀ b ∈ os, b < t.size := by
  induction h with
  | root =>
    intro b hb
    rw [List.mem_singleton.mp hb]
    exact hReachable.size_pos
  | inner hParent _ _ _ _ _ ih =>
    intro b hb
    rcases List.mem_cons.mp hb with rfl | hb
    · exact lt_size_of_parent hParent
    · exact ih b hb

/-- What encloses an entity comes before it. -/
theorem Nested.lt_head (hReachable : t.Reachable) (h : t.Nested (o :: os)) : ∀ b ∈ os, b < o := by
  generalize hl : o :: os = l at h
  induction h generalizing o os with
  | root =>
    cases hl
    exact nofun
  | inner hParent _ _ _ _ _ ih =>
    cases hl
    intro b hb
    have hLt := (wellFormed_of_reachable hReachable).parent_lt (lt_size_of_parent hParent) hParent
    rcases List.mem_cons.mp hb with rfl | hb
    · exact hLt
    · exact Nat.lt_trans (ih rfl b hb) hLt

/-- Every entity that is being read is the root or a definition. -/
theorem Nested.kind (hReachable : t.Reachable) (h : t.Nested os) :
    ∀ b ∈ os, (t.get b).kind = .root ∨ (t.get b).kind.isDefinition = true := by
  induction h with
  | root =>
    intro b hb
    rw [List.mem_singleton.mp hb]
    exact Or.inl (wellFormed_of_reachable hReachable).rootKind
  | inner _ _ hKind _ _ _ ih =>
    intro b hb
    rcases List.mem_cons.mp hb with rfl | hb
    · exact Or.inr hKind
    · exact ih b hb

theorem Nested.switched (h : t.Nested os) (hReachable : t.Reachable) :
    ∀ b ∈ os, (t.get b).kind = .union → t.Switched b := by
  induction h with
  | root =>
    intro b hb hUnion
    rw [List.mem_singleton.mp hb, (wellFormed_of_reachable hReachable).rootKind] at hUnion
    cases hUnion
  | inner _ _ _ hSwitch _ _ ih =>
    intro b hb
    rcases List.mem_cons.mp hb with rfl | hb
    · exact hSwitch
    · exact ih b hb

/-- What encloses others is enclosing a definition that was read last there. -/
theorem Nested.exists_inner (h : t.Nested (o :: os)) (hp : p ∈ os) :
    ∃ a ∈ o :: os, (t.get a).parent = some p ∧ (t.get a).forward = false ∧
      (t.get a).kind.isDefinition = true ∧
      ∀ i, (t.get i).parent = some p → (t.get i).kind ≠ .directive → i ≤ a := by
  generalize hl : o :: os = l at h
  induction h generalizing o os with
  | root =>
    cases hl
    cases hp
  | @inner a o' os' hParent hFull hKind _ hLast _ ih =>
    cases hl
    rcases List.mem_cons.mp hp with rfl | hp
    · exact ⟨a, List.mem_cons_self, hParent, hFull, hKind, hLast⟩
    · obtain ⟨b, hb, hRest⟩ := ih hp rfl
      exact ⟨b, List.mem_cons_of_mem a hb, hRest⟩

/-- Entities stay nested when nothing is added to what encloses others. -/
theorem Nested.adds {q : EntityId → Prop} (hCalm : t.Calm) (hReachable : t.Reachable)
    (hSteps : Steps t t') (hAdds : Adds t t' q) (h : t.Nested (o :: os))
    (hNew : ∀ i, t.size ≤ i → i < t'.size → (t'.get i).kind ≠ .directive →
      ∀ b ∈ os, (t'.get i).parent ≠ some b) : t'.Nested (o :: os) := by
  have hExtends := hSteps.extends hReachable.size_pos
  have hFramed := (wellFormed_of_reachable hReachable).toFramed
  generalize hl : o :: os = l at h
  induction h generalizing o os with
  | root =>
    cases hl
    exact .root
  | @inner a o' os' hParent hFull hKind hSwitch hLast hOuter ih =>
    cases hl
    have hLt := lt_size_of_parent hParent
    have hNamed : (t.get a).name ≠ "" := hCalm a (hFramed.ne_root_of_parent hParent) hLt
    refine .inner ((hAdds.parent a hLt).trans hParent) ?_ ?_ ?_ ?_
      (ih (fun i hi hLt hKind b hb => hNew i hi hLt hKind b (List.mem_cons_of_mem _ hb)) rfl)
    · exact (hExtends.settled a hLt (Or.inr hNamed)).2.1.trans hFull
    · rw [hAdds.kind a hLt]
      exact hKind
    · intro hUnion
      rw [hAdds.kind a hLt] at hUnion
      exact (hSwitch hUnion).adds hAdds
    · intro i hi hDirective
      by_cases hOld : i < t.size
      · rw [hAdds.parent i hOld] at hi
        rw [hAdds.kind i hOld] at hDirective
        exact hLast i hi hDirective
      · exact absurd hi (hNew i (Nat.le_of_not_lt hOld) (lt_size_of_parent hi) hDirective o'
          List.mem_cons_self)

/-- Evaluations change no entity's place. -/
theorem Nested.outline (hOutline : t'.outline = t.outline) (h : t.Nested os) : t'.Nested os := by
  have hSwitched : ∀ {i}, t.Switched i → t'.Switched i := by
    rintro i ⟨d, type, k, hd, hRest⟩
    exact ⟨d, type, k, (definition?_congr hOutline i).trans hd, hRest⟩
  induction h with
  | root => exact .root
  | inner hParent hFull hKind hSwitch hLast _ ih =>
    refine .inner ?_ ?_ ?_ ?_ ?_ ih
    · exact (parent_congr hOutline _).trans hParent
    · exact (forward_congr hOutline _).trans hFull
    · rw [kind_congr hOutline]
      exact hKind
    · rw [kind_congr hOutline]
      exact fun hUnion => hSwitched (hSwitch hUnion)
    · intro i hi hDirective
      rw [parent_congr hOutline] at hi
      rw [kind_congr hOutline] at hDirective
      exact hLast i hi hDirective

end Tree

namespace Stage

variable {σ σ' : Stage}

/-- What holds in every stage. -/
structure Sound (σ : Stage) : Prop where
  reachable : σ.tree.Reachable
  calm : σ.tree.Calm
  nested : σ.opened = [] ∨ σ.tree.Nested σ.opened
  belongs : ∀ i p, (σ.tree.get i).parent = some p → (σ.tree.get i).kind ≠ .directive →
    (σ.tree.get i).kind.Belongs (σ.tree.get p).kind
  lettered : ∀ i d, (σ.tree.get i).declaration? = some d → σ.tree.Lettered d.type
  cases : ∀ i p, (σ.tree.get i).parent = some p → (σ.tree.get i).kind = .caseEntry →
    σ.tree.Switched p
  waiting : ∀ i d, (σ.tree.get i).declaration? = some d → d.progress ≠ .done →
    d.progress = .pending ∧ ∃ o ∈ σ.opened, σ.tree.Under o i

theorem sound_start (caseSensitive : Bool) : (start caseSensitive).Sound := by
  have hRoot : ∀ i, i < (initial caseSensitive).size → i = root := fun i hi => Nat.lt_one_iff.mp hi
  have hNoParent : ∀ i p, ((initial caseSensitive).get i).parent = some p → False := by
    intro i p hp
    rw [hRoot i (lt_size_of_parent hp)] at hp
    cases hp
  have hNoDeclaration : ∀ i d, ((initial caseSensitive).get i).declaration? = some d → False := by
    intro i d hd
    rw [hRoot i (lt_of_declaration? hd)] at hd
    cases hd
  exact
    { reachable := ⟨caseSensitive, .refl⟩
      calm := fun i hNe hi => absurd (hRoot i hi) hNe
      nested := Or.inr .root
      belongs := fun i p hp => (hNoParent i p hp).elim
      lettered := fun i d hd => (hNoDeclaration i d hd).elim
      cases := fun i p hp => (hNoParent i p hp).elim
      waiting := fun i d hd => (hNoDeclaration i d hd).elim }

section Adding

variable {t t' : Tree} {o : EntityId} {os : List EntityId} {q : EntityId → Prop}
  (h : Sound ⟨t, o :: os, false⟩) (hSteps : Steps t t') (hAdds : Adds t t' q)

include h hSteps hAdds

/-- What is added keeps to what stages promise if all that is new does. -/
theorem Sound.adds {opened : List EntityId} (hCalm : t'.Calm) (hNested : t'.Nested opened)
    (hOpened : ∀ b ∈ o :: os, b ∈ opened)
    (hNew : ∀ i, q i → t.size ≤ i → i < t'.size →
      (∀ p, (t'.get i).parent = some p → (t'.get i).kind.Belongs (t'.get p).kind ∧
        ((t'.get i).kind = .caseEntry → t'.Switched p)) ∧
      t'.Pending i ∧ (∀ d, (t'.get i).declaration? = some d → ∃ b ∈ opened, t'.Under b i)) :
    Sound ⟨t', opened, false⟩ := by
  have hReachable' := h.reachable.steps hSteps
  -- A directive is no declaration.
  have hDeclaration : ∀ i d, (t'.get i).declaration? = some d → (t'.get i).kind ≠ .directive := by
    intro i d hd hDirective
    have hSome := hReachable'.isDeclaration (lt_of_declaration? hd)
    rw [hDirective, hd] at hSome
    cases hSome
  refine ⟨hReachable', hCalm, Or.inr hNested, ?_, ?_, ?_, ?_⟩
  · intro i p hp hDirective
    by_cases hOld : i < t.size
    · have hPlace := hp
      rw [hAdds.parent i hOld] at hPlace
      have hpLt := (wellFormed_of_reachable h.reachable).parent_lt_size hOld hPlace
      rw [hAdds.kind i hOld] at hDirective ⊢
      rw [hAdds.kind p hpLt]
      exact h.belongs i p hPlace hDirective
    · have hi := Nat.le_of_not_lt hOld
      have hLt := lt_size_of_parent hp
      exact ((hNew i (hAdds.new i hi hLt hDirective) hi hLt).1 p hp).1
  · intro i d hd
    by_cases hOld : i < t.size
    · have hBefore := hd
      rw [hAdds.declaration? i hOld] at hBefore
      exact (h.lettered i d hBefore).steps h.reachable.size_pos hSteps
    · have hi := Nat.le_of_not_lt hOld
      have hLt := lt_of_declaration? hd
      exact ((hNew i (hAdds.new i hi hLt (hDeclaration i d hd)) hi hLt).2.1 d hd).2
  · intro i p hp hCase
    by_cases hOld : i < t.size
    · have hPlace := hp
      rw [hAdds.parent i hOld] at hPlace
      rw [hAdds.kind i hOld] at hCase
      exact (h.cases i p hPlace hCase).adds hAdds
    · have hi := Nat.le_of_not_lt hOld
      have hLt := lt_size_of_parent hp
      have hDirective : (t'.get i).kind ≠ .directive := by
        rw [hCase]
        decide
      exact ((hNew i (hAdds.new i hi hLt hDirective) hi hLt).1 p hp).2 hCase
  · intro i d hd hNot
    by_cases hOld : i < t.size
    · have hBefore := hd
      rw [hAdds.declaration? i hOld] at hBefore
      obtain ⟨hPending, b, hb, hUnder⟩ := h.waiting i d hBefore hNot
      exact ⟨hPending, b, hOpened b hb, hUnder.adds hOld hAdds⟩
    · have hi := Nat.le_of_not_lt hOld
      have hLt := lt_of_declaration? hd
      obtain ⟨-, hPending, hUnder⟩ :=
        hNew i (hAdds.new i hi hLt (hDeclaration i d hd)) hi hLt
      exact ⟨(hPending d hd).1, hUnder d hd⟩

end Adding

section Cases

variable {t t' : Tree} {o id : EntityId} {os : List EntityId} {closing : Bool}

theorem Sound.stack (h : Sound ⟨t, o :: os, closing⟩) : t.Nested (o :: os) :=
  h.nested.resolve_left nofun

theorem Sound.grow (h : Sound ⟨t, o :: os, false⟩) (hGrown : Grown o t t') :
    Sound ⟨t', o :: os, false⟩ := by
  have hReachable' := h.reachable.steps hGrown.steps
  have hFramed' := (wellFormed_of_reachable hReachable').toFramed
  have hOperation : ∀ i q, (t'.get i).parent = some q → (t'.get i).kind = .parameter →
      (t'.get q).kind = .operation := by
    intro i q hq hKind
    obtain ⟨q', hq', -, -, -, hParameter⟩ :=
      hFramed'.parent i (hFramed'.ne_root_of_parent hq) (lt_size_of_parent hq)
    rw [hq] at hq'
    cases hq'
    exact hParameter.mp hKind
  have hNested : t'.Nested (o :: os) := by
    refine h.stack.adds h.calm h.reachable hGrown.steps hGrown.adds ?_
    intro i hi hLt hKind b hb hParent
    rcases (hGrown.adds.new i hi hLt hKind).place with ⟨hPlace, -⟩ | ⟨hParameter, q, hq, -⟩
    · rw [hPlace] at hParent
      cases hParent
      exact Nat.lt_irrefl _ (h.stack.lt_head h.reachable o hb)
    · have hbKind := h.stack.kind h.reachable b (List.mem_cons_of_mem o hb)
      have hbLt := h.stack.lt h.reachable b (List.mem_cons_of_mem o hb)
      rw [← hGrown.adds.kind b hbLt, hOperation i b hParent hParameter] at hbKind
      rcases hbKind with hFalse | hFalse <;> cases hFalse
  refine h.adds hGrown.steps hGrown.adds (hGrown.calm h.calm) hNested (fun _ hb => hb) ?_
  intro i hFresh hi hLt
  refine ⟨fun p hp => ?_, hFresh.pending, fun d _ => ⟨o, List.mem_cons_self, hFresh.place⟩⟩
  rcases hFresh.place with ⟨hPlace, -⟩ | ⟨hParameter, -⟩
  · rw [hPlace] at hp
    cases hp
    refine ⟨hFresh.belongs, fun hCase => ?_⟩
    have hUnion := hFresh.belongs.case hCase
    exact hNested.switched hReachable' o List.mem_cons_self hUnion
  · rw [hParameter, hOperation i p hp hParameter]
    exact ⟨⟨nofun, by decide⟩, nofun⟩

theorem Sound.enter (h : Sound ⟨t, o :: os, false⟩) (hEntered : Entered o id t t') :
    Sound ⟨t', id :: o :: os, false⟩ := by
  have hReachable' := h.reachable.steps hEntered.steps
  have hOuter : t'.Nested (o :: os) := by
    refine h.stack.adds h.calm h.reachable hEntered.steps hEntered.adds ?_
    intro i hi hLt hKind b hb hParent
    rw [hEntered.adds.new i hi hLt hKind, hEntered.parent] at hParent
    cases hParent
    exact Nat.lt_irrefl _ (h.stack.lt_head h.reachable o hb)
  have hLast : ∀ i, (t'.get i).parent = some o → (t'.get i).kind ≠ .directive → i ≤ id := by
    intro i hi hKind
    by_cases hOld : i < t.size
    · exact Nat.le_of_lt (Nat.lt_of_lt_of_le hOld hEntered.new)
    · exact Nat.le_of_eq (hEntered.adds.new i (Nat.le_of_not_lt hOld) (lt_size_of_parent hi) hKind)
  have hNested : t'.Nested (id :: o :: os) :=
    .inner hEntered.parent hEntered.full hEntered.kind hEntered.switch hLast hOuter
  have hNone : ∀ d, (t'.get id).declaration? ≠ some d := by
    intro d hd
    have hSome := hReachable'.isDeclaration hEntered.lt
    rw [hd, EntityKind.not_isDeclaration_of_isDefinition hEntered.kind] at hSome
    cases hSome
  refine h.adds hEntered.steps hEntered.adds (hEntered.calm h.calm) hNested
    (fun _ hb => List.mem_cons_of_mem id hb) ?_
  rintro i rfl hi hLt
  refine ⟨fun p hp => ?_, fun d hd => absurd hd (hNone d), fun d hd => absurd hd (hNone d)⟩
  rw [hEntered.parent] at hp
  cases hp
  refine ⟨?_, fun hCase => ?_⟩
  · rw [hEntered.adds.kind o hEntered.owner]
    exact hEntered.belongs
  · have hKind := hEntered.kind
    rw [hCase] at hKind
    cases hKind

theorem Sound.evaluate (h : Sound ⟨t, o :: os, closing⟩) (hSettles : Settles t t') :
    Sound ⟨t', o :: os, true⟩ := by
  have hOutline := hSettles.outline
  have hPos := h.reachable.size_pos
  refine ⟨h.reachable.steps hSettles.steps, hSettles.quiet.calm h.calm,
    Or.inr (h.stack.outline hOutline), ?_, ?_, ?_, ?_⟩
  · intro i p hp hDirective
    rw [parent_congr hOutline] at hp
    rw [kind_congr hOutline] at hDirective
    rw [kind_congr hOutline, kind_congr hOutline]
    exact h.belongs i p hp hDirective
  · intro i d hd
    obtain ⟨d₀, hd₀, hSame⟩ := declaration?_congr hOutline hd
    have hType : d.outline.type = d₀.outline.type := congrArg Declaration.type hSame
    change t'.Lettered d.outline.type
    rw [hType]
    exact (h.lettered i d₀ hd₀).steps hPos hSettles.steps
  · intro i p hp hCase
    rw [parent_congr hOutline] at hp
    rw [kind_congr hOutline] at hCase
    obtain ⟨d, type, k, hd, hRest⟩ := h.cases i p hp hCase
    exact ⟨d, type, k, (definition?_congr hOutline p).trans hd, hRest⟩
  · intro i d hd hNot
    obtain ⟨hPending, b, hb, hUnder⟩ := h.waiting i d (hSettles.waiting i d hd hNot) hNot
    refine ⟨hPending, b, hb, ?_⟩
    unfold Under at hUnder ⊢
    simp only [parent_congr hOutline, kind_congr hOutline, parameters_congr hOutline]
    exact hUnder

/-- A member of a definition all of whose members were evaluated. -/
theorem Sound.settled (h : Sound ⟨t, o :: os, closing⟩) (hSwept : t.Swept o) {c : EntityId}
    {d : Declaration} (hd : (t.get c).declaration? = some d)
    (hParent : (t.get c).parent = some o) (hKind : (t.get c).kind ≠ .parameter) :
    t.Finished c ∧ ((t.get c).kind = .operation → ∀ q ∈ t.parameters c, t.Finished q) := by
  have hFramed := (wellFormed_of_reachable h.reachable).toFramed
  have hLt := lt_size_of_parent hParent
  have hDeclaration : (t.get c).kind.isDeclaration = true := by
    rw [← h.reachable.isDeclaration hLt, hd]
    rfl
  have hDirective : (t.get c).kind ≠ .directive := by
    intro hDirective
    rw [hDirective] at hDeclaration
    cases hDeclaration
  have hFull : (t.get c).forward = false := by
    refine Bool.eq_false_iff.mpr fun hForward => ?_
    rw [EntityKind.not_isDeclaration_of_isDefinition (hFramed.forward c hLt hForward)]
      at hDeclaration
    cases hDeclaration
  have hMember : c ∈ (t.get o).children := h.reachable.listed
    ⟨⟨hLt, h.calm c (hFramed.ne_root_of_parent hParent) hLt⟩, hFull, hKind, hDirective⟩ hParent
  have hBelongs := h.belongs c o hParent hDirective
  by_cases hEnum : (t.get o).kind = .enum
  · refine ⟨hSwept.entries hEnum c hMember, fun hOperation => ?_⟩
    have hEntry := hBelongs.entry.mpr hEnum
    rw [hOperation] at hEntry
    cases hEntry
  · have hSettled := hSwept.members hEnum c hMember fun hEntry => hEnum (hBelongs.entry.mp hEntry)
    exact ⟨hSettled.self, hSettled.parameters⟩

theorem Sound.close (h : Sound ⟨t, o :: os, closing⟩) (hSwept : t.Swept o) :
    Sound ⟨t, os, false⟩ := by
  have hFramed := (wellFormed_of_reachable h.reachable).toFramed
  refine ⟨h.reachable, h.calm, h.stack.tail, h.belongs, h.lettered, h.cases, ?_⟩
  intro i d hd hNot
  obtain ⟨hPending, b, hb, hUnder⟩ := h.waiting i d hd hNot
  refine ⟨hPending, ?_⟩
  rcases List.mem_cons.mp hb with rfl | hb
  · -- What stands in the definition that is closed was evaluated.
    refine absurd (?_ : t.Finished i) fun hFinished => hNot (hFinished d hd)
    rcases hUnder with ⟨hParent, hKind⟩ | ⟨hParameter, q, hq, hPlace, hListed⟩
    · exact (h.settled hSwept hd hParent hKind).1
    · obtain ⟨q', hq', -, -, -, hOperation⟩ :=
        hFramed.parent i (hFramed.ne_root_of_parent hq) (lt_size_of_parent hq)
      rw [hq] at hq'
      cases hq'
      have hqKind := hOperation.mp hParameter
      have hSome : (t.get q).declaration?.isSome = true := by
        rw [h.reachable.isDeclaration (lt_of_mem_parameters hListed), hqKind]
        rfl
      obtain ⟨dq, hdq⟩ := Option.isSome_iff_exists.mp hSome
      refine (h.settled hSwept hdq hPlace ?_).2 hqKind i hListed
      rw [hqKind]
      decide
  · exact ⟨b, hb, hUnder⟩

end Cases

theorem Sound.advance (h : σ.Sound) (hAdvance : Advance σ σ') : σ'.Sound := by
  cases hAdvance with
  | grow hGrown => exact h.grow hGrown
  | enter hEntered => exact h.enter hEntered
  | evaluate hRun => exact h.evaluate (Parsing.asks_evaluateDeclaration.1 _ _ _ _ hRun).2
  | close hSwept => exact h.close hSwept

theorem Sound.advances (h : σ.Sound) (hAdvances : Advances σ σ') : σ'.Sound := by
  induction hAdvances with
  | refl => exact h
  | tail _ hLast ih => exact ih.advance hLast

/-- At the end nothing is left to evaluate. -/
theorem Sound.finished {t : Tree} {closing : Bool} (h : Sound ⟨t, [], closing⟩) (i : EntityId) :
    t.Finished i := by
  intro d hd
  refine Decidable.byContradiction fun hNot => ?_
  obtain ⟨-, o, ho, -⟩ := h.waiting i d hd hNot
  cases ho

end Stage

end IdlReader
