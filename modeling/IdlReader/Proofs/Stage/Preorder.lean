import IdlReader.Proofs.Stage.Sound
import IdlReader.Proofs.Tree.ScopedName

/-!
# The order of entities

Entities are numbered in the order in which they are read, and a definition is read as a whole
before what comes behind it. So everything between a definition and one of its members stands
inside of the definition: only what encloses an entity can get members after it.

* `Stage.Ordered.advance`: one case for each way from a stage to the next one.
* `Stage.Ordered.of_advances`: what holds in every stage.
-/

namespace IdlReader

open IdlReader.Tree

namespace Tree

variable {t t' : Tree}

/-- Whether an entity is the parent of another one. -/
def Below (t : Tree) (i p : EntityId) : Prop := (t.get i).parent = some p

/-- Whether an entity stands inside of another one. -/
abbrev Inside (t : Tree) : EntityId → EntityId → Prop := Relation.TransGen t.Below

theorem Inside.mono (h : ∀ i < t.size, (t'.get i).parent = (t.get i).parent) {i o : EntityId}
    (hInside : t.Inside i o) : t'.Inside i o := by
  have hBelow : t.Below ≤ t'.Below := fun i p hp => (h i (lt_size_of_parent hp)).trans hp
  exact Relation.TransGen.mono hBelow i o hInside

/-- An entity stands inside of all that enclose it, and of nothing else. -/
theorem Framed.mem_enclosing_of_inside (h : t.Framed) {i o : EntityId} (hInside : t.Inside i o) :
    o ∈ t.enclosing i := by
  have hSelf : ∀ o, o ∈ t.enclosing o := fun o => by
    unfold enclosing
    rw [enclosingWithin]
    exact List.mem_cons_self
  induction hInside using Relation.TransGen.head_induction_on with
  | single hp =>
    rw [h.enclosing_of_parent (lt_size_of_parent hp) hp]
    exact List.mem_cons_of_mem _ (hSelf _)
  | head hp _ ih =>
    rw [h.enclosing_of_parent (lt_size_of_parent hp) hp]
    exact List.mem_cons_of_mem _ ih

/-- What encloses others is enclosing each of them. -/
theorem Nested.inside {o : EntityId} {os : List EntityId} (h : t.Nested (o :: os)) :
    ∀ b ∈ os, t.Inside o b := by
  generalize hl : o :: os = l at h
  induction h generalizing o os with
  | root =>
    cases hl
    intro b hb
    cases hb
  | inner hParent _ _ _ _ _ ih =>
    cases hl
    intro b hb
    rcases List.mem_cons.mp hb with rfl | hb
    · exact .single hParent
    · exact .head hParent (ih rfl b hb)

end Tree

namespace Stage

variable {σ σ' : Stage} {t t' : Tree} {o : EntityId} {os : List EntityId}

/-- What holds of the numbers of entities in every stage. -/
structure Ordered (σ : Stage) : Prop where
  /-- What was read since a definition was opened stands inside of it. -/
  opened : ∀ o ∈ σ.opened, ∀ i, o < i → i < σ.tree.size → (σ.tree.get i).kind ≠ .directive →
    σ.tree.Inside i o
  /-- What was read between a definition and one of its members stands inside of it. -/
  between : ∀ y o i, (σ.tree.get y).parent = some o → (σ.tree.get y).kind ≠ .directive →
    (σ.tree.get y).kind ≠ .parameter → o < i → i < y → (σ.tree.get i).kind ≠ .directive →
    σ.tree.Inside i o

theorem ordered_start (caseSensitive : Bool) : (start caseSensitive).Ordered where
  opened := by
    intro o _ i hLt hi
    have hRoot : i = root := Nat.lt_one_iff.mp hi
    rw [hRoot] at hLt
    exact absurd hLt (Nat.not_lt_zero o)
  between := by
    intro y o i hParent
    have hRoot : y = root := Nat.lt_one_iff.mp (lt_size_of_parent hParent)
    rw [hRoot] at hParent
    cases hParent

/-- New entities inside of the innermost definition keep the order. -/
theorem Ordered.adds {q : EntityId → Prop} (h : Ordered ⟨t, o :: os, false⟩)
    (hSound : Sound ⟨t, o :: os, false⟩) (hAdds : Adds t t' q)
    (hNew : ∀ i, q i → t'.Inside i o ∧
      ∀ p, (t'.get i).parent = some p → (t'.get i).kind ≠ .parameter → p = o) :
    Ordered ⟨t', o :: os, false⟩ := by
  have hStack := hSound.stack
  have hLt := hStack.lt hSound.reachable
  have hMono : ∀ {i a}, t.Inside i a → t'.Inside i a := fun hInside =>
    hInside.mono fun i hi => hAdds.parent i hi
  -- Everything behind the innermost definition stands inside of it.
  have hInner : ∀ i, o < i → i < t'.size → (t'.get i).kind ≠ .directive → t'.Inside i o := by
    intro i hoi hi hKind
    by_cases hOld : i < t.size
    · rw [hAdds.kind i hOld] at hKind
      exact hMono (h.opened o List.mem_cons_self i hoi hOld hKind)
    · exact (hNew i (hAdds.new i (Nat.le_of_not_lt hOld) hi hKind)).1
  refine ⟨?_, ?_⟩
  · intro b hb i hbi hi hKind
    rcases List.mem_cons.mp hb with rfl | hb
    · exact hInner i hbi hi hKind
    · by_cases hOld : i < t.size
      · rw [hAdds.kind i hOld] at hKind
        exact hMono (h.opened b (List.mem_cons_of_mem o hb) i hbi hOld hKind)
      · have hoi : o < i := Nat.lt_of_lt_of_le (hLt o List.mem_cons_self) (Nat.le_of_not_lt hOld)
        exact (hInner i hoi hi hKind).trans (hMono (hStack.inside b hb))
  · intro y a i hParent hDirective hParameter hai hiy hKind
    have hyLt := lt_size_of_parent hParent
    change (t'.get y).parent = some a at hParent
    by_cases hOld : y < t.size
    · have hi := Nat.lt_trans hiy hOld
      rw [hAdds.parent y hOld] at hParent
      rw [hAdds.kind y hOld] at hDirective hParameter
      rw [hAdds.kind i hi] at hKind
      exact hMono (h.between y a i hParent hDirective hParameter hai hiy hKind)
    · have hFresh := hAdds.new y (Nat.le_of_not_lt hOld) hyLt hDirective
      rw [(hNew y hFresh).2 a hParent hParameter] at hai ⊢
      exact hInner i hai (Nat.lt_trans hiy hyLt) hKind

theorem Ordered.grow (h : Ordered ⟨t, o :: os, false⟩) (hSound : Sound ⟨t, o :: os, false⟩)
    (hGrown : Grown o t t') : Ordered ⟨t', o :: os, false⟩ := by
  refine h.adds hSound hGrown.adds fun i hFresh => ?_
  rcases hFresh.place with ⟨hParent, -⟩ | ⟨hParameter, q, hq, hPlace, -⟩
  · refine ⟨.single hParent, fun p hp _ => ?_⟩
    rw [hParent] at hp
    exact (Option.some.inj hp).symm
  · exact ⟨.head hq (.single hPlace), fun _ _ hNot => absurd hParameter hNot⟩

theorem Ordered.enter {id : EntityId} (h : Ordered ⟨t, o :: os, false⟩)
    (hSound : Sound ⟨t, o :: os, false⟩) (hEntered : Entered o id t t') :
    Ordered ⟨t', id :: o :: os, false⟩ := by
  have hOuter : Ordered ⟨t', o :: os, false⟩ := by
    refine h.adds hSound hEntered.adds ?_
    rintro i rfl
    refine ⟨.single hEntered.parent, fun p hp _ => ?_⟩
    rw [hEntered.parent] at hp
    exact (Option.some.inj hp).symm
  refine ⟨?_, hOuter.between⟩
  intro b hb i hbi hi hKind
  rcases List.mem_cons.mp hb with rfl | hb
  · -- Nothing but directives was read since.
    have hNew := Nat.le_trans hEntered.new (Nat.le_of_lt hbi)
    exact absurd (hEntered.adds.new i hNew hi hKind).symm (Nat.ne_of_lt hbi)
  · exact hOuter.opened b hb i hbi hi hKind

theorem Ordered.advance (h : σ.Ordered) (hSound : σ.Sound) (hAdvance : Advance σ σ') :
    σ'.Ordered := by
  cases hAdvance with
  | grow hGrown => exact h.grow hSound hGrown
  | enter hEntered => exact h.enter hSound hEntered
  | @evaluate id o os closing s s' hRun =>
    have hOutline := (Parsing.asks_evaluateDeclaration.1 _ _ _ _ hRun).2.outline
    have hMono : ∀ {i a}, s.tree.Inside i a → s'.tree.Inside i a := fun hInside =>
      hInside.mono fun i _ => parent_congr hOutline i
    refine ⟨?_, ?_⟩
    · intro b hb i hbi hi hKind
      rw [kind_congr hOutline] at hKind
      rw [size_congr hOutline] at hi
      exact hMono (h.opened b hb i hbi hi hKind)
    · intro y a i hParent hDirective hParameter hai hiy hKind
      rw [parent_congr hOutline] at hParent
      rw [kind_congr hOutline] at hDirective hParameter hKind
      exact hMono (h.between y a i hParent hDirective hParameter hai hiy hKind)
  | close =>
    exact ⟨fun b hb => h.opened b (List.mem_cons_of_mem _ hb), h.between⟩

theorem Ordered.of_advances (caseSensitive : Bool) (hAdvances : Advances (start caseSensitive) σ) :
    σ.Ordered := by
  induction hAdvances with
  | refl => exact ordered_start caseSensitive
  | tail hBefore hLast ih =>
    exact ih.advance ((sound_start caseSensitive).advances hBefore) hLast

end Stage

end IdlReader
