import IdlReader.Proofs.Grammar.Stage

/-!
# What declarations of a kind have

A declaration has only what the grammar gives to its kind: a direction if it is a parameter,
exceptions if it is an operation, and either one label or the mark of the default if it is a case.
While a case is being read its label is still to come. Modules stand in modules or in the root, and
nothing but cases stands in unions.

* `Suited.introduces`: a declaration that is added.
* `Suited.modify`: a declaration that is completed.
* `Fits`: what keeps declarations as their kinds have them, such as every note and every evaluation.
-/

namespace IdlReader

/-- Whether a declaration has only what declarations of a kind may have. -/
structure Declaration.Suits (kind : EntityKind) (d : Declaration) : Prop where
  readonly : kind ≠ .attr → (d.readonly = true ↔ kind = .const)
  direction : d.direction.isSome = true ↔ kind = .parameter
  dimensions : kind.supportsArrays = false → d.dimensions = []
  raises : kind ≠ .operation → d.raises = []
  labels : kind ≠ .caseEntry → d.labels = [] ∧ d.defaultCase = false

/-- Whether a case has one label or is the default. -/
def Declaration.Labelled (d : Declaration) : Prop :=
  d.labels = [] ∧ d.defaultCase = true ∨ ∃ ts, d.labels = [ts] ∧ d.defaultCase = false

theorem Declaration.Suits.of_outline {kind : EntityKind} {d d' : Declaration} (h : d.Suits kind)
    (hOutline : d'.outline = d.outline) : d'.Suits kind where
  readonly := by
    rw [show d'.readonly = d.readonly from congrArg (·.readonly) hOutline]
    exact h.readonly
  direction := by
    rw [show d'.direction = d.direction from congrArg (·.direction) hOutline]
    exact h.direction
  dimensions := by
    rw [show d'.dimensions = d.dimensions from congrArg (·.dimensions) hOutline]
    exact h.dimensions
  raises := by
    rw [show d'.raises = d.raises from congrArg (·.raises) hOutline]
    exact h.raises
  labels := by
    rw [show d'.labels = d.labels from congrArg (·.labels) hOutline,
      show d'.defaultCase = d.defaultCase from congrArg (·.defaultCase) hOutline]
    exact h.labels

/-- Whether an entity of a kind may stand in one of another kind. -/
structure EntityKind.StandsIn (kind owner : EntityKind) : Prop where
  module : kind = .module → owner = .root ∨ owner = .module
  union : owner = .union → kind = .caseEntry ∨ kind = .directive

theorem EntityKind.standsIn_of_ne {kind owner : EntityKind} (hModule : kind ≠ .module)
    (hUnion : owner ≠ .union) : kind.StandsIn owner :=
  ⟨fun h => absurd h hModule, fun h => absurd h hUnion⟩

theorem EntityKind.standsIn_caseEntry (owner : EntityKind) : EntityKind.caseEntry.StandsIn owner :=
  ⟨nofun, fun _ => Or.inl rfl⟩

theorem EntityKind.standsIn_of_admits {kind owner : EntityKind}
    (h : owner.admits (.definition kind) = true) : kind.StandsIn owner := by
  refine ⟨?_, ?_⟩
  · rintro rfl
    cases owner <;> first | exact Or.inl rfl | exact Or.inr rfl | cases h
  · rintro rfl
    cases h

namespace Tree

variable {t t' : Tree} {w w' : Option EntityId} {i id : EntityId}

/-- Whether an entity is a parameter of an operation. -/
def ParameterOf (t : Tree) (operation p : EntityId) : Prop :=
  (t.get p).parent = some operation ∧ (t.get p).kind = .parameter

/-- Whether all declarations of a tree suit their kinds. The label of the case `w` is still to
come. -/
structure Suited (t : Tree) (w : Option EntityId) : Prop where
  suits : ∀ i d, (t.get i).declaration? = some d → d.Suits (t.get i).kind
  labelled : ∀ i d, (t.get i).declaration? = some d → (t.get i).kind = .caseEntry →
    w ≠ some i → d.Labelled
  waiting : ∀ i d, (t.get i).declaration? = some d → (t.get i).kind = .caseEntry →
    w = some i → d.labels = []
  parameters : ∀ i, ∀ p ∈ t.parameters i, t.ParameterOf i p
  stands : ∀ i p, (t.get i).parent = some p → p < t.size ∧
    (t.get i).kind.StandsIn (t.get p).kind

theorem ParameterOf.extends {p : EntityId} (h : t.ParameterOf i p) (hExtends : t.Extends t') :
    t'.ParameterOf i p := by
  have hLt := lt_size_of_parent h.1
  exact ⟨(hExtends.parent p hLt).trans h.1, (hExtends.kind p hLt).trans h.2⟩

theorem parameters_of_declaration? {d : Declaration} (h : (t.get i).declaration? = some d) :
    t.parameters i = d.parameters := by
  rw [parameters, h]
  rfl

theorem exists_declaration?_of_mem_parameters {p : EntityId} (h : p ∈ t.parameters i) :
    ∃ d, (t.get i).declaration? = some d ∧ p ∈ d.parameters := by
  unfold parameters at h
  cases hd : (t.get i).declaration? with
  | none =>
    rw [hd] at h
    cases h
  | some d =>
    rw [hd] at h
    exact ⟨d, rfl, h⟩

theorem suited_initial (caseSensitive : Bool) : (initial caseSensitive).Suited none := by
  have hNone : ∀ i, ((initial caseSensitive).get i).declaration? = none := by
    intro i
    by_cases hi : i < (initial caseSensitive).size
    · rw [Nat.lt_one_iff.mp hi]
      rfl
    · exact declaration?_of_le hi
  have hNot : ∀ i d, ((initial caseSensitive).get i).declaration? ≠ some d := by
    intro i d hd
    rw [hNone] at hd
    cases hd
  refine ⟨fun i d hd => absurd hd (hNot i d), fun i d hd => absurd hd (hNot i d),
    fun i d hd => absurd hd (hNot i d), fun i p hp => ?_, fun i p hp => ?_⟩
  · obtain ⟨d, hd, -⟩ := exists_declaration?_of_mem_parameters hp
    exact absurd hd (hNot i d)
  · rw [Nat.lt_one_iff.mp (lt_size_of_parent hp)] at hp
    cases hp

/-- Only cases wait for labels. -/
theorem suited_iff (hKind : (t.get id).kind ≠ .caseEntry) : t.Suited (some id) ↔ t.Suited none := by
  have hNot : ∀ i, (t.get i).kind = .caseEntry → some id ≠ some i := by
    intro i hCase hId
    rw [Option.some.inj hId] at hKind
    exact hKind hCase
  constructor
  · intro h
    exact ⟨h.suits, fun i d hd hCase _ => h.labelled i d hd hCase (hNot i hCase),
      fun i _ _ _ hNone => absurd hNone.symm (Option.some_ne_none i), h.parameters, h.stands⟩
  · intro h
    exact ⟨h.suits, fun i d hd hCase _ => h.labelled i d hd hCase (Option.some_ne_none i).symm,
      fun i d _ hCase hId => absurd hId (hNot i hCase), h.parameters, h.stands⟩

namespace Suited

/-- Entities keep their places when others come to them. -/
theorem stands_of_new (h : t.Suited w) (hSize : t.size ≤ t'.size)
    (hKind : ∀ i < t.size, (t'.get i).kind = (t.get i).kind)
    (hParent : ∀ i < t.size, (t'.get i).parent = (t.get i).parent)
    (hNew : ∀ i p, t.size ≤ i → (t'.get i).parent = some p → p < t'.size ∧
      (t'.get i).kind.StandsIn (t'.get p).kind) {i p : EntityId}
    (hp : (t'.get i).parent = some p) : p < t'.size ∧ (t'.get i).kind.StandsIn (t'.get p).kind := by
  by_cases hi : i < t.size
  · rw [hParent i hi] at hp
    obtain ⟨hLt, hStands⟩ := h.stands i p hp
    rw [hKind i hi, hKind p hLt]
    exact ⟨Nat.lt_of_lt_of_le hLt hSize, hStands⟩
  · exact hNew i p (Nat.le_of_not_lt hi) hp

/-- A tree with the same declarations. -/
theorem congr (h : t.Suited w) (hDeclaration : ∀ i, (t'.get i).declaration? = (t.get i).declaration?)
    (hSize : t.size ≤ t'.size) (hKind : ∀ i < t.size, (t'.get i).kind = (t.get i).kind)
    (hParent : ∀ i < t.size, (t'.get i).parent = (t.get i).parent)
    (hNew : ∀ i p, t.size ≤ i → (t'.get i).parent = some p → p < t'.size ∧
      (t'.get i).kind.StandsIn (t'.get p).kind) : t'.Suited w := by
  have hSame : ∀ i d, (t'.get i).declaration? = some d →
      (t.get i).declaration? = some d ∧ (t'.get i).kind = (t.get i).kind := by
    intro i d hd
    rw [hDeclaration] at hd
    exact ⟨hd, hKind i (lt_of_declaration? hd)⟩
  refine ⟨fun i d hd => ?_, fun i d hd hCase => ?_, fun i d hd hCase => ?_, fun i p hp => ?_,
    fun i p => h.stands_of_new hSize hKind hParent hNew⟩
  · rw [(hSame i d hd).2]
    exact h.suits i d (hSame i d hd).1
  · rw [(hSame i d hd).2] at hCase
    exact h.labelled i d (hSame i d hd).1 hCase
  · rw [(hSame i d hd).2] at hCase
    exact h.waiting i d (hSame i d hd).1 hCase
  · unfold Tree.parameters at hp
    rw [hDeclaration] at hp
    obtain ⟨hUp, hParameter⟩ := h.parameters i p hp
    have hLt := lt_size_of_parent hUp
    exact ⟨(hParent p hLt).trans hUp, (hKind p hLt).trans hParameter⟩

theorem modify_of_alike (h : t.Suited w) {f : Entity → Entity} (hf : ∀ e, Entity.Alike e (f e))
    (hDeclaration : ∀ e, (f e).declaration? = e.declaration?) (id : EntityId) :
    (t.modify id f).Suited w := by
  refine h.congr (get_modify_congr Entity.declaration? hDeclaration)
    (Nat.le_of_eq (size_modify _ _ _).symm) (fun i _ => (alike_modify hf i).kind)
    (fun i _ => (alike_modify hf i).parent) fun i p hi hp => ?_
  have hLt := lt_size_of_parent hp
  rw [size_modify] at hLt
  exact absurd hi (Nat.not_le_of_lt hLt)

theorem note (h : t.Suited w) (hNote : Note t t') : t'.Suited w := by
  cases hNote with
  | record hPos r =>
    have hAlike := fun i (hi : i < t.size) => alike_addRecords_singleton hPos r hi
    refine h.congr (declaration?_addRecords_singleton hPos r)
      (by rw [size_addRecords_singleton]; exact Nat.le_succ _) (fun i hi => (hAlike i hi).kind)
      (fun i hi => (hAlike i hi).parent) fun i p hi hp => ?_
    -- What is new is the record of a directive in the root.
    have hLt := lt_size_of_parent hp
    rw [size_addRecords_singleton] at hLt ⊢
    have hNew := get_addRecords_singleton_size hPos r
    rw [Nat.le_antisymm (Nat.le_of_lt_succ hLt) hi] at hp ⊢
    rw [hNew.parent] at hp
    cases hp
    rw [hNew.kind]
    exact ⟨Nat.zero_lt_succ _, nofun, fun _ => Or.inr rfl⟩
  | annotate hf =>
    refine h.modify_of_alike (fun e => (hf e).alike) (fun e => ?_) _
    rw [hf e]
    rfl

theorem noted (h : t.Suited w) (hNoted : Noted t t') : t'.Suited w := by
  induction hNoted with
  | refl => exact h
  | tail _ hNote ih => exact ih.note hNote

/-- Trees of one outline. -/
theorem of_outline (h : t.Suited w) (hOutline : t'.outline = t.outline) : t'.Suited w := by
  have hKind : ∀ i, (t'.get i).kind = (t.get i).kind := kind_congr hOutline
  refine ⟨fun i d' hd' => ?_, fun i d' hd' hCase hNot => ?_, fun i d' hd' hCase hId => ?_,
    fun i p hp => ?_, fun i p hp => ?_⟩
  · obtain ⟨d, hd, hSame⟩ := declaration?_congr hOutline hd'
    rw [hKind]
    exact (h.suits i d hd).of_outline hSame
  · obtain ⟨d, hd, hSame⟩ := declaration?_congr hOutline hd'
    have hLabels : d'.labels = d.labels := congrArg (·.labels) hSame
    have hDefault : d'.defaultCase = d.defaultCase := congrArg (·.defaultCase) hSame
    rw [Declaration.Labelled, hLabels, hDefault]
    exact h.labelled i d hd ((hKind i).symm.trans hCase) hNot
  · obtain ⟨d, hd, hSame⟩ := declaration?_congr hOutline hd'
    rw [show d'.labels = d.labels from congrArg (·.labels) hSame]
    exact h.waiting i d hd ((hKind i).symm.trans hCase) hId
  · rw [parameters_congr hOutline] at hp
    rw [ParameterOf, parent_congr hOutline, hKind]
    exact h.parameters i p hp
  · rw [parent_congr hOutline] at hp
    rw [hKind, hKind, size_congr hOutline]
    exact h.stands i p hp

/-- A tree to which what is no declaration was added. -/
theorem adds {p : EntityId → Prop} (h : t.Suited w) (hAdds : Adds t t' p)
    (hNew : ∀ i, t.size ≤ i → (t'.get i).declaration? = none)
    (hStands : ∀ i p, t.size ≤ i → (t'.get i).parent = some p → p < t'.size ∧
      (t'.get i).kind.StandsIn (t'.get p).kind) : t'.Suited w := by
  refine h.congr (fun i => ?_) hAdds.size hAdds.kind hAdds.parent hStands
  by_cases hi : i < t.size
  · exact hAdds.declaration? i hi
  · rw [hNew i (Nat.le_of_not_lt hi), declaration?_of_le hi]

/-- A declaration that is added has no parameters and no labels yet. -/
theorem introduces {owner : EntityId} {kind : EntityKind} {d : Declaration} (h : t.Suited none)
    (hIntroduces : Introduces t t' owner id kind) (hd : (t'.get id).declaration? = some d)
    (hSuits : d.Suits kind) (hLabels : d.labels = []) (hParameters : d.parameters = [])
    (hReachable : t'.Reachable) (hOwner : owner < t.size)
    (hStands : kind.StandsIn (t.get owner).kind) : t'.Suited (some id) := by
  have hOld : ∀ i e, i ≠ id → (t'.get i).declaration? = some e →
      (t.get i).declaration? = some e ∧ (t'.get i).kind = (t.get i).kind := by
    intro i e hNe he
    have hLt : i < t.size := by
      refine Nat.lt_of_not_le fun hLe => hNe (hIntroduces.adds.new i hLe (lt_of_declaration? he) ?_)
      intro hDirective
      have hSome := hReachable.isDeclaration (lt_of_declaration? he)
      rw [hDirective, he] at hSome
      cases hSome
    rw [hIntroduces.adds.declaration? i hLt] at he
    exact ⟨he, hIntroduces.adds.kind i hLt⟩
  have hStandsNew : ∀ i p, t.size ≤ i → (t'.get i).parent = some p → p < t'.size ∧
      (t'.get i).kind.StandsIn (t'.get p).kind := by
    intro i p hi hp
    have hLt := lt_size_of_parent hp
    refine ⟨(wellFormed_of_reachable hReachable).toFramed.parent_lt_size hLt hp, ?_⟩
    by_cases hDirective : (t'.get i).kind = .directive
    · rw [hDirective]
      exact ⟨nofun, fun _ => Or.inr rfl⟩
    · rw [hIntroduces.adds.new i hi hLt hDirective, hIntroduces.parent] at hp
      cases hp
      rw [hIntroduces.adds.new i hi hLt hDirective, hIntroduces.kind,
        hIntroduces.adds.kind owner hOwner]
      exact hStands
  refine ⟨fun i e he => ?_, fun i e he hCase hNot => ?_, fun i e he _ hId => ?_, fun i p hp => ?_,
    fun i p => h.stands_of_new hIntroduces.adds.size hIntroduces.adds.kind hIntroduces.adds.parent
      hStandsNew⟩
  · by_cases hi : i = id
    · rw [hi] at he ⊢
      cases hd.symm.trans he
      rw [hIntroduces.kind]
      exact hSuits
    · rw [(hOld i e hi he).2]
      exact h.suits i e (hOld i e hi he).1
  · have hi : i ≠ id := fun hEq => hNot (congrArg some hEq.symm)
    rw [(hOld i e hi he).2] at hCase
    exact h.labelled i e (hOld i e hi he).1 hCase (Option.some_ne_none i).symm
  · rw [← Option.some.inj hId] at he
    cases hd.symm.trans he
    exact hLabels
  · obtain ⟨e, he, hMem⟩ := exists_declaration?_of_mem_parameters hp
    by_cases hi : i = id
    · rw [hi] at he
      cases hd.symm.trans he
      rw [hParameters] at hMem
      cases hMem
    · rw [← parameters_of_declaration? (hOld i e hi he).1] at hMem
      obtain ⟨hUp, hKind⟩ := h.parameters i p hMem
      have hLt := lt_size_of_parent hUp
      exact ⟨(hIntroduces.adds.parent p hLt).trans hUp,
        (hIntroduces.adds.kind p hLt).trans hKind⟩

/-- A declaration that is completed. -/
theorem modify {f : Declaration → Declaration} (h : t.Suited w)
    (hSuits : ∀ d, d.Suits (t.get id).kind → (f d).Suits (t.get id).kind)
    (hLabelled : ∀ d, (t.get id).kind = .caseEntry → (w ≠ some id → d.Labelled) →
      (w = some id → d.labels = []) →
      (w' ≠ some id → (f d).Labelled) ∧ (w' = some id → (f d).labels = []))
    (hOthers : ∀ i ≠ id, w' = some i ↔ w = some i)
    (hParameters : ∀ d, ∀ p ∈ (f d).parameters, p ∈ d.parameters ∨ t.ParameterOf id p) :
    (t.modify id (Entity.mapDeclaration f)).Suited w' := by
  have hAlike : ∀ i, Entity.Alike (t.get i) ((t.modify id (Entity.mapDeclaration f)).get i) :=
    alike_modify fun e => Entity.alike_mapDeclaration _ e
  have hDeclaration : ∀ i d,
      ((t.modify id (Entity.mapDeclaration f)).get i).declaration? = some d →
        (i = id ∧ ∃ e, (t.get id).declaration? = some e ∧ f e = d) ∨
          i ≠ id ∧ (t.get i).declaration? = some d := by
    intro i d hd
    rw [declaration?_modify] at hd
    split at hd
    · rename_i hi
      rw [hi] at hd
      obtain ⟨e, he, hEq⟩ := Option.map_eq_some_iff.mp hd
      exact Or.inl ⟨hi, e, he, hEq⟩
    · exact Or.inr ⟨‹_›, hd⟩
  refine ⟨fun i d hd => ?_, fun i d hd hCase hNot => ?_, fun i d hd hCase hId => ?_,
    fun i p hp => ?_, fun i p hp => ?_⟩
  · rw [(hAlike i).kind]
    rcases hDeclaration i d hd with ⟨rfl, e, he, rfl⟩ | ⟨-, hOld⟩
    · exact hSuits e (h.suits i e he)
    · exact h.suits i d hOld
  · rw [(hAlike i).kind] at hCase
    rcases hDeclaration i d hd with ⟨rfl, e, he, rfl⟩ | ⟨hi, hOld⟩
    · exact (hLabelled e hCase (h.labelled i e he hCase) (h.waiting i e he hCase)).1 hNot
    · exact h.labelled i d hOld hCase fun hId => hNot ((hOthers i hi).mpr hId)
  · rw [(hAlike i).kind] at hCase
    rcases hDeclaration i d hd with ⟨rfl, e, he, rfl⟩ | ⟨hi, hOld⟩
    · exact (hLabelled e hCase (h.labelled i e he hCase) (h.waiting i e he hCase)).2 hId
    · exact h.waiting i d hOld hCase ((hOthers i hi).mp hId)
  · rw [ParameterOf, (hAlike p).parent, (hAlike p).kind]
    obtain ⟨d, hd, hMem⟩ := exists_declaration?_of_mem_parameters hp
    rcases hDeclaration i d hd with ⟨rfl, e, he, rfl⟩ | ⟨-, hOld⟩
    · rcases hParameters e p hMem with hBefore | hNew
      · rw [← parameters_of_declaration? he] at hBefore
        exact h.parameters i p hBefore
      · exact hNew
    · rw [← parameters_of_declaration? hOld] at hMem
      exact h.parameters i p hMem
  · rw [(hAlike i).parent] at hp
    rw [(hAlike i).kind, (hAlike p).kind, size_modify]
    exact h.stands i p hp

end Suited

/-! ## Courses that keep it -/

/-- Whether steps keep declarations as their kinds have them, and leave names to all entities. -/
structure Fits (t t' : Tree) : Prop extends Calming t t' where
  suited : t.Suited none → t'.Suited none

/-- Whether steps keep declarations as their kinds have them, but for the label of one case, which
may be still to come. -/
def FitsBut (id : EntityId) (t t' : Tree) : Prop := t.Suited none → t'.Suited (some id)

theorem Fits.trans {t'' : Tree} (h : Fits t t') (h' : Fits t' t'') : Fits t t'' :=
  ⟨h.toCalming.trans h'.toCalming, h'.suited ∘ h.suited⟩

instance : Growth Fits where
  steps h := h.steps
  refl t := ⟨Calming.refl t, fun h => h⟩
  trans := Fits.trans
  noted h := ⟨Growth.noted h, fun hSuited => hSuited.noted h⟩

theorem Noted.fits (h : Noted t t') : Fits t t' := Growth.noted h

theorem Evaluations.fits (h : Evaluations t t') : Fits t t' :=
  ⟨⟨h.settles.steps, h.settles.quiet.calm⟩, fun hSuited => hSuited.of_outline h.settles.outline⟩

theorem FitsBut.noted {t'' : Tree} (h : FitsBut id t t') (hNoted : Noted t' t'') :
    FitsBut id t t'' := fun hSuited => (h hSuited).noted hNoted

theorem FitsBut.after {t'' : Tree} (h : FitsBut id t' t'') (hFits : Fits t t') :
    FitsBut id t t'' := fun hSuited => h (hFits.suited hSuited)

end Tree

end IdlReader
