import IdlReader.Proofs.Document.Reachable
import IdlReader.Proofs.Suited.Declarator

/-!
# Content and what kinds of declarations have

When everything was read, all declarations have what the grammar gives to their kinds.

* `fits_readStatement`: a statement with all that it declares.
* `suited_ofStream`: the tree of a document.
-/

namespace IdlReader

open IdlReader.Tree

namespace Parsing

variable {R : Tree → Tree → Prop} [Growth R] {s : Session}

/-! ## Enumerations -/

theorem fits_readEntry (hs : s.Sound) {owner : EntityId} {type : DeclaredType}
    (h : Entering s.tree owner type) :
    Grows Tree.Fits (readEntry owner type) s fun t _ => t.Lexical := by
  unfold readEntry
  refine (keeps_commentsBefore.grows hs).bind ?_
  intro comments s₁ hs₁ hR₁ _
  refine (grows_declarationName hs₁).bind ?_
  intro name s₂ hs₂ hR₂ hName
  have h₂ := (h.calming hR₁.toCalming).calming hR₂.toCalming
  refine Grows.fits (Grows.introduced hs₂ h₂.ready.ready rfl ?_ (by decide) h₂.type
    (fun _ => ⟨h₂.kind, h₂.self⟩) hName ?_ ?_ ?_)
  · exact iff_of_false (by decide) h₂.ready.kind
  · exact ⟨fun _ => iff_of_false Bool.false_ne_true (by decide),
      iff_of_false Bool.false_ne_true (by decide), fun _ => rfl, fun _ => rfl,
      fun _ => ⟨rfl, rfl⟩⟩
  · rw [h₂.kind]
    exact EntityKind.standsIn_of_ne (by decide) (by decide)
  · intro id s₃ hs₃ _ hIntroduces _ hBut
    have hNotes : ∀ (s : Session) (t : Token), s.Sound → t.Lexical →
        (s₂.tree.Suited none → s.tree.Suited none) → Grows Calming (do
          attachAfter id t.position.line
          endAt id t
          return t) s fun t s' =>
            (s₂.tree.Suited none → s'.tree.Suited none) ∧ t.Lexical := by
      intro s t hs ht hSuited
      refine ((keeps_attachAfter id t.position.line).grows hs).bind ?_
      intro _ s₁ hs₁ _ hNoted₁
      refine ((keeps_endAt id t).grows hs₁).bind ?_
      intro _ s₂ hs₂ _ hNoted₂
      exact Grows.pure hs₂ ⟨fun h => ((hSuited h).noted hNoted₁).noted hNoted₂, ht⟩
    refine ((keeps_attachBefore id comments).grows hs₃).bind ?_
    intro _ s₄ hs₄ _ hNoted₄
    refine (grows_next hs₄).noted.bind ?_
    rintro t s₅ hs₅ _ ⟨hNoted₅, ht⟩
    have hNoted : Noted s₃.tree s₅.tree := hNoted₄.trans hNoted₅
    have hKind₅ : (s₅.tree.get id).kind = .enumEntry :=
      (hNoted.adds.kind id hIntroduces.named.1).trans hIntroduces.kind
    have hNotCase : ∀ {s : Session}, Noted s₅.tree s.tree → (s.tree.get id).kind ≠ .caseEntry := by
      intro s hNoted₆
      rw [hNoted₆.adds.kind id (Nat.lt_of_lt_of_le hIntroduces.named.1 hNoted.adds.size), hKind₅]
      decide
    have hSuited₅ : s₂.tree.Suited none → s₅.tree.Suited none := fun h =>
      (suited_iff (hNotCase .refl)).mp ((hBut.noted hNoted) h)
    dsimp only
    split
    · refine (grows_readAssignment hs₅).noted.bind ?_
      rintro ⟨assignment, u⟩ s₆ hs₆ _ ⟨hNoted₆, hu⟩
      have hCompletes (d : Declaration) : Declaration.Completes d { d with assignment } := rfl
      refine (grows_complete hs₆ id hCompletes (fun _ _ hx => Or.inl hx)
        fun _ _ hx => Or.inl hx).bind ?_
      rintro _ s₇ hs₇ _ ⟨-, hTree⟩
      refine hNotes s₇ u hs₇ hu fun h => ?_
      rw [hTree]
      exact ((hSuited₅ h).noted hNoted₆).modify
        (fun d hd => ⟨hd.readonly, hd.direction, hd.dimensions, hd.raises, hd.labels⟩)
        (fun _ hCase => absurd hCase (hNotCase hNoted₆)) (fun _ _ => Iff.rfl) fun _ _ hp => Or.inl hp
    · exact hNotes s₅ t hs₅ ht hSuited₅

theorem fits_entriesWithin (n : Nat) (hs : s.Sound) {owner : EntityId} {type : DeclaredType}
    (h : Entering s.tree owner type) :
    Grows Tree.Fits (entriesWithin owner type n) s fun _ _ => True := by
  induction n generalizing s with
  | zero => exact grows_fail _
  | succ n ih =>
    unfold entriesWithin
    refine ((keeps_peek 0).grows hs).bind ?_
    intro t s₁ hs₁ hR₁ _
    split
    · exact Grows.pure hs₁ trivial
    · have h₁ := h.calming hR₁.toCalming
      refine (fits_readEntry hs₁ h₁).bind ?_
      intro u s₂ hs₂ hR₂ hu
      split
      · exact grows_putBack hs₂ hu
      · split
        · exact ih hs₂ (h₁.calming hR₂.toCalming)
        · exact grows_failAtToken _ _

theorem fits_readEnumeration (hs : s.Sound) {owner : EntityId} (hOwner : s.tree.Owner owner)
    (hKind : (s.tree.get owner).kind = .enum) (hNamed : s.tree.Named owner) :
    Grows Tree.Fits (readEnumeration owner) s fun _ _ => True := by
  have hBase : (s.tree.get owner).baseType? = some .enum := by
    unfold Entity.baseType?
    rw [hKind]
    rfl
  have hType := declarable_of_baseType? hNamed hBase (s.tree.get owner).name
  unfold readEnumeration
  refine Grows.entity (Grows.tokensLeft fun n => ?_)
  refine (fits_entriesWithin n hs ⟨hOwner, hKind, rfl, hType⟩).bind ?_
  intro _ s₁ hs₁ _ _
  refine Grows.entity ?_
  exact ((grows_checkEntries [] _ hs₁).within Evaluations.fits).mono fun _ _ _ _ _ => trivial

/-! ## Declarations -/

theorem fits_declaratorsWithin (anonymous : Bool) (n : Nat) (hs : s.Sound) {d : Declarator}
    (hd : d.Sound s.tree) (hCase : d.kind ≠ .caseEntry) (hMarked : d.Marked)
    (hUnion : (s.tree.get d.owner).kind ≠ .union) (comments : List Token) :
    Grows Tree.Fits (declaratorsWithin anonymous n d comments) s fun _ _ => True := by
  induction n generalizing s d comments with
  | zero => exact grows_fail _
  | succ n ih =>
    have hBehind : ∀ (s : Session) (t : Token), s.Sound → d.Sound s.tree →
        (s.tree.get d.owner).kind ≠ .union → Grows Tree.Fits
        (if t.is "," then
          if d.kind.supportsMultiple then do
            let name ← declarationName
            declaratorsWithin anonymous n { d with name, position := name.position } []
          else failAtToken .multipleUnsupported t
        else if t.is ";" then return
        else failAtToken .declarationUnterminated t) s fun _ _ => True := by
      intro s t hs hd hUnion
      split
      · split
        · refine (grows_declarationName hs).bind ?_
          intro name s₁ hs₁ hR₁ hName
          have hd₁ := hd.steps hR₁.steps hR₁.calm
          have hKind₁ := (hs.extends hR₁).kind d.owner hd.owner.ready.lt
          have hNext : Declarator.Sound { d with name, position := name.position } s₁.tree :=
            ⟨hd₁.owner, hd₁.kind, hd₁.member, hd₁.entry, hd₁.belongs, hd₁.type, hName⟩
          exact ih hs₁ hNext hCase hMarked (hKind₁ ▸ hUnion) []
        · exact grows_failAtToken _ _
      · split
        · exact Grows.pure hs trivial
        · exact grows_failAtToken _ _
    have hDeclarator : Grows Tree.Fits (readDeclarator d comments) s fun _ _ => True := by
      have hModule : d.kind ≠ .module := by
        intro hModule
        have hKind := hd.kind
        rw [hModule] at hKind
        cases hKind
      refine Grows.fits ((fitsBut_readDeclarator hs hd hMarked
        (EntityKind.standsIn_of_ne hModule hUnion) comments).mono ?_)
      rintro r s' _ _ ⟨hKind, hBut⟩
      exact ⟨fun h => (suited_iff (hKind ▸ hCase)).mp (hBut h), trivial⟩
    have hAnnotates (e : Entity) : Entity.Annotates e { e with anonymous := true } := rfl
    unfold declaratorsWithin
    refine hDeclarator.bind ?_
    rintro ⟨id, t⟩ s₁ hs₁ hR₁ -
    have hd₁ := hd.steps hR₁.steps hR₁.calm
    have hKind₁ := (hs.extends hR₁).kind d.owner hd.owner.ready.lt
    dsimp only
    split
    · refine ((keeps_annotate hAnnotates).grows hs₁).bind ?_
      intro _ s₂ hs₂ hR₂ _
      have hKind₂ := (hs₁.extends hR₂).kind d.owner hd₁.owner.ready.lt
      exact hBehind s₂ t hs₂ (hd₁.steps hR₂.steps hR₂.calm) ((hKind₂.trans hKind₁) ▸ hUnion)
    · exact hBehind s₁ t hs₁ hd₁ (hKind₁ ▸ hUnion)

/-- Whether what is declared as constant is not declared as a type too, and neither of them in a
union. -/
structure Modifiers.Single (owner : EntityKind) (m : Modifiers) : Prop where
  type : m.const = true → m.typedef = false
  union : owner = .union → m.const = false ∧ m.typedef = false

namespace Statement

variable {st : Statement}

theorem fits_readDeclarators (hs : s.Sound) (h : st.Sound s.tree) {kind : EntityKind}
    (hKind : Declares kind)
    (hMarked : kind ≠ .attr → ((st.modifiers.const || st.modifiers.readonly) = true ↔ kind = .const))
    (hUnion : st.ownerKind ≠ .union) {type : DeclaredType} (hType : s.tree.Declarable type) {name : Token}
    (hName : IsName name.text) (anonymous : Bool) :
    Grows Tree.Fits (st.readDeclarators kind type name anonymous) s fun _ _ => True := by
  obtain ⟨hDeclaration, hNotParameter, hNotCase, hNotEntry⟩ := hKind
  have hBelongs : kind.Belongs (s.tree.get st.owner).kind := by
    rw [h.kind]
    exact ⟨fun hCase => absurd hCase hNotCase, fun hEntry => absurd hEntry hNotEntry,
      fun hEnum => absurd hEnum h.content⟩
  unfold readDeclarators
  refine Grows.tokensLeft fun n => ?_
  exact fits_declaratorsWithin anonymous (n + 1) hs
    ⟨h.owner, hDeclaration, hNotParameter, hNotEntry, hBelongs, hType, hName⟩ hNotCase (hMarked ·)
    (h.kind ▸ hUnion) _

/-- Without a modifier for attributes, constants and nothing else are readonly, and unions have no
declarations of this sort. -/
theorem marked_declarationKind (hs : s.Sound) (hSingle : st.modifiers.Single st.ownerKind)
    (hReadonly : st.modifiers.readonly = false) (defines : Bool) (name : Token) :
    Grows R (st.declarationKind defines name) s fun kind _ =>
      ((st.modifiers.const || st.modifiers.readonly) = true ↔ kind = .const) ∧
        st.ownerKind ≠ .union := by
  rw [hReadonly, Bool.or_false]
  have hNot {kind : EntityKind} (hConst : st.modifiers.const = false) (hKind : kind ≠ .const) :
      st.modifiers.const = true ↔ kind = .const :=
    iff_of_false (Bool.eq_false_iff.mp hConst) hKind
  unfold declarationKind
  refine ((keeps_peek 0).grows hs).bind ?_
  intro t s₁ hs₁ _ _
  split
  · split
    · exact grows_failAtToken _ _
    · rename_i hPlain
      rw [Bool.not_eq_true, Bool.or_eq_false_iff, Bool.or_eq_false_iff, Bool.or_eq_false_iff]
        at hPlain
      refine Grows.pure hs₁ ⟨hNot hPlain.1.1.2 (by decide), fun hUnion => ?_⟩
      rw [hUnion] at hPlain
      exact absurd hPlain.2 (by decide)
  · split
    · rename_i hTypedef
      refine Grows.pure hs₁ ⟨hNot (Bool.eq_false_iff.mpr fun hConst => ?_) (by decide),
        fun hUnion => ?_⟩
      · rw [hSingle.type hConst] at hTypedef
        cases hTypedef
      · rw [(hSingle.union hUnion).2] at hTypedef
        cases hTypedef
    · split
      · rename_i hConst
        refine Grows.pure hs₁ ⟨iff_of_true hConst rfl, fun hUnion => ?_⟩
        rw [(hSingle.union hUnion).1] at hConst
        cases hConst
      · rename_i hConst
        split
        · rename_i hAdmits
          refine Grows.pure hs₁ ⟨hNot (Bool.eq_false_iff.mpr hConst) (by decide), fun hUnion => ?_⟩
          rw [hUnion] at hAdmits
          cases hAdmits
        · exact grows_failAtToken _ _

theorem fits_readAttributes (hs : s.Sound) (h : st.Sound s.tree) (hUnion : st.ownerKind ≠ .union) :
    Grows Tree.Fits st.readAttributes s fun _ _ => True := by
  unfold readAttributes
  refine (grows_readType hs st.owner).bind ?_
  intro type s₁ hs₁ hR₁ hType
  refine (grows_declarationName hs₁).bind ?_
  intro name s₂ hs₂ hR₂ hName
  have hR := hR₁.trans hR₂
  exact fits_readDeclarators hs₂ (h.steps hR.steps hR.calm) (by decide)
    (fun hNot => absurd rfl hNot) hUnion (hs₁.declarable hR₂ hType) hName false

theorem fits_readDeclarations (hs : s.Sound) (h : st.Sound s.tree)
    (hSingle : st.modifiers.Single st.ownerKind) (hReadonly : st.modifiers.readonly = false)
    {type : DeclaredType} (hType : s.tree.Declarable type) (defines anonymous : Bool) :
    Grows Tree.Fits (st.readDeclarations type defines anonymous) s fun _ _ => True := by
  unfold readDeclarations
  refine (grows_declarationName hs).bind ?_
  intro name s₁ hs₁ hR₁ hName
  refine ((grows_declarationKind hs₁ defines name).and
    (marked_declarationKind (R := Tree.Fits) hs₁ hSingle hReadonly defines name)).bind ?_
  rintro kind s₂ hs₂ hR₂ ⟨hKind, hMarked, hUnion⟩
  have hR := hR₁.trans hR₂
  exact fits_readDeclarators hs₂ (h.steps hR.steps hR.calm) hKind (fun _ => hMarked) hUnion
    (hs.declarable hR hType) hName anonymous

theorem fits_readMember (hs : s.Sound) (h : st.Sound s.tree)
    (hSingle : st.modifiers.Single st.ownerKind) {t : Token} (ht : t.Lexical) :
    Grows Tree.Fits (st.readMember t) s fun _ _ => True := by
  unfold readMember
  dsimp only
  split
  · exact grows_failAtToken _ _
  · split
    · exact grows_failAtToken _ _
    · rename_i hNotReadonly
      split
      · split
        · exact grows_failAtToken _ _
        · rename_i hAdmits
          refine fits_readCase hs h.owner ?_ t st.comments
          rw [h.kind]
          rw [Bool.not_eq_true, Bool.or_eq_false_iff, Bool.not_eq_false'] at hAdmits
          exact union_of_admits_case hAdmits.2
      · split
        · split
          · exact grows_failAtToken _ _
          · rename_i hAdmits
            refine fits_readAttributes hs h fun hUnion => hAdmits ?_
            rw [hUnion]
            exact Bool.or_true _
        · rename_i hAttribute
          have hReadonly : st.modifiers.readonly = false := by simpa [hAttribute] using hNotReadonly
          refine (grows_putBack hs ht).bind ?_
          intro _ s₁ hs₁ hR₁ _
          refine (grows_readType hs₁ st.owner).bind ?_
          intro type s₂ hs₂ hR₂ hType
          have hR := hR₁.trans hR₂
          exact fits_readDeclarations hs₂ (h.steps hR.steps hR.calm) hSingle hReadonly hType false
            false

/-! ## Statements with definitions -/

theorem fits_finishDefinition (hs : s.Sound) (h : st.Sound s.tree)
    (hSingle : st.modifiers.Single st.ownerKind) {id : EntityId} (hNamed : s.tree.Named id)
    {t : Token} (ht : t.Lexical) :
    Grows Tree.Fits (st.finishDefinition id t) s fun _ _ => True := by
  unfold finishDefinition
  dsimp only
  split
  · exact grows_failAtToken_bind _ _
  · rename_i hDeclares
    have hReadonly : st.modifiers.readonly = false := by
      unfold Modifiers.declares at hDeclares
      rw [Bool.not_eq_true, Bool.or_eq_false_iff, Bool.or_eq_false_iff] at hDeclares
      exact hDeclares.1.2
    refine ((keeps_endAt id t).grows hs).bind ?_
    intro _ s₁ hs₁ hR₁ _
    refine Grows.entity ?_
    split
    · exact Grows.pure hs₁ trivial
    · split
      · exact grows_failAtToken _ _
      · refine (grows_putBack hs₁ ht).bind ?_
        intro _ s₂ hs₂ hR₂ _
        refine (grows_generateName hs₂ (by decide)).bind ?_
        intro name s₃ hs₃ hR₃ hName
        have hR := hR₁.trans (hR₂.trans hR₃)
        refine (grows_definedType hs₃ ((hs.extends hR).named hNamed) t).bind ?_
        intro type s₄ hs₄ hR₄ hType
        refine (grows_putBack hs₄ fun _ => hName).bind ?_
        intro _ s₅ hs₅ hR₅ _
        have hR₀₅ := hR.trans (hR₄.trans hR₅)
        exact fits_readDeclarations hs₅ (h.steps hR₀₅.steps hR₀₅.calm) hSingle hReadonly
          (hs₄.declarable hR₅ hType) true true

theorem fits_readBehindDefinition (hs : s.Sound) (h : st.Sound s.tree)
    (hSingle : st.modifiers.Single st.ownerKind) {id : EntityId} (hNamed : s.tree.Named id)
    {t : Token} (ht : t.Lexical) : Grows Tree.Fits (st.readBehindDefinition id t) s fun _ _ => True := by
  unfold readBehindDefinition
  dsimp only
  split
  · exact fits_finishDefinition hs h hSingle hNamed ht
  · split
    · exact grows_failAtToken _ _
    · split
      · exact grows_failAtToken _ _
      · rename_i hNotReadonly
        split
        · exact grows_failAtToken _ _
        · rename_i hNotMember
          have hAttribute : t.is "attribute" = false := by
            simp only [Token.isOneOf, List.any_cons, List.any_nil, Bool.or_eq_true, not_or] at hNotMember
            simpa using hNotMember.2.2.1
          have hReadonly : st.modifiers.readonly = false := by simpa [hAttribute] using hNotReadonly
          refine (grows_putBack hs ht).bind ?_
          intro _ s₁ hs₁ hR₁ _
          refine (grows_definedType hs₁ ((hs.extends hR₁).named hNamed) t).bind ?_
          intro type s₂ hs₂ hR₂ hType
          have hR := hR₁.trans hR₂
          exact fits_readDeclarations hs₂ (h.steps hR.steps hR.calm) hSingle hReadonly hType true
            false

theorem fits_readBehind (hs : s.Sound) (h : st.Sound s.tree)
    (hSingle : st.modifiers.Single st.ownerKind) {id : EntityId} (hNamed : s.tree.Named id) :
    Grows Tree.Fits (st.readBehind id) s fun _ _ => True := by
  unfold readBehind
  refine (grows_next hs).bind ?_
  intro u s₁ hs₁ hR₁ hu
  refine ((keeps_attachAfter id u.position.line).grows hs₁).bind ?_
  intro _ s₂ hs₂ hR₂ _
  have hR := hR₁.trans hR₂
  exact fits_readBehindDefinition hs₂ (h.steps hR.steps hR.calm).behind hSingle
    ((hs.extends hR).named hNamed) hu

end Statement

/-! ## Definitions -/

/-- The head of a definition declares nothing. -/
theorem fits_openDefinition (hs : s.Sound) {owner : EntityId} (hOwner : s.tree.Owner owner)
    (hOwnerKind : (s.tree.get owner).kind ≠ .enum) {kind : EntityKind}
    (hDefinition : kind.isDefinition = true) (hStands : kind.StandsIn (s.tree.get owner).kind)
    (keyword : Token) (isLocal : Bool) (comments : List Token) :
    Grows Tree.Fits (openDefinition owner kind keyword isLocal comments) s fun r s' =>
      s'.tree.Named r.1 ∧ (r.2 = false → Opened s.tree s'.tree owner r.1 kind) := by
  intro r s' hRun
  obtain ⟨hs', hSteps, hPlaces, hNamed, hEither⟩ := places_openDefinition hs hOwner hOwnerKind
    hDefinition keyword isLocal comments r s' hRun
  have hSuited (hSuited : s.tree.Suited none) : s'.tree.Suited none := by
    refine hSuited.adds hPlaces.toAdds (fun i hi => ?_) fun i p hi hp => ?_
    · cases hd : (s'.tree.get i).declaration? with
      | none => rfl
      | some d =>
        have hLt := lt_of_declaration? hd
        have hSome := hs'.reachable.isDeclaration hLt
        rw [hd] at hSome
        by_cases hDirective : (s'.tree.get i).kind = .directive
        · rw [hDirective] at hSome
          cases hSome
        · rw [(hPlaces.new i hi hLt hDirective).1,
            EntityKind.not_isDeclaration_of_isDefinition hDefinition] at hSome
          cases hSome
    · have hLt := lt_size_of_parent hp
      refine ⟨(wellFormed_of_reachable hs'.reachable).toFramed.parent_lt_size hLt hp, ?_⟩
      by_cases hDirective : (s'.tree.get i).kind = .directive
      · rw [hDirective]
        exact ⟨nofun, fun _ => Or.inr rfl⟩
      · obtain ⟨hKind, hParent⟩ := hPlaces.new i hi hLt hDirective
        rw [hParent] at hp
        cases hp
        rw [hKind, hPlaces.kind owner hOwner.ready.lt]
        exact hStands
  cases hForward : r.2 with
  | true =>
    rw [hForward, if_pos rfl] at hEither
    exact ⟨hs', ⟨⟨hSteps, hEither.calm⟩, hSuited⟩, hNamed,
      fun hNot => absurd (hForward.symm.trans hNot) (by decide)⟩
  | false =>
    rw [hForward, if_neg (by decide)] at hEither
    obtain ⟨t, hEntered, hNoted⟩ := hEither.enters
    exact ⟨hs', ⟨⟨hSteps, fun hCalm => hNoted.quiet.calm (hEntered.calm hCalm)⟩, hSuited⟩, hNamed,
      fun _ => hEither⟩

section Definitions

variable {content : EntityId → Parsing Unit}
  (hContent : ∀ (s : Session) (owner : EntityId), s.Sound → Body s.tree owner →
    Grows Tree.Fits (content owner) s fun _ _ => True)

include hContent

theorem fits_readBody (hs : s.Sound) {id : EntityId} (hOwner : s.tree.Owner id)
    {kind : EntityKind} (hNamed : s.tree.Named id) (hKind : (s.tree.get id).kind = kind) :
    Grows Tree.Fits (readBody content id kind) s fun _ _ => True := by
  unfold readBody
  dsimp only
  refine Grows.ite_bind (P := fun _ _ => True) ?_ ?_ ?_
  · intro hEnum
    exact fits_readEnumeration hs hOwner (hKind.trans hEnum) hNamed
  · intro hNot
    exact hContent s id hs ⟨hOwner, fun hEnum => hNot (hKind.symm.trans hEnum)⟩
  · intro _ s₁ hs₁ _ _
    refine (keeps_next.grows hs₁).bind ?_
    intro t s₂ hs₂ _ _
    split
    · exact grows_failAtToken_bind _ _
    · exact ((keeps_endAt id t).grows hs₂).mono fun _ _ _ _ _ => trivial

theorem fits_readDefinition (hs : s.Sound) {owner : EntityId} (hOwner : s.tree.Owner owner)
    (hOwnerKind : (s.tree.get owner).kind ≠ .enum) {kind : EntityKind}
    (hDefinition : kind.isDefinition = true) (hStands : kind.StandsIn (s.tree.get owner).kind)
    (keyword : Token) (isLocal : Bool) (comments : List Token) :
    Grows Tree.Fits (readDefinition content owner kind keyword isLocal comments) s fun id s' =>
      s'.tree.Named id := by
  rw [readDefinition_eq]
  refine (fits_openDefinition hs hOwner hOwnerKind hDefinition hStands keyword isLocal
    comments).bind ?_
  rintro ⟨id, forward⟩ s₁ hs₁ _ ⟨hNamed, hOpened⟩
  cases forward with
  | true => exact Grows.pure hs₁ hNamed
  | false =>
    have hReady := hOpened rfl
    refine (fits_readBody hContent hs₁ hReady.ready hNamed hReady.kind).bind ?_
    intro _ s₂ hs₂ hR₂ _
    exact Grows.pure hs₂ ((hs₁.extends hR₂).named hNamed)

/-! ## Statements -/

omit hContent in
theorem single_readModifiers (hs : s.Sound) (kind : EntityKind) (t : Token) :
    Grows R (readModifiers kind t) s fun x _ => x.1.Single kind := by
  have hBehind : ∀ (member : Member) (m : Modifiers),
      (kind.admits member = true → m.Single kind) → Grows R
      (if !kind.admits member then do
        let _ ← (failAtToken (.keywordUnexpected t.text) t : Parsing Unit)
        let u ← next
        return (m, u)
      else do
        let u ← next
        return (m, u)) s fun x _ => x.1.Single kind := by
    intro member m hSingle
    split
    · exact grows_failAtToken_bind _ _
    · rename_i hAdmits
      refine (keeps_next.grows hs).bind ?_
      intro u s₁ hs₁ _ _
      exact Grows.pure hs₁ (hSingle (by simpa using hAdmits))
  have hPlain : ∀ m : Modifiers, m.const = false → m.typedef = false → m.Single kind :=
    fun m hConst hTypedef => ⟨fun _ => hTypedef, fun _ => ⟨hConst, hTypedef⟩⟩
  unfold readModifiers
  dsimp only
  split
  · refine hBehind _ _ fun hAdmits => ⟨fun _ => rfl, ?_⟩
    rintro rfl
    cases hAdmits
  · split
    · exact hBehind _ _ fun _ => hPlain _ rfl rfl
    · split
      · refine hBehind _ _ fun hAdmits => ⟨fun hConst => absurd hConst Bool.false_ne_true, ?_⟩
        rintro rfl
        cases hAdmits
      · split
        · refine (hBehind _ _ fun _ => hPlain _ rfl rfl).bind ?_
          rintro ⟨m, u⟩ s₁ hs₁ _ hSingle
          dsimp only
          split
          · exact grows_failAtToken_bind _ _
          · exact Grows.pure hs₁ hSingle
        · exact Grows.pure hs (hPlain _ rfl rfl)

omit hContent in
theorem single_openStatement (hs : s.Sound) (owner : EntityId) :
    Grows R (openStatement owner) s fun r _ => r.1.modifiers.Single r.1.ownerKind := by
  unfold openStatement
  refine Grows.entity ?_
  refine (keeps_commentsBefore.grows hs).bind ?_
  intro comments s₁ hs₁ _ _
  refine (keeps_next.grows hs₁).bind ?_
  intro first s₂ hs₂ _ _
  refine (single_readModifiers hs₂ _ first).bind ?_
  rintro ⟨modifiers, t⟩ s₃ hs₃ _ hSingle
  refine (grows_definitionKind? hs₃ t).bind ?_
  intro kind? s₄ hs₄ _ _
  exact Grows.pure hs₄ hSingle

theorem fits_readStatement (hs : s.Sound) {owner : EntityId} (h : Body s.tree owner) :
    Grows Tree.Fits (readStatement content owner) s fun _ _ => True := by
  rw [readStatement_eq]
  refine ((noted_openStatement hs h).and (single_openStatement (R := Noted) hs owner)).noted.bind ?_
  rintro ⟨st, t, kind?⟩ s₁ hs₁ _ ⟨-, ⟨-, hSound, ht, hKind⟩, hSingle⟩
  dsimp only at hSound ht hKind hSingle ⊢
  cases kind? with
  | none => exact Statement.fits_readMember hs₁ hSound hSingle ht
  | some kind =>
    unfold Statement.readRest
    dsimp only
    split
    · exact grows_failAtToken _ _
    · rename_i hAdmits
      have hOwnerKind : (s₁.tree.get st.owner).kind ≠ .enum := hSound.kind ▸ hSound.content
      have hStands : kind.StandsIn (s₁.tree.get st.owner).kind := by
        rw [hSound.kind]
        exact EntityKind.standsIn_of_admits (by simpa using hAdmits)
      refine (fits_readDefinition hContent hs₁ hSound.owner hOwnerKind (hKind kind rfl) hStands t _
        _).bind ?_
      intro id s₂ hs₂ hR₂ hNamed
      exact Statement.fits_readBehind hs₂ (hSound.steps hR₂.steps hR₂.calm) hSingle hNamed

end Definitions

/-! ## Content -/

theorem fits_contentWithin (n : Nat) (hs : s.Sound) {owner : EntityId} (h : Body s.tree owner) :
    Grows Tree.Fits (contentWithin n owner) s fun _ _ => True := by
  induction n generalizing s owner with
  | zero => exact grows_fail _
  | succ n ih =>
    have hMembers : ∀ s : Session, s.Sound → Body s.tree owner →
        Grows Tree.Fits (evaluateMembers owner) s fun _ _ => True := fun s hs h =>
      ((grows_evaluateMembers hs h.kind).within Evaluations.fits).mono fun _ _ _ _ _ => trivial
    unfold contentWithin
    refine ((keeps_peek 0).grows hs).bind ?_
    intro t s₁ hs₁ hR₁ _
    have h₁ := h.steps hR₁.steps hR₁.calm
    split
    · exact hMembers s₁ hs₁ h₁
    · split
      · split
        · exact grows_failAtToken _ _
        · exact hMembers s₁ hs₁ h₁
      · refine (fits_readStatement (fun s id hs hBody => ih hs hBody) hs₁ h₁).bind ?_
        intro _ s₂ hs₂ hR₂ _
        exact ih hs₂ (h₁.steps hR₂.steps hR₂.calm)

theorem fits_readRoot (hs : s.Sound) (h : Body s.tree root) :
    Grows Tree.Fits readRoot s fun _ _ => True :=
  Grows.tokensLeft fun n => fits_contentWithin n hs h

end Parsing

namespace Document

theorem suited_ofStream (env : Environment) {stream : Stream} (h : stream.Lexical) :
    Ok (ofStream env stream) fun d => d.tree.Suited none := by
  intro d hd
  obtain ⟨s, hRun, rfl⟩ := ofStream_eq_ok.mp hd
  have hBody := body_initial (env.enables .caseSensitiveNames)
  have hFits := (Parsing.fits_readRoot (sound_session env h) hBody _ s hRun).2.1
  exact hFits.suited (suited_initial _)

/-- All declarations of a document have what their kinds have. -/
theorem suited_of_read {env : Environment} {files : FileTree} {input : Input} {d : Document}
    (h : read env files input = .ok d) : d.tree.Suited none :=
  of_read (fun _ hStream => suited_ofStream env hStream) h

end Document

end IdlReader
