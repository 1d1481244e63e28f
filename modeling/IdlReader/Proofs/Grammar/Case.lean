import IdlReader.Grammar.Case
import IdlReader.Grammar.Enumeration
import IdlReader.Proofs.Grammar.Declarator
import IdlReader.Proofs.Grammar.Stage

/-!
# Entries, cases and the tree

The entries of an enumeration become declarations below it. So do each label of a union and the
member behind the labels below the union.

* `grows_readEnumeration`: the entries of an enumeration and their values.
* `grows_readCase`: a case with all its labels.
-/

/-! ## Entries -/

namespace IdlReader

open IdlReader.Tree

namespace Parsing

variable {R : Tree → Tree → Prop} [Growth R] {s : Session}

/-- Whether the entries of an enumeration may be read. -/
structure Entering (t : Tree) (owner : EntityId) (type : DeclaredType) : Prop where
  ready : t.Owner owner
  kind : (t.get owner).kind = .enum
  self : type.definition = some owner
  type : t.Declarable type

theorem Entering.calming {t t' : Tree} {owner : EntityId} {type : DeclaredType}
    (h : Entering t owner type) (hCalming : Calming t t') : Entering t' owner type := by
  have hPos := Nat.zero_lt_of_lt h.ready.ready.lt
  have hExtends := hCalming.steps.extends hPos
  refine ⟨h.ready.extends hExtends (hCalming.calm h.ready.ready.calm), ?_, h.self,
    h.type.steps hPos hCalming.steps⟩
  exact (hExtends.kind owner h.ready.ready.lt).trans h.kind

theorem Entering.grown {t t' : Tree} {owner : EntityId} {type : DeclaredType}
    (h : Entering t owner type) (hGrown : Grown owner t t') : Entering t' owner type :=
  h.calming ⟨hGrown.steps, hGrown.calm⟩

theorem Entering.belongs {t : Tree} {owner : EntityId} {type : DeclaredType}
    (h : Entering t owner type) : EntityKind.enumEntry.Belongs (t.get owner).kind := by
  rw [h.kind]
  exact ⟨by decide, by decide⟩

theorem grows_readEntry (hs : s.Sound) {owner : EntityId} {type : DeclaredType}
    (h : Entering s.tree owner type) :
    Grows (Grown owner) (readEntry owner type) s fun t _ => t.Lexical := by
  unfold readEntry
  refine (keeps_commentsBefore.grows hs).bind ?_
  intro comments s₁ hs₁ hR₁ _
  refine (grows_declarationName hs₁).bind ?_
  intro name s₂ hs₂ hR₂ hName
  have h₂ := (h.grown hR₁).grown hR₂
  refine Grows.grown ?_
  refine Grows.declare hs₂ h₂.ready.ready rfl ?_ (by decide) h₂.type (fun _ => ⟨h₂.kind, h.self⟩) hName ?_
  · exact ⟨fun h => absurd h (by decide), fun h => absurd h h₂.ready.kind⟩
  · intro id s₃ hs₃ _ hIntroduces hPending
    have hNotes : ∀ (s : Session) (t : Token), s.Sound → t.Lexical →
        Declares s₂.tree s.tree owner id .enumEntry [] → Grows Calming (do
          attachAfter id t.position.line
          endAt id t
          return t) s fun t s' => Adds s₂.tree s'.tree (s'.tree.Fresh owner) ∧ t.Lexical := by
      intro s t hs ht hDeclares
      refine ((keeps_attachAfter id t.position.line).grows hs).bind ?_
      intro _ s₁ hs₁ _ hNoted₁
      refine ((keeps_endAt id t).grows hs₁).bind ?_
      intro _ s₂ hs₂ _ hNoted₂
      refine Grows.pure hs₂ ⟨?_, ht⟩
      exact ((hDeclares.noted hNoted₁).noted hNoted₂).fresh h₂.ready.ready.lt (by decide)
        h₂.belongs nofun
    refine ((keeps_attachBefore id comments).grows hs₃).bind ?_
    intro _ s₄ hs₄ _ hNoted₄
    refine (grows_next hs₄).noted.bind ?_
    rintro t s₅ hs₅ _ ⟨hNoted₅, ht⟩
    have hDeclares₅ : Declares s₂.tree s₅.tree owner id .enumEntry [] :=
      ((Declares.of_introduces hIntroduces hPending).noted hNoted₄).noted hNoted₅
    dsimp only
    split
    · refine (grows_readAssignment hs₅).noted.bind ?_
      rintro ⟨assignment, u⟩ s₆ hs₆ _ ⟨hNoted₆, hu⟩
      have hCompletes (d : Declaration) : Declaration.Completes d { d with assignment } := rfl
      refine (grows_complete hs₆ id hCompletes (fun _ _ hx => Or.inl hx) fun _ _ hx => Or.inl hx).bind ?_
      rintro _ s₇ hs₇ _ ⟨hStep, hTree⟩
      refine hNotes s₇ u hs₇ hu ?_
      rw [hTree] at hStep ⊢
      exact (hDeclares₅.noted hNoted₆).complete hCompletes hStep
    · exact hNotes s₅ t hs₅ ht hDeclares₅

theorem grows_entriesWithin (n : Nat) (hs : s.Sound) {owner : EntityId} {type : DeclaredType}
    (h : Entering s.tree owner type) :
    Grows (Grown owner) (entriesWithin owner type n) s fun _ _ => True := by
  induction n generalizing s with
  | zero => exact grows_fail _
  | succ n ih =>
    unfold entriesWithin
    refine ((keeps_peek 0).grows hs).bind ?_
    intro t s₁ hs₁ hR₁ _
    split
    · exact Grows.pure hs₁ trivial
    · have h₁ := h.grown hR₁
      refine (grows_readEntry hs₁ h₁).bind ?_
      intro u s₂ hs₂ hR₂ hu
      split
      · exact grows_putBack hs₂ hu
      · split
        · exact ih hs₂ (h₁.grown hR₂)
        · exact grows_failAtToken _ _

theorem grows_checkEntries (seen : List Constant) (ids : List EntityId) (hs : s.Sound) :
    Grows Evaluations (checkEntries seen ids) s fun _ s' => ∀ id ∈ ids, s'.tree.Finished id := by
  induction ids generalizing s seen with
  | nil => exact Grows.pure hs nofun
  | cons id ids ih =>
    unfold checkEntries
    refine (grows_evaluateDeclaration hs id).bind ?_
    intro _ s₁ hs₁ _ hFinished
    refine Grows.entity ?_
    split
    · exact grows_fail _
    · split
      · exact grows_failAt _ _
      · refine (ih _ hs₁).mono ?_
        intro _ s₂ _ hR₂ hAll i hi
        rcases List.mem_cons.mp hi with rfl | hi
        · exact hR₂.finished hFinished
        · exact hAll i hi

/-- The content of an enumeration is read. -/
theorem grows_readEnumeration (hs : s.Sound) {owner : EntityId} (hOwner : s.tree.Owner owner)
    (hKind : (s.tree.get owner).kind = .enum) (hNamed : s.tree.Named owner) :
    Grows Steps (readEnumeration owner) s fun _ s' => Concludes owner s.tree s'.tree := by
  have hBase : (s.tree.get owner).baseType? = some .enum := by
    unfold Entity.baseType?
    rw [hKind]
    rfl
  have hType := declarable_of_baseType? hNamed hBase (s.tree.get owner).name
  unfold readEnumeration
  refine Grows.entity (Grows.tokensLeft fun n => ?_)
  refine ((grows_entriesWithin n hs ⟨hOwner, hKind, rfl, hType⟩).within Course.steps).bind ?_
  rintro _ s₁ hs₁ hSteps₁ ⟨hGrown, -⟩
  refine Grows.entity ?_
  refine ((grows_checkEntries [] _ hs₁).within Course.steps).mono ?_
  rintro _ s₂ _ _ ⟨hEvaluations, hAll⟩
  have hOutline := hEvaluations.settles.outline
  have hKind₂ : (s₂.tree.get owner).kind = .enum := by
    rw [kind_congr hOutline, (hs.extends hGrown).kind owner hOwner.ready.lt]
    exact hKind
  refine hGrown.continues.concludes (hEvaluations.concludes ⟨fun _ c hc => ?_, ?_⟩)
  · rw [children_congr hOutline] at hc
    exact hAll c hc
  · exact fun hNot => absurd hKind₂ hNot

end Parsing

end IdlReader

/-! ## Cases -/

namespace IdlReader

open IdlReader.Tree

namespace Parsing

variable {R : Tree → Tree → Prop} [Growth R] {s : Session}

theorem keeps_labelTokens (isDefault : Bool) (n : Nat) : Keeps (labelTokens isDefault n) := by
  induction n with
  | zero => exact keeps_fail _
  | succ n ih =>
    unfold labelTokens
    refine keeps_next.bind ?_
    intro t
    split
    · exact Keeps.pure _
    · split
      · exact keeps_failAtToken _ _
      · split
        · exact keeps_failAtToken _ _
        · exact ih.bind fun _ => Keeps.pure _

theorem keeps_readLabel (label : Token) : Keeps (readLabel label) := by
  unfold readLabel
  refine keeps_tokensLeft_bind fun n => ?_
  refine (keeps_labelTokens _ n).bind ?_
  intro ts
  dsimp only
  split
  · exact keeps_failAtToken_bind _ _
  · exact Keeps.pure _

theorem keeps_followsSoon (text : String) : Keeps (followsSoon text) := by
  refine (keeps_peek 1).bind ?_
  intro t
  split
  · exact Keeps.pure _
  · exact (keeps_peek 2).bind fun _ => Keeps.pure _

theorem keeps_definesNext (t : Token) : Keeps (definesNext t) := by
  refine Keeps.bind ?_ ?_
  · split
    · exact keeps_followsSoon _
    · exact Keeps.pure _
  · intro b
    split
    · exact Keeps.pure _
    · split
      · exact keeps_followsSoon _
      · exact Keeps.pure _

/-- A case belongs to a union. -/
theorem belongs_case {t : Tree} {owner : EntityId} (h : (t.get owner).kind = .union) :
    EntityKind.caseEntry.Belongs (t.get owner).kind := by
  rw [h]
  exact ⟨fun _ => rfl, by decide⟩

/-- A label without a declaration of its own adds one without a type. -/
theorem introduces_declareLabel (hs : s.Sound) {owner : EntityId} (hOwner : s.tree.Owner owner)
    (label : Token) (comments : List Token) :
    Grows Calming (declareLabel owner label comments) s fun id s' =>
      Introduces s.tree s'.tree owner id .caseEntry ∧ s'.tree.Pending id ∧
        (s'.tree.get id).declaration? = some { type := { base := .void, text := "void" } } := by
  have hParameter : EntityKind.caseEntry = .parameter ↔ (s.tree.get owner).kind = .operation :=
    ⟨fun h => absurd h (by decide), fun h => absurd h hOwner.kind⟩
  have hDeclarable : s.tree.Declarable { base := .void, text := "void" } :=
    declarable_plain _ _ _ _
  have hRefers : ∀ d : Declaration, EntityData.declaration
      { type := { base := .void, text := "void" } } = .declaration d → s.tree.Refers d.type := by
    intro d hd
    cases hd
    exact hDeclarable.refers
  unfold declareLabel
  refine Grows.calming ?_
  refine (grows_addEntity hs hOwner.ready (.declaration rfl _ _ _) hParameter hRefers
    fun h => absurd h (by decide)).bind ?_
  rintro id s₁ hs₁ hSteps₁ ⟨hOpen, hAdd⟩
  obtain ⟨-, hId, -, -, -, hGet⟩ := add_eq_ok hAdd
  have hPending₁ : s₁.tree.Pending id :=
    pending_add hs.reachable.size_pos hSteps₁ rfl hDeclarable.lettered hAdd
  have hDeclaration₁ : (s₁.tree.get id).declaration? =
      some { type := { base := .void, text := "void" } } := by
    rw [hGet, if_pos hId]
    rfl
  refine ((grows_generateName hs₁ (by decide)).noted (R := Quiet)).alone.bind ?_
  rintro name s₂ hs₂ hSteps₂ ⟨hQuiet, hNoted₂, hName⟩
  have hKind₂ : (s₂.tree.get id).kind = .caseEntry := by
    rw [(hs₁.extends hQuiet).kind id hOpen.lt, hGet, if_pos hId]
  have hParent₂ : (s₂.tree.get id).parent = some owner := by
    rw [(hs₁.extends hQuiet).parent id hOpen.lt, hGet, if_pos hId]
  have hOpen₂ := hQuiet.opened id hOpen
  refine (grows_nameEntity hs₂ hOpen₂ hName ?_ ?_).bind ?_
  · intro h
    cases h
  · rw [hKind₂]
    decide
  · rintro found s₃ hs₃ hSteps₃ ⟨⟨hCalm, -⟩, hSet⟩
    have hAdds₂ : Adds s.tree s₂.tree (· = id) :=
      ((adds_add hAdd).trans hNoted₂.adds).mono fun _ _ _ hi => hi.elim (fun hEq => hEq) False.elim
    obtain ⟨rfl, hIntroduces⟩ := introduces_setName hAdds₂ (Nat.le_of_eq hId.symm)
      hs₂.reachable hOpen₂ hParent₂ hName hSet
    rw [hKind₂] at hIntroduces
    have hAdds₃ := adds_setName hOpen₂.lt hSet
    have hPending₂ := hPending₁.adds hOpen.lt hNoted₂.adds hSteps₂
    have hPending₃ := hPending₂.adds hOpen₂.lt hAdds₃ hSteps₃
    have hDeclaration₃ := (hAdds₃.declaration? _ hOpen₂.lt).trans
      ((hNoted₂.adds.declaration? _ hOpen.lt).trans hDeclaration₁)
    refine Grows.calmed hCalm ?_
    refine ((keeps_attachBefore _ comments).grows hs₃).bind ?_
    intro _ s₄ hs₄ _ hNoted₄
    refine ((keeps_attachAfter _ label.position.line).grows hs₄).bind ?_
    intro _ s₅ hs₅ _ hNoted₅
    have hNoted : Noted s₃.tree s₅.tree := hNoted₄.trans hNoted₅
    have hLt₃ := hIntroduces.named.1
    exact Grows.pure hs₅ ⟨hIntroduces.noted hs₃.reachable.size_pos hNoted,
      hPending₃.adds hLt₃ hNoted.adds hNoted.quiet.steps,
      (hNoted.adds.declaration? _ hLt₃).trans hDeclaration₃⟩

theorem grows_declareLabel (hs : s.Sound) {owner : EntityId} (hOwner : s.tree.Owner owner)
    (hUnion : (s.tree.get owner).kind = .union) (label : Token) (comments : List Token) :
    Grows (Grown owner) (declareLabel owner label comments) s
      fun id _ => s.tree.size ≤ id := by
  refine Grows.grown ((introduces_declareLabel hs hOwner label comments).mono ?_)
  rintro id s' _ _ ⟨hIntroduces, hPending, -⟩
  have hDeclares : Declares s.tree s'.tree owner id .caseEntry [] :=
    Declares.of_introduces hIntroduces hPending
  exact ⟨hDeclares.fresh hOwner.ready.lt (by decide) (belongs_case hUnion) nofun, hIntroduces.new⟩

theorem grows_readLabelled (hs : s.Sound) {owner : EntityId} (hOwner : s.tree.Owner owner)
    (hUnion : (s.tree.get owner).kind = .union) (label : Token) (comments : List Token) :
    Grows (Grown owner) (readLabelled owner label comments) s
      fun id _ => s.tree.size ≤ id := by
  unfold readLabelled
  refine (grows_readType hs owner).bind ?_
  intro type s₁ hs₁ hR₁ hType
  refine (grows_declarationName hs₁).bind ?_
  intro name s₂ hs₂ hR₂ hName
  have hGrown : Grown owner s.tree s₂.tree := hR₁.trans hR₂
  have hExtends := hs.extends hGrown
  have hOwner₂ : s₂.tree.Owner owner :=
    hOwner.extends hExtends (hGrown.calm hOwner.ready.calm)
  have hUnion₂ := (hExtends.kind owner hOwner.ready.lt).trans hUnion
  have hMember : EntityKind.caseEntry ≠ .parameter := by decide
  have hEntry : EntityKind.caseEntry ≠ .enumEntry := by decide
  refine (grows_readDeclarator hs₂ ⟨hOwner₂, rfl, hMember, hEntry, belongs_case hUnion₂,
    hs₁.declarable hR₂ hType, hName⟩ comments).bind ?_
  rintro ⟨id, t⟩ s₃ hs₃ _ hNew
  dsimp only
  split
  · exact Grows.pure hs₃ (Nat.le_trans hExtends.size hNew)
  · exact grows_failAtToken _ _

theorem grows_readCase (hs : s.Sound) {owner : EntityId} (hOwner : s.tree.Owner owner)
    (hUnion : (s.tree.get owner).kind = .union) (label : Token) (comments : List Token) :
    Grows (Grown owner) (readCase owner label comments) s fun _ _ => True := by
  unfold readCase
  refine ((keeps_readLabel label).grows hs).bind ?_
  intro tokens s₁ hs₁ hR₁ _
  refine ((keeps_peek 0).grows hs₁).bind ?_
  intro t s₂ hs₂ hR₂ _
  refine ((keeps_definesNext t).grows hs₂).bind ?_
  intro defines s₃ hs₃ hR₃ _
  have hGrown : Grown owner s.tree s₃.tree := hR₁.trans (hR₂.trans hR₃)
  have hExtends := hs.extends hGrown
  have hOwner₃ := hOwner.extends hExtends (hGrown.calm hOwner.ready.calm)
  have hUnion₃ := (hExtends.kind owner hOwner.ready.lt).trans hUnion
  dsimp only
  split
  · exact grows_failAtToken_bind _ _
  · have hNew : ∀ {x : Parsing EntityId}, Grows (Grown owner) x s₃ (fun id _ => s₃.tree.size ≤ id) →
        Grows (Grown owner) (x >>= fun id => modifyDeclaration id fun d =>
          { d with
            defaultCase := label.is "default"
            labels := if label.is "default" then d.labels else [tokens] }) s₃ fun _ _ => True :=
      fun hx => hx.completed (fun _ => rfl) (fun _ => rfl) fun _ => rfl
    split
    · exact hNew (grows_declareLabel hs₃ hOwner₃ hUnion₃ label comments)
    · exact hNew (grows_readLabelled hs₃ hOwner₃ hUnion₃ label comments)

end Parsing

end IdlReader
