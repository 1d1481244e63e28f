import IdlReader.Grammar.Content
import IdlReader.Proofs.Grammar.Case

/-!
# Definitions and the tree

A definition is added without a name, gets its bases or the type of its discriminator, and then
its name, before its members are added below it.

* `grows_readBases`, `grows_readSwitch`: the head of a definition.
* `grows_openDefinition`: a definition up to its body.
* `grows_readDefinition`: a definition with its head and its body.
-/

namespace IdlReader

open IdlReader.Tree

namespace Parsing

variable {R : Tree → Tree → Prop} [Growth R] {s : Session}

/-! ## Evaluation of members -/

theorem grows_checkLabels (p : Position) (seen cs : List Constant) (hs : s.Sound) :
    Grows Evaluations (checkCases.checkLabels p seen cs) s fun _ _ => True := by
  induction cs generalizing seen with
  | nil => exact Grows.pure hs trivial
  | cons c cs ih =>
    unfold checkCases.checkLabels
    split
    · exact grows_failAt _ _
    · exact ih _

theorem grows_checkCases (hasDefault : Bool) (seen : List Constant) (ids : List EntityId)
    (hs : s.Sound) : Grows Evaluations (checkCases hasDefault seen ids) s fun _ _ => True := by
  induction ids generalizing s hasDefault seen with
  | nil => exact Grows.pure hs trivial
  | cons id ids ih =>
    unfold checkCases
    refine (grows_evaluateDeclaration hs id).bind ?_
    intro _ s₁ hs₁ _ _
    refine Grows.entity ?_
    split
    · exact ih _ _ hs₁
    · dsimp only
      split
      · exact grows_failAt_bind _ _
      · exact (grows_checkLabels _ _ _ hs₁).bind fun _ s₂ hs₂ _ _ => ih _ _ hs₂

/-- The members of a definition that are of certain kinds. -/
theorem grows_childrenOfKinds (hs : s.Sound) (kinds : List EntityKind) (ids : List EntityId) :
    Grows Evaluations (childrenOfKinds kinds ids) s fun found _ =>
      ∀ id ∈ ids, (s.tree.get id).kind ∈ kinds → id ∈ found := by
  refine Grows.tree (Grows.pure hs ?_)
  intro id hId hKind
  exact List.mem_filter.mpr ⟨hId, List.contains_iff_mem.mpr hKind⟩

theorem grows_evaluateType (hs : s.Sound) (id : EntityId) :
    Grows Evaluations (evaluateType id) s fun _ s' =>
      (s'.tree.get id).kind ≠ .union → s'.tree.Finished id := by
  unfold evaluateType
  refine Grows.entity ?_
  split
  · rename_i hUnion
    have hStays : ∀ s' : Session, Evaluations s.tree s'.tree →
        (s'.tree.get id).kind ≠ .union → s'.tree.Finished id := by
      intro s' hR hNot
      rw [hR.kind] at hNot
      exact absurd hUnion hNot
    split
    · exact Grows.pure hs (hStays s .refl)
    · refine (grows_childrenOfKinds hs _ _).bind ?_
      intro cases s₁ hs₁ hR₁ _
      exact (grows_checkCases _ _ _ hs₁).mono fun _ s₂ _ hR₂ _ => hStays s₂ (hR₁.trans hR₂)
  · exact (grows_evaluateDeclaration hs id).mono fun _ _ _ _ hFinished _ => hFinished

theorem grows_evaluateWithParameters (hs : s.Sound) (id : EntityId) :
    Grows Evaluations (evaluateWithParameters id) s fun _ s' => s'.tree.Settled id := by
  refine (grows_evaluateDeclaration hs id).bind ?_
  intro _ s₁ hs₁ _ hFinished
  refine Grows.tree ?_
  refine (Grows.forM (P := fun q t => t.Finished q) (fun _ _ _ hR h => hR.finished h) _
    (fun q _ s hs => grows_evaluateDeclaration hs q) hs₁).mono ?_
  intro _ s₂ _ hR₂ hAll
  refine ⟨hR₂.finished hFinished, fun _ q hq => hAll q ?_⟩
  rw [parameters_congr hR₂.settles.outline] at hq
  exact hq

/-- What is no declaration needs no evaluation. -/
theorem finished_of_kind {t : Tree} (h : t.Reachable) {c : EntityId}
    (hKind : (t.get c).kind.isDeclaration = false) : t.Finished c := by
  intro d hd
  have hSome := h.isDeclaration (lt_of_declaration? hd)
  rw [hKind, hd] at hSome
  cases hSome

/-- The members of what is no enumeration are all evaluated. -/
theorem grows_evaluateMembers (hs : s.Sound) {owner : EntityId}
    (hKind : (s.tree.get owner).kind ≠ .enum) :
    Grows Evaluations (evaluateMembers owner) s fun _ s' => s'.tree.Swept owner := by
  unfold evaluateMembers
  refine Grows.entity ?_
  refine (grows_childrenOfKinds hs _ _).bind ?_
  intro types s₁ hs₁ hR₁ hTypes
  refine (Grows.forM (P := fun c t => (t.get c).kind ≠ .union → t.Finished c) ?_ types
    (fun c _ s hs => grows_evaluateType hs c) hs₁).bind ?_
  · intro c t t' hR h hNot
    rw [hR.kind] at hNot
    exact hR.finished (h hNot)
  intro _ s₂ hs₂ hR₂ hTypes₂
  refine (grows_childrenOfKinds hs₂ _ _).bind ?_
  intro consts s₃ hs₃ hR₃ hConsts
  refine (Grows.forM (P := fun c t => t.Finished c) (fun _ _ _ hR h => hR.finished h) consts
    (fun c _ s hs => grows_evaluateDeclaration hs c) hs₃).bind ?_
  intro _ s₄ hs₄ hR₄ hConsts₄
  refine (grows_childrenOfKinds hs₄ _ _).bind ?_
  intro operations s₅ hs₅ hR₅ hOperations
  refine (Grows.forM (P := fun c t => t.Settled c) (fun _ _ _ hR h => hR.settled h)
    operations (fun c _ s hs => grows_evaluateWithParameters hs c) hs₅).bind ?_
  intro _ s₆ hs₆ hR₆ hOperations₆
  refine (grows_childrenOfKinds hs₆ _ _).bind ?_
  intro fields s₇ hs₇ hR₇ hFields
  refine (Grows.forM (P := fun c t => t.Finished c) (fun _ _ _ hR h => hR.finished h) fields
    (fun c _ s hs => grows_evaluateDeclaration hs c) hs₇).mono ?_
  intro _ s₈ hs₈ hR₈ hFields₈
  -- Each kind of members was swept in one of the four rounds.
  have hR₂₈ := hR₃.trans (hR₄.trans (hR₅.trans (hR₆.trans (hR₇.trans hR₈))))
  have hR₄₈ := hR₅.trans (hR₆.trans (hR₇.trans hR₈))
  have hR₆₈ := hR₇.trans hR₈
  have hR := hR₁.trans (hR₂.trans hR₂₈)
  refine ⟨fun hEnum => absurd ((Evaluations.kind hR owner).symm.trans hEnum) hKind, ?_⟩
  intro _ c hc hEntry
  have hReachable := hs₈.reachable
  have hMember : c ∈ (s.tree.get owner).children := by
    rw [children_congr (Evaluations.settles hR).outline] at hc
    exact hc
  have hNotParameter := (hReachable.parent_of_mem_children hc).2.2
  have hRound : ∀ {s' : Session} {k : EntityKind}, Evaluations s'.tree s₈.tree →
      (s₈.tree.get c).kind = k → (s'.tree.get c).kind = k := fun hR' hk => (hR'.kind c).symm.trans hk
  have hOther : (s₈.tree.get c).kind ≠ .operation → s₈.tree.Finished c → s₈.tree.Settled c :=
    fun hNot hFinished => ⟨hFinished, fun hOperation => absurd hOperation hNot⟩
  cases hk : (s₈.tree.get c).kind with
  | parameter => exact absurd hk hNotParameter
  | enumEntry => exact absurd hk hEntry
  | typedef =>
    have hType := hTypes c hMember (by rw [hRound hR hk]; decide)
    refine hOther (by rw [hk]; decide) (Evaluations.finished hR₂₈ (hTypes₂ c hType ?_))
    rw [hRound hR₂₈ hk]
    decide
  | const =>
    have hConst := hConsts c hMember (by rw [hRound hR₂₈ hk]; decide)
    exact hOther (by rw [hk]; decide) (Evaluations.finished hR₄₈ (hConsts₄ c hConst))
  | attr =>
    have hAttr := hOperations c hMember (by rw [hRound hR₄₈ hk]; decide)
    exact Evaluations.settled hR₆₈ (hOperations₆ c hAttr)
  | operation =>
    have hOperation := hOperations c hMember (by rw [hRound hR₄₈ hk]; decide)
    exact Evaluations.settled hR₆₈ (hOperations₆ c hOperation)
  | field =>
    have hField := hFields c hMember (by rw [hRound hR₆₈ hk]; decide)
    exact hOther (by rw [hk]; decide) (hFields₈ c hField)
  | caseEntry =>
    have hCase := hFields c hMember (by rw [hRound hR₆₈ hk]; decide)
    exact hOther (by rw [hk]; decide) (hFields₈ c hCase)
  | _ => exact hOther (by rw [hk]; decide) (finished_of_kind hReachable (by rw [hk]; rfl))

/-! ## Heads of definitions -/

theorem keeps_takeIfComma : Keeps basesWithin.takeIfComma := by
  refine keeps_putBackNext ?_
  intro s t hs ht
  split
  · exact Grows.pure hs trivial
  · exact (grows_putBack hs ht).bind fun _ s₁ hs₁ _ _ => Grows.pure hs₁ trivial

/-- What a definition of a kind may inherit. -/
def IsBase (t : Tree) (kind : EntityKind) (id : EntityId) : Prop :=
  t.Named id ∧ (t.get id).kind = kind ∧ (t.get id).forward = false

theorem IsBase.extends {t t' : Tree} {kind : EntityKind} {id : EntityId} (h : IsBase t kind id)
    (hExtends : t.Extends t') : IsBase t' kind id := by
  refine ⟨hExtends.named h.1, ?_, ?_⟩
  · rw [hExtends.kind id h.1.1]
    exact h.2.1
  · rw [(hExtends.settled id h.1.1 (Or.inr h.1.2)).2.1]
    exact h.2.2

theorem grows_basesWithin (scope : EntityId) (kind : EntityKind) (n : Nat) (hs : s.Sound) :
    Grows R (basesWithin scope kind n) s fun ids s' => ∀ b ∈ ids, IsBase s'.tree kind b := by
  induction n generalizing s with
  | zero => exact grows_fail _
  | succ n ih =>
    unfold basesWithin
    refine (keeps_next.grows hs).bind ?_
    intro first s₁ hs₁ _ _
    refine ((keeps_readScopedName first).grows hs₁).bind ?_
    rintro ⟨name, last⟩ s₂ hs₂ _ -
    refine Grows.tree ?_
    dsimp only
    split
    · exact grows_failAtToken _ _
    · rename_i found hFind
      split
      · exact grows_failAtToken_bind _ _
      · rename_i hKind
        split
        · exact grows_failAtToken_bind _ _
        · rename_i hForward
          have hFound := (wellFormed_of_reachable hs₂.reachable).findType_found hFind
          have hBase : IsBase s₂.tree kind (s₂.tree.resolved found) :=
            ⟨(hs₂.reachable.found_resolved hFound).1, Decidable.not_not.mp hKind,
              Bool.eq_false_iff.mpr hForward⟩
          refine (keeps_takeIfComma.grows hs₂).bind ?_
          intro more s₃ hs₃ hR₃ _
          have hBase₃ := hBase.extends (hs₂.extends hR₃)
          split
          · refine (ih hs₃).bind ?_
            intro ids s₄ hs₄ hR₄ hIds
            refine Grows.pure hs₄ ?_
            intro b hb
            rcases List.mem_cons.mp hb with rfl | hb
            · exact hBase₃.extends (hs₃.extends hR₄)
            · exact hIds b hb
          · refine Grows.pure hs₃ ?_
            intro b hb
            rw [List.mem_singleton.mp hb]
            exact hBase₃

/-- The head of a definition may be read before its name is given. -/
theorem grows_readBases (hs : s.Sound) {id : EntityId} (hOpen : s.tree.Open id)
    (scope : EntityId) {kind : EntityKind} (hKind : (s.tree.get id).kind = kind) :
    Grows (Heading id) (readBases id scope kind) s fun _ _ => True := by
  unfold readBases
  refine (grows_next hs).bind ?_
  intro t s₁ hs₁ hR₁ ht
  split
  · exact (grows_putBack hs₁ ht).bind fun _ s₂ hs₂ _ _ => Grows.pure hs₂ trivial
  · split
    · exact grows_failAtToken _ _
    · rename_i hSupports
      refine Grows.tokensLeft fun n => ?_
      refine (grows_basesWithin scope kind n hs₁).bind ?_
      intro bases s₂ hs₂ hR₂ hBases
      have hQuiet := hR₁.quiet.trans hR₂.quiet
      have hKind₂ : (s₂.tree.get id).kind = kind :=
        ((hs.extends hQuiet).kind id hOpen.lt).trans hKind
      have hStep : Step s₂.tree
          (s₂.tree.modify id (Entity.mapDefinition fun d => { d with bases })) := by
        refine .inherit (hQuiet.opened id hOpen) ?_ ?_
        · rw [hKind₂]
          simpa using hSupports
        · rw [hKind₂]
          exact hBases
      refine (grows_modifyTree hs₂ (heading_mapDefinition hStep)
        (entry_of_size (size_modify _ _ _))).bind ?_
      exact fun _ s₃ hs₃ _ _ => Grows.pure hs₃ trivial

theorem grows_readSwitch (hs : s.Sound) {id : EntityId} (hOpen : s.tree.Open id)
    (scope : EntityId) (hKind : (s.tree.get id).kind = .union)
    (hDefinition : (s.tree.get id).definition?.isSome = true) :
    Grows (Heading id) (readSwitch id scope) s fun headed s' =>
      headed = true ∧ Switched s'.tree id ∨
        headed = false ∧ ∃ t ts, s'.cache = t :: ts ∧ t.is ";" = true := by
  unfold readSwitch
  refine (grows_ahead hs).noted.bind ?_
  rintro t s₁ hs₁ _ ⟨hNoted₁, hCache⟩
  split
  · rename_i hMark
    obtain ⟨ts, hCache⟩ := hCache (Token.not_isFinish_of_is hMark)
    exact Grows.pure hs₁ (Or.inr ⟨rfl, t, ts, hCache, hMark⟩)
  · refine ((keeps_expectMark _ _).grows hs₁).bind ?_
    intro _ s₂ hs₂ _ hNoted₂
    refine ((keeps_expectMark _ _).grows hs₂).bind ?_
    intro _ s₃ hs₃ _ hNoted₃
    refine ((keeps_peek 0).grows hs₃).bind ?_
    intro u s₄ hs₄ _ hNoted₄
    refine (grows_readType hs₄ scope).noted.bind ?_
    rintro type s₅ hs₅ _ ⟨hNoted₅, hType⟩
    dsimp only
    split
    · exact grows_failAtToken_bind _ _
    · rename_i hNot
      have hIntegral : (type.kind?.map Kind.isIntegral).getD false = true := by simpa using hNot
      refine ((keeps_expectMark _ _).grows hs₅).bind ?_
      intro _ s₆ hs₆ hR₆ hNoted₆
      have hNoted : Noted s.tree s₆.tree :=
        hNoted₁.trans (hNoted₂.trans (hNoted₃.trans (hNoted₄.trans (hNoted₅.trans hNoted₆))))
      have hOpen₆ := hNoted.quiet.opened id hOpen
      have hStep : Step s₆.tree (s₆.tree.modify id
          (Entity.mapDefinition fun d => { d with switchType := some type })) := by
        refine .switch hOpen₆ ?_ (hs₅.declarable hR₆ hType).refers hIntegral
        rw [hNoted.adds.kind id hOpen.lt]
        exact hKind
      refine (grows_modifyTree hs₆ (heading_mapDefinition hStep)
        (entry_of_size (size_modify _ _ _))).bind ?_
      intro _ s₇ hs₇ _ hTree
      refine Grows.pure hs₇ (Or.inl ⟨rfl, ?_⟩)
      rw [hTree]
      refine switched_modify ?_ hIntegral
      rw [hNoted.adds.definition? id hOpen.lt]
      exact hDefinition

theorem grows_definitionName (hs : s.Sound) (owner : EntityId) (kind : EntityKind) :
    Grows R (definitionName owner kind) s fun x _ => IsName x.1 := by
  unfold definitionName
  refine (grows_next hs).bind ?_
  intro t s₁ hs₁ _ ht
  split
  · rename_i hIdentifier
    exact Grows.pure hs₁ (ht (by rw [Token.isWord, hIdentifier, Bool.true_or]))
  · split
    · refine Grows.entity ?_
      dsimp only
      split
      · exact grows_failAtToken_bind _ _
      · refine (grows_generateName hs₁ (isName_stem kind)).bind ?_
        intro name s₂ hs₂ _ hName
        exact (grows_putBack hs₂ ht).bind fun _ s₃ hs₃ _ _ => Grows.pure hs₃ hName
    · exact grows_failAtToken _ _

/-! ## Definitions -/

/-- Definitions belong to everything but enumerations. -/
theorem belongs_definition {kind owner : EntityKind} (h : kind.isDefinition = true)
    (hOwner : owner ≠ .enum) : kind.Belongs owner := by
  refine ⟨fun hCase => ?_, fun hEntry => ?_, fun hEnum => absurd hEnum hOwner⟩
  · rw [hCase] at h
    cases h
  · rw [hEntry] at h
    cases h

theorem isDefinition_ne {kind : EntityKind} (h : kind.isDefinition = true) :
    kind ≠ .operation ∧ kind ≠ .parameter := by
  cases kind <;> simp [EntityKind.isDefinition] at h ⊢

/-- Reads a definition behind its keyword up to the opening brace of its body. Also says whether
there is none, so that the definition is declared by its name only. -/
def openDefinition (owner : EntityId) (kind : EntityKind) (keyword : Token) (isLocal : Bool)
    (comments : List Token) : Parsing (EntityId × Bool) := do
  let id ← addEntity owner kind keyword.source (Span.point keyword.position)
    (.definition { isLocal })
  let (name, anonymous) ← definitionName owner kind
  let headed ← if kind = .union then readSwitch id owner else readBases id owner kind
  let t ← next
  let forward := !t.is "\x7b"
  if (headed || anonymous) && forward then failAtToken .openBraceExpected t
  let id ← nameEntity id name forward true
  if forward then
    putBack t
    return (id, true)
  else do
    modifyEntity id fun e => { e with anonymous }
    attachBefore id comments
    return (id, false)

/-- A definition is opened, and its body is read. -/
theorem readDefinition_eq (content : EntityId → Parsing Unit) (owner : EntityId) (kind : EntityKind)
    (keyword : Token) (isLocal : Bool) (comments : List Token) :
    readDefinition content owner kind keyword isLocal comments = do
      let r ← openDefinition owner kind keyword isLocal comments
      if r.2 then return r.1
      else do
        readBody content r.1 kind
        return r.1 := by
  unfold readDefinition openDefinition
  rw [bind_assoc]
  refine bind_congr fun id => ?_
  rw [bind_assoc]
  refine bind_congr fun r => ?_
  by_cases hUnion : kind = .union
  · simp only [if_pos hUnion, bind_assoc]
    refine bind_congr fun headed => bind_congr fun t => ?_
    cases t.is "\x7b" with
    | true => simp
    | false => cases headed || r.2 <;> simp
  · simp only [if_neg hUnion, bind_assoc]
    refine bind_congr fun headed => bind_congr fun t => ?_
    cases t.is "\x7b" with
    | true => simp
    | false => cases headed || r.2 <;> simp

/-- Whether the body of a definition is to be read that was added to a tree. -/
structure Opened (t t' : Tree) (owner id : EntityId) (kind : EntityKind) : Prop where
  ready : t'.Owner id
  named : t'.Named id
  kind : (t'.get id).kind = kind
  enters : ∃ t₁, Entered owner id t t₁ ∧ Noted t₁ t'

/-- The tree goes on when the body was read. -/
theorem Opened.reads {C K : EntityId → Tree → Tree → Prop} (hReading : Reading C K)
    {t t' t₁ t₂ : Tree} {owner id : EntityId} {kind : EntityKind} (h : Opened t t' owner id kind)
    (hBody : K id t' t₁) (hNoted : Noted t₁ t₂) : C owner t t₂ := by
  obtain ⟨t₀, hEntered, hNoted₀⟩ := h.enters
  have hInner := hReading.closes (hReading.grown (hNoted₀.grown id)) hBody
  exact (hReading.growth owner).trans (hReading.enters hEntered hInner)
    (hReading.grown (hNoted.grown owner))

theorem Opened.closes {t t' t₁ t₂ : Tree} {owner id : EntityId} {kind : EntityKind}
    (h : Opened t t' owner id kind) (hConcludes : Concludes id t' t₁) (hNoted : Noted t₁ t₂) :
    Continues owner t t₂ := h.reads reading_stages hConcludes hNoted

/-- Whether a tree goes on with another one by what is of a kind and stands in an entity. -/
structure Places (owner : EntityId) (k : EntityKind) (t t' : Tree) : Prop
    extends Adds t t' fun i => (t'.get i).kind = k ∧ (t'.get i).parent = some owner where
  found : ∃ i, t.size ≤ i ∧ i < t'.size ∧ (t'.get i).kind = k

theorem Places.trans {t t' t'' : Tree} {owner : EntityId} {kind : EntityKind}
    (h : Places owner kind t t') (hAdds : Adds t' t'' fun _ => False) : Places owner kind t t'' where
  toAdds := by
    refine (h.toAdds.trans hAdds).mono fun i _ _ hEither => ?_
    rcases hEither with ⟨hKind, hParent⟩ | hFalse
    · have hLt := lt_size_of_parent hParent
      rw [hAdds.kind i hLt, hAdds.parent i hLt]
      exact ⟨hKind, hParent⟩
    · exact hFalse.elim
  found := by
    obtain ⟨i, hNew, hLt, hKind⟩ := h.found
    exact ⟨i, hNew, Nat.lt_of_lt_of_le hLt hAdds.size, (hAdds.kind i hLt).trans hKind⟩

theorem places_of_opens {t t' : Tree} {owner id : EntityId} {kind : EntityKind}
    (h : Opens t t' owner id kind) : Places owner kind t t' where
  toAdds := by
    refine h.adds.mono fun i _ _ hi => ?_
    rw [hi]
    exact ⟨h.kind, h.parent⟩
  found := ⟨id, h.new, h.unnamed.lt, h.kind⟩

/-- A forward declaration goes on with what it stands in, and a definition is to get its body. -/
theorem places_openDefinition (hs : s.Sound) {owner : EntityId} (hOwner : s.tree.Owner owner)
    (hOwnerKind : (s.tree.get owner).kind ≠ .enum)
    {kind : EntityKind} (hDefinition : kind.isDefinition = true) (keyword : Token)
    (isLocal : Bool) (comments : List Token) :
    Grows Steps (openDefinition owner kind keyword isLocal comments) s fun r s' =>
      Places owner kind s.tree s'.tree ∧ s'.tree.Named r.1 ∧ if r.2 then Grown owner s.tree s'.tree
        else Opened s.tree s'.tree owner r.1 kind := by
  obtain ⟨hNotOperation, hNotParameter⟩ := isDefinition_ne hDefinition
  have hBelongs := belongs_definition hDefinition hOwnerKind
  unfold openDefinition
  refine (grows_addEntity hs hOwner.ready (.definition hDefinition isLocal) ?_ nofun
    ?_).bind ?_
  · exact ⟨fun h => absurd h hNotParameter, fun h => absurd h hOwner.kind⟩
  · rintro rfl
    cases hDefinition
  rintro id s₁ hs₁ hSteps₁ ⟨hOpen₁, hAdd⟩
  obtain ⟨-, hId, -, -, -, hGet⟩ := add_eq_ok hAdd
  have hOpens₁ : Opens s.tree s₁.tree owner id kind :=
    ⟨hSteps₁, adds_add hAdd, Nat.le_of_eq hId.symm, hOpen₁, by rw [hGet, if_pos hId],
      by rw [hGet, if_pos hId], by rw [hGet, if_pos hId]; rfl⟩
  refine ((grows_definitionName (R := Heading id) hs₁ owner kind).within
    fun hR => hR.quiet.steps).bind ?_
  rintro ⟨name, anonymous⟩ s₂ hs₂ _ ⟨hHeading₂, hName⟩
  have hOpens₂ := hOpens₁.heading hs₁.reachable.size_pos hHeading₂
  dsimp only at hName ⊢
  refine Grows.ite_bind (P := fun headed s' => Heading id s₂.tree s'.tree ∧
    (kind = .union → headed = true ∧ Switched s'.tree id ∨
      headed = false ∧ ∃ t ts, s'.cache = t :: ts ∧ t.is ";" = true)) ?_ ?_ ?_
  · intro hUnion
    have hSwitch := grows_readSwitch hs₂ hOpens₂.unnamed owner (hOpens₂.kind.trans hUnion)
      hOpens₂.definition
    exact (hSwitch.within fun hR => hR.quiet.steps).mono fun _ _ _ _ h => ⟨h.1, fun _ => h.2⟩
  · intro hNot
    have hBases := grows_readBases hs₂ hOpens₂.unnamed owner hOpens₂.kind
    exact (hBases.within fun hR => hR.quiet.steps).mono
      fun _ _ _ _ h => ⟨h.1, fun hUnion => absurd hUnion hNot⟩
  rintro headed s₃ hs₃ _ ⟨hHeading₃, hSwitched₃⟩
  have hOpens₃ := hOpens₂.heading hs₂.reachable.size_pos hHeading₃
  refine ((grows_taken hs₃).noted (R := Steps)).bind ?_
  rintro t s₄ hs₄ _ ⟨hNoted₄, ht, hTaken⟩
  have hOpens₄ := hOpens₃.heading hs₃.reachable.size_pos (hNoted₄.heading id)
  split
  · exact grows_failAtToken_bind _ _
  · have hForward : (!t.is "\x7b") = true → (s₄.tree.get id).kind.isDefinition = true := by
      intro _
      rw [hOpens₄.kind]
      exact hDefinition
    have hListed : true = true ↔ (s₄.tree.get id).kind ≠ .parameter := by
      rw [hOpens₄.kind]
      exact ⟨fun _ => hNotParameter, fun _ => rfl⟩
    refine (grows_nameEntity hs₄ hOpens₄.unnamed hName hForward hListed).bind ?_
    rintro found s₅ hs₅ hSteps₅ ⟨⟨hCalm, hNamed, -, -⟩, hSet⟩
    have hPlaces₅ : Places owner kind s.tree s₅.tree :=
      (places_of_opens hOpens₄).trans (adds_setName hOpens₄.unnamed.lt hSet)
    split
    · rename_i hMark
      rw [hMark] at hSet
      have hGrown := hOpens₄.grown hs₄.reachable hOwner.ready.lt hDefinition hBelongs hSteps₅ hCalm
        hSet
      refine ((grows_putBack (R := Noted) hs₅ ht).within Course.steps).bind ?_
      rintro _ s₆ hs₆ hSteps₆ ⟨hNoted₆, -⟩
      exact Grows.pure hs₆ ⟨hPlaces₅.trans hNoted₆.adds, (hs₅.extends hSteps₆).named hNamed,
        hGrown.trans (hNoted₆.grown owner)⟩
    · rename_i hBrace
      have hFull := Bool.eq_false_iff.mpr hBrace
      rw [hFull] at hSet
      have hSwitch : kind = .union → Switched s₄.tree id := by
        intro hUnion
        rcases hSwitched₃ hUnion with ⟨-, hSwitched⟩ | ⟨-, u, ts, hCache, hMark⟩
        · exact hSwitched.adds hNoted₄.adds
        · rw [← hTaken u ts hCache] at hMark
          rw [Token.not_is_of_is hMark (by decide)] at hFull
          cases hFull
      obtain ⟨rfl, hEntered⟩ := hOpens₄.entered hs₄.reachable hOwner.ready.lt hDefinition hBelongs
        hSwitch hName hSteps₅ hCalm hSet
      have hKind₅ : (s₅.tree.get found).kind = kind :=
        ((hs₄.extends hSteps₅).kind found hOpens₄.unnamed.lt).trans hOpens₄.kind
      have hOwner₅ : s₅.tree.Owner found :=
        ⟨⟨hCalm, hNamed.1, hEntered.full⟩, by rw [hKind₅]; exact hNotOperation⟩
      have hAnnotates (e : Entity) : Entity.Annotates e { e with anonymous } := rfl
      refine ((keeps_annotate hAnnotates).grows hs₅).bind ?_
      intro _ s₆ hs₆ _ hNoted₆
      refine ((keeps_attachBefore found comments).grows hs₆).bind ?_
      intro _ s₇ hs₇ _ hNoted₇
      have hNoted : Noted s₅.tree s₇.tree := hNoted₆.trans hNoted₇
      have hExtends₇ := hs₅.extends hNoted
      exact Grows.pure hs₇ ⟨hPlaces₅.trans hNoted.adds, hExtends₇.named hNamed,
        hOwner₅.extends hExtends₇ (hNoted.quiet.calm hCalm), hExtends₇.named hNamed,
        (hExtends₇.kind found hNamed.1).trans hKind₅, s₅.tree, hEntered, hNoted⟩

theorem grows_openDefinition (hs : s.Sound) {owner : EntityId} (hOwner : s.tree.Owner owner)
    (hOwnerKind : (s.tree.get owner).kind ≠ .enum)
    {kind : EntityKind} (hDefinition : kind.isDefinition = true) (keyword : Token)
    (isLocal : Bool) (comments : List Token) :
    Grows Steps (openDefinition owner kind keyword isLocal comments) s fun r s' =>
      s'.tree.Named r.1 ∧ if r.2 then Grown owner s.tree s'.tree
        else Opened s.tree s'.tree owner r.1 kind :=
  (places_openDefinition hs hOwner hOwnerKind hDefinition keyword isLocal comments).mono
    fun _ _ _ _ hQ => hQ.2

section Definitions

variable {C K : EntityId → Tree → Tree → Prop} {content : EntityId → Parsing Unit}

/-- Whether the content of entities that are no enumerations is read to its end. -/
def ReadsContent (K : EntityId → Tree → Tree → Prop) (content : EntityId → Parsing Unit) : Prop :=
  ∀ (s : Session) (owner : EntityId), s.Sound → s.tree.Owner owner →
    (s.tree.get owner).kind ≠ .enum →
    Grows Steps (content owner) s fun _ s' => K owner s.tree s'.tree

/-- Whether the content of enumerations is read to its end. -/
def ReadsEntries (K : EntityId → Tree → Tree → Prop) : Prop :=
  ∀ (s : Session) (owner : EntityId), s.Sound → s.tree.Owner owner →
    (s.tree.get owner).kind = .enum → s.tree.Named owner →
    Grows Steps (readEnumeration owner) s fun _ s' => K owner s.tree s'.tree

theorem readsEntries_stages : ReadsEntries Concludes :=
  fun _ _ hs hOwner hKind hNamed => grows_readEnumeration hs hOwner hKind hNamed

theorem reads_readBody (hEntries : ReadsEntries K) (hContent : ReadsContent K content)
    (hs : s.Sound) {id : EntityId} (hOwner : s.tree.Owner id) {kind : EntityKind}
    (hNamed : s.tree.Named id) (hKind : (s.tree.get id).kind = kind) :
    Grows Steps (readBody content id kind) s fun _ s' => ∃ t, K id s.tree t ∧ Noted t s'.tree := by
  unfold readBody
  dsimp only
  refine Grows.ite_bind (P := fun _ s' => K id s.tree s'.tree) ?_ ?_ ?_
  · intro hEnum
    exact hEntries s id hs hOwner (hKind.trans hEnum) hNamed
  · intro hNot
    exact hContent s id hs hOwner fun hEnum => hNot (hKind.symm.trans hEnum)
  · intro _ s₁ hs₁ _ hBody
    refine (keeps_next.grows hs₁).bind ?_
    intro t s₂ hs₂ _ hNoted₂
    split
    · exact grows_failAtToken_bind _ _
    · refine ((keeps_endAt id t).grows hs₂).mono ?_
      intro _ s₃ _ _ hNoted₃
      exact ⟨s₁.tree, hBody, hNoted₂.trans hNoted₃⟩

/-- A definition with its body, or a forward declaration, goes on with what it stands in. -/
theorem reads_readDefinition (hReading : Reading C K) (hEntries : ReadsEntries K)
    (hContent : ReadsContent K content) (hs : s.Sound) {owner : EntityId}
    (hOwner : s.tree.Owner owner) (hOwnerKind : (s.tree.get owner).kind ≠ .enum)
    {kind : EntityKind} (hDefinition : kind.isDefinition = true) (keyword : Token)
    (isLocal : Bool) (comments : List Token) :
    Grows (C owner) (readDefinition content owner kind keyword isLocal comments) s
      fun id s' => s'.tree.Named id := by
  rw [readDefinition_eq]
  refine Grows.course (R := Steps) ?_
  refine (grows_openDefinition hs hOwner hOwnerKind hDefinition keyword isLocal comments).bind ?_
  rintro ⟨id, forward⟩ s₁ hs₁ _ ⟨hNamed, hOpened⟩
  cases forward with
  | true => exact Grows.pure hs₁ ⟨hReading.grown hOpened, hNamed⟩
  | false =>
    have hOpened : Opened s.tree s₁.tree owner id kind := hOpened
    refine (reads_readBody hEntries hContent hs₁ hOpened.ready hNamed hOpened.kind).bind ?_
    rintro _ s₂ hs₂ hSteps₂ ⟨t', hBody, hNoted⟩
    exact Grows.pure hs₂ ⟨hOpened.reads hReading hBody hNoted, (hs₁.extends hSteps₂).named hNamed⟩

theorem grows_readDefinition (hContent : ReadsContent Concludes content) (hs : s.Sound)
    {owner : EntityId} (hOwner : s.tree.Owner owner)
    (hOwnerKind : (s.tree.get owner).kind ≠ .enum)
    {kind : EntityKind} (hDefinition : kind.isDefinition = true) (keyword : Token)
    (isLocal : Bool) (comments : List Token) :
    Grows (Continues owner) (readDefinition content owner kind keyword isLocal comments) s
      fun id s' => s'.tree.Named id :=
  reads_readDefinition reading_stages readsEntries_stages hContent hs hOwner hOwnerKind hDefinition
    keyword isLocal comments

end Definitions

end Parsing

end IdlReader
