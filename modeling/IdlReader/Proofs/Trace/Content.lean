import IdlReader.Grammar.Content
import IdlReader.Proofs.Trace.Declarator

/-!
# Faults of whole documents

What is read in definitions, and the evaluation of their members when they are closed.

* `traces_evaluateMembers`: the members of an entity, evaluated behind everything that was read
  in it.
* `traces_contentWithin`: the content of an entity.
* `traces_readRoot`: everything.
-/

namespace IdlReader.Parsing

variable {S : Stream} {τ : Trace}

/-! ## Enumerations -/

theorem traces_readEntry (owner : EntityId) (type : DeclaredType) :
    Traces S True τ (readEntry owner type) fun τ' t => S.Places τ'.read t.position := by
  unfold readEntry
  refine traces_commentsBefore.bind fun _ comments _ _ => ?_
  refine traces_declarationName.bind fun _ name _ hName => ?_
  refine (traces_addEntity rfl ?_).bind fun _ id _ hNew => ?_
  · intro d hd
    cases hd
    exact ⟨hName, fun _ h => absurd h List.not_mem_nil, Stream.holds_nil,
      fun _ h => absurd h List.not_mem_nil⟩
  refine (traces_nameEntity hNew _ _ _).bind fun _ id _ hId => ?_
  refine (traces_attachBefore hId comments).bind fun τ₁ _ hLater _ => ?_
  have hId₁ := hId.mono hLater
  have hEnd : ∀ {τ₂ : Trace} {t : Token}, τ₁.Extends τ₂ → S.Places τ₂.read t.position →
      Traces S True τ₂ (do
        attachAfter id t.position.line
        endAt id t
        return t) fun τ' t => S.Places τ'.read t.position := by
    intro τ₂ t hLater₂ ht
    have hId₂ := hId₁.mono hLater₂
    refine (traces_attachAfter hId₂ _).bind fun _ _ hLater₃ _ => ?_
    exact (traces_endAt (hId₂.mono hLater₃) t).bind fun _ _ hLater₄ _ =>
      Traces.pure (ht.mono (hLater₃.trans hLater₄))
  refine traces_next.bind fun _ t hLater₂ ht => Traces.ite (fun _ => ?_) fun _ => hEnd hLater₂ ht
  refine traces_readAssignment.bind ?_
  rintro _ ⟨assignment, u⟩ hLater₃ ⟨hAssignment, hu⟩
  exact Traces.bind (traces_modifyDeclaration id fun d hd =>
    ⟨hd.dimensions, hAssignment, hd.labels⟩) fun _ _ hLater₄ _ =>
      hEnd (hLater₂.trans (hLater₃.trans hLater₄)) (hu.mono hLater₄)

theorem traces_entriesWithin (owner : EntityId) (type : DeclaredType) (n : Nat) :
    Traces S True τ (entriesWithin owner type n) fun _ _ => True := by
  induction n generalizing τ with
  | zero => exact traces_fail _
  | succ n ih =>
    unfold entriesWithin
    refine (traces_peek 0).bind fun _ t _ _ => Traces.ite (fun _ => Traces.pure trivial) fun _ => ?_
    refine (traces_readEntry owner type).bind fun _ u _ hu => ?_
    exact Traces.ite (fun _ => traces_putBack hu) fun _ => Traces.ite (fun _ => ih) fun _ =>
      traces_failAtToken _ hu

theorem traces_checkEntries (seen : List Constant) (ids : List EntityId) :
    Traces S False τ (checkEntries seen ids) fun _ _ => True := by
  induction ids generalizing τ seen with
  | nil => exact Traces.pure trivial
  | cons id ids ih =>
    unfold checkEntries
    refine (traces_evaluateDeclaration id).bind fun _ _ _ _ => ?_
    refine (traces_entity id).bind fun _ e _ he => ?_
    split
    · exact traces_fail _
    · rename_i c hc
      obtain ⟨d, hd, -⟩ := Option.bind_eq_some_iff.mp hc
      exact Traces.ite (fun _ => traces_failAt _ (he d hd).1) fun _ => ih _

theorem traces_readEnumeration (owner : EntityId) :
    Traces S True τ (readEnumeration owner) fun _ _ => True := by
  unfold readEnumeration
  refine (traces_entity owner).bind fun _ e _ _ => traces_tokensLeft.bind fun _ budget _ _ => ?_
  refine (traces_entriesWithin owner _ _).bind fun _ _ _ _ => ?_
  exact (traces_entity owner).bind fun _ e _ _ => (traces_checkEntries [] _).reads

/-! ## Evaluation of members -/

theorem traces_checkLabels {p : Position} (hp : S.Places τ.read p) (seen cs : List Constant) :
    Traces S False τ (checkCases.checkLabels p seen cs) fun _ _ => True := by
  induction cs generalizing seen with
  | nil => exact Traces.pure trivial
  | cons c cs ih =>
    unfold checkCases.checkLabels
    exact Traces.ite (fun _ => traces_failAt _ hp) fun _ => ih _

theorem traces_checkCases (hasDefault : Bool) (seen : List Constant) (ids : List EntityId) :
    Traces S False τ (checkCases hasDefault seen ids) fun _ _ => True := by
  induction ids generalizing τ hasDefault seen with
  | nil => exact Traces.pure trivial
  | cons id ids ih =>
    unfold checkCases
    refine (traces_evaluateDeclaration id).bind fun _ _ _ _ => ?_
    refine (traces_entity id).bind fun _ e _ he => ?_
    split
    · exact ih _ _
    · rename_i d hd
      have hFirst := (he d hd).1
      refine Traces.ite (fun _ => traces_failAt_bind _ hFirst) fun _ => ?_
      exact (traces_checkLabels hFirst _ _).bind fun _ _ _ _ => ih _ _

theorem traces_childrenOfKinds (kinds : List EntityKind) (ids : List EntityId) :
    Traces S False τ (childrenOfKinds kinds ids) fun _ _ => True :=
  traces_tree.bind fun _ _ _ _ => Traces.pure trivial

theorem traces_evaluateType (id : EntityId) :
    Traces S False τ (evaluateType id) fun _ _ => True := by
  unfold evaluateType
  refine (traces_entity id).bind fun _ e _ _ => Traces.ite (fun _ => ?_) fun _ =>
    traces_evaluateDeclaration id
  refine Traces.ite (fun _ => Traces.pure trivial) fun _ => ?_
  exact (traces_childrenOfKinds _ _).bind fun _ cases _ _ => traces_checkCases _ _ _

theorem traces_evaluateWithParameters (id : EntityId) :
    Traces S False τ (evaluateWithParameters id) fun _ _ => True :=
  (traces_evaluateDeclaration id).bind fun _ _ _ _ => traces_tree.bind fun _ _ _ _ =>
    Traces.forM (fun id => traces_evaluateDeclaration id) _

/-- The members of an entity are at fault where they were read. -/
theorem traces_evaluateMembers (owner : EntityId) :
    Traces S False τ (evaluateMembers owner) fun _ _ => True := by
  unfold evaluateMembers
  refine (traces_entity owner).bind fun _ e _ _ => ?_
  refine (traces_childrenOfKinds _ _).bind fun _ types _ _ => ?_
  refine (Traces.forM (fun id => traces_evaluateType id) types).bind fun _ _ _ _ => ?_
  refine (traces_childrenOfKinds _ _).bind fun _ consts _ _ => ?_
  refine (Traces.forM (fun id => traces_evaluateDeclaration id) consts).bind fun _ _ _ _ => ?_
  refine (traces_childrenOfKinds _ _).bind fun _ operations _ _ => ?_
  refine (Traces.forM (fun id => traces_evaluateWithParameters id) operations).bind
    fun _ _ _ _ => ?_
  refine (traces_childrenOfKinds _ _).bind fun _ fields _ _ => ?_
  exact Traces.forM (fun id => traces_evaluateDeclaration id) fields

/-! ## Definitions -/

theorem traces_basesWithin (scope : EntityId) (kind : EntityKind) (n : Nat) :
    Traces S True τ (basesWithin scope kind n) fun _ _ => True := by
  induction n generalizing τ with
  | zero => exact traces_fail _
  | succ n ih =>
    unfold basesWithin
    refine traces_next.bind fun _ first _ hFirst => (traces_readScopedName hFirst).bind ?_
    rintro _ ⟨name, last⟩ _ hLast
    refine traces_tree.bind fun _ t hLater _ => ?_
    have hLast₁ := hLast.mono hLater
    split
    · exact traces_failAtToken _ hLast₁
    · refine Traces.ite (fun _ => traces_failAtToken_bind _ hLast₁) fun _ =>
        Traces.ite (fun _ => traces_failAtToken_bind _ hLast₁) fun _ => ?_
      have hComma : ∀ {τ₁}, Traces S True τ₁ basesWithin.takeIfComma fun _ _ => True :=
        traces_next.bind fun _ _ _ ht => Traces.ite (fun _ => Traces.pure trivial) fun _ =>
          (traces_putBack ht).bind fun _ _ _ _ => Traces.pure trivial
      refine hComma.bind fun _ more _ _ => Traces.ite (fun _ => ?_) fun _ => Traces.pure trivial
      exact ih.bind fun _ _ _ _ => Traces.pure trivial

theorem traces_readBases (id scope : EntityId) (kind : EntityKind) :
    Traces S True τ (readBases id scope kind) fun _ _ => True := by
  unfold readBases
  refine traces_next.bind fun _ t _ ht => Traces.ite (fun _ => ?_) fun _ =>
    Traces.ite (fun _ => traces_failAtToken _ ht) fun _ => ?_
  · exact (traces_putBack ht).bind fun _ _ _ _ => Traces.pure trivial
  · refine traces_tokensLeft.bind fun _ budget _ _ => ?_
    refine (traces_basesWithin scope kind _).bind fun _ bases _ _ => ?_
    exact Traces.bind (traces_mapDefinition id _) fun _ _ _ _ => Traces.pure trivial

theorem traces_readSwitch (id scope : EntityId) :
    Traces S True τ (readSwitch id scope) fun _ _ => True := by
  unfold readSwitch
  refine (traces_peek 0).bind fun _ t _ _ => Traces.ite (fun _ => Traces.pure trivial) fun _ => ?_
  refine (traces_expectMark _ _).bind fun _ _ _ _ => (traces_expectMark _ _).bind fun _ _ _ _ => ?_
  refine (traces_peek 0).bind fun _ u _ hu => ?_
  refine (traces_readType scope).bind fun _ type hLater _ => ?_
  refine Traces.ite (fun _ => traces_failAtToken_bind _ (hu.mono hLater)) fun _ => ?_
  refine (traces_expectMark _ _).bind fun _ _ _ _ => ?_
  exact Traces.bind (traces_mapDefinition id _) fun _ _ _ _ => Traces.pure trivial

theorem traces_definitionName (owner : EntityId) (kind : EntityKind) :
    Traces S True τ (definitionName owner kind) fun _ _ => True := by
  unfold definitionName
  refine traces_next.bind fun _ t _ ht => Traces.ite (fun _ => Traces.pure trivial) fun _ =>
    Traces.ite (fun _ => ?_) fun _ => traces_failAtToken _ ht
  refine (traces_entity owner).bind fun _ e hLater₁ _ => ?_
  have ht₁ := ht.mono hLater₁
  refine Traces.ite (fun _ => traces_failAtToken_bind _ ht₁) fun _ => ?_
  refine (traces_generateName _).bind fun _ name hLater₂ _ => ?_
  exact (traces_putBack (ht₁.mono hLater₂)).bind fun _ _ _ _ => Traces.pure trivial

section Definitions

variable {content : EntityId → Parsing Unit}
  (hContent : ∀ {τ : Trace} (owner : EntityId),
    Traces S True τ (content owner) fun _ _ => True)

include hContent

theorem traces_readBody {id : EntityId} (hId : τ.Knows id) (kind : EntityKind) :
    Traces S True τ (readBody content id kind) fun _ _ => True := by
  unfold readBody
  have hClose : ∀ {τ₁ : Trace}, τ.Extends τ₁ → Traces S True τ₁ (do
      let t ← next
      if !t.is "\x7d" then failAtToken .closeBraceExpected t
      endAt id t) fun _ _ => True := fun hLater₁ =>
    traces_next.bind fun _ t hLater₂ ht => Traces.ite (fun _ => traces_failAtToken_bind _ ht)
      fun _ => traces_endAt (hId.mono (hLater₁.trans hLater₂)) t
  refine Traces.ite (fun _ => ?_) fun _ => ?_
  · exact (traces_readEnumeration id).bind fun _ _ hLater _ => hClose hLater
  · exact (hContent id).bind fun _ _ hLater _ => hClose hLater

theorem traces_readDefinition (owner : EntityId) (kind : EntityKind) (keyword : Token)
    (isLocal : Bool) (comments : List Token) :
    Traces S True τ (readDefinition content owner kind keyword isLocal comments)
      fun τ' id => τ'.Knows id := by
  unfold readDefinition
  refine (traces_addEntity rfl fun d hd => ?_).bind fun _ id _ hNew => ?_
  · cases hd
  refine (traces_definitionName owner kind).bind ?_
  rintro τ₁ ⟨name, anonymous⟩ hLater₁ _
  have hHeaded : ∀ {τ₂ : Trace}, τ₁.Extends τ₂ → ∀ headed : Bool, Traces S True τ₂ (do
      let t ← next
      let forward := !t.is "\x7b"
      if (headed || anonymous) && forward then failAtToken .openBraceExpected t
      let id ← nameEntity id name forward true
      if forward then
        putBack t
        return id
      else do
        modifyEntity id fun e => { e with anonymous }
        attachBefore id comments
        readBody content id kind
        return id) fun τ' id => τ'.Knows id := by
    intro τ₂ hLater₂ headed
    refine traces_next.bind fun _ t hLater₃ ht => ?_
    refine Traces.ite (fun _ => traces_failAtToken_bind _ ht) fun _ => ?_
    have hNew₃ := hNew.mono (hLater₁.trans (hLater₂.trans hLater₃))
    refine (traces_nameEntity hNew₃ _ _ _).bind fun _ id hLater₄ hId => ?_
    refine Traces.ite (fun _ => ?_) fun _ => ?_
    · exact (traces_putBack (ht.mono hLater₄)).bind fun _ _ hLater₅ _ =>
        Traces.pure (hId.mono hLater₅)
    · refine Traces.bind (traces_annotate hId (fun _ => rfl) fun _ => rfl) fun _ _ hLater₅ _ => ?_
      have hId₅ := hId.mono hLater₅
      refine (traces_attachBefore hId₅ comments).bind fun _ _ hLater₆ _ => ?_
      have hId₆ := hId₅.mono hLater₆
      exact (traces_readBody hContent hId₆ kind).bind fun _ _ hLater₇ _ =>
        Traces.pure (hId₆.mono hLater₇)
  refine Traces.ite (fun _ => ?_) fun _ => ?_
  · exact (traces_readSwitch id owner).bind fun _ headed hLater₂ _ => hHeaded hLater₂ headed
  · exact (traces_readBases id owner kind).bind fun _ headed hLater₂ _ => hHeaded hLater₂ headed

end Definitions

theorem traces_definitionKind? (t : Token) :
    Traces S True τ (definitionKind? t) fun _ _ => True := by
  have hStarts : ∀ {τ₁}, Traces S True τ₁ startsDefinition fun _ _ => True :=
    (traces_peek 0).bind fun _ _ _ _ => (traces_peek 1).bind fun _ _ _ _ => Traces.pure trivial
  unfold definitionKind?
  split
  · exact Traces.pure trivial
  · exact hStarts.bind fun _ _ _ _ =>
      Traces.ite (fun _ => Traces.pure trivial) fun _ => Traces.pure trivial

/-! ## Statements -/

theorem traces_readModifiers (kind : EntityKind) {t : Token} (ht : S.Places τ.read t.position) :
    Traces S True τ (readModifiers kind t) (Beside S) := by
  have hBehind : ∀ (member : Member) (m : Modifiers), Traces S True τ (do
      if !kind.admits member then failAtToken (.keywordUnexpected t.text) t
      let u ← next
      return (m, u)) (Beside S) := fun member m =>
    Traces.ite (fun _ => traces_failAtToken_bind _ ht) fun _ =>
      traces_next.bind fun _ u _ hu => Traces.pure hu
  unfold readModifiers
  refine Traces.ite (fun _ => hBehind _ _) fun _ => Traces.ite (fun _ => hBehind _ _) fun _ =>
    Traces.ite (fun _ => hBehind _ _) fun _ => Traces.ite (fun _ => ?_) fun _ => Traces.pure ht
  refine (hBehind (.definition .interface) { isLocal := true }).bind ?_
  rintro _ ⟨m, u⟩ _ hu
  exact Traces.ite (fun _ => traces_failAtToken_bind _ hu) fun _ => Traces.pure hu

theorem traces_declaratorsWithin (anonymous : Bool) (n : Nat) {d : Declarator}
    (hName : S.Places τ.read d.name.position) (hPosition : S.Places τ.read d.position)
    (comments : List Token) :
    Traces S True τ (declaratorsWithin anonymous n d comments) fun _ _ => True := by
  induction n generalizing τ d comments with
  | zero => exact traces_fail _
  | succ n ih =>
    unfold declaratorsWithin
    refine (traces_readDeclarator hName hPosition comments).bind ?_
    rintro _ ⟨id, t⟩ _ ⟨hId, ht⟩
    have hBehind : ∀ {τ₁ : Trace}, S.Places τ₁.read t.position → Traces S True τ₁ (do
        if t.is "," then
          if d.kind.supportsMultiple then do
            let name ← declarationName
            declaratorsWithin anonymous n { d with name, position := name.position } []
          else failAtToken .multipleUnsupported t
        else if t.is ";" then return
        else failAtToken .declarationUnterminated t) fun _ _ => True := by
      intro τ₁ ht₁
      refine Traces.ite (fun _ => Traces.ite (fun _ => ?_) fun _ => traces_failAtToken _ ht₁)
        fun _ => Traces.ite (fun _ => Traces.pure trivial) fun _ => traces_failAtToken _ ht₁
      exact traces_declarationName.bind fun _ name _ hName => ih hName hName []
    refine Traces.ite (fun _ => ?_) fun _ => hBehind ht
    exact Traces.bind (traces_annotate hId (fun _ => rfl) fun _ => rfl) fun _ _ hLater _ =>
      hBehind (ht.mono hLater)

namespace Statement

variable {st : Statement}

theorem traces_readDeclarators (hPosition : S.Places τ.read st.position) (kind : EntityKind)
    (type : DeclaredType) {name : Token} (hName : S.Places τ.read name.position)
    (anonymous : Bool) :
    Traces S True τ (st.readDeclarators kind type name anonymous) fun _ _ => True :=
  traces_tokensLeft.bind fun _ _ hLater _ =>
    traces_declaratorsWithin anonymous _ (hName.mono hLater) (hPosition.mono hLater) _

theorem traces_declarationKind (defines : Bool) {name : Token}
    (hName : S.Places τ.read name.position) :
    Traces S True τ (st.declarationKind defines name) fun _ _ => True := by
  unfold declarationKind
  refine (traces_peek 0).bind fun _ t hLater ht => ?_
  exact Traces.ite (fun _ => Traces.ite (fun _ => traces_failAtToken _ ht) fun _ =>
      Traces.pure trivial) fun _ => Traces.ite (fun _ => Traces.pure trivial) fun _ =>
    Traces.ite (fun _ => Traces.pure trivial) fun _ => Traces.ite (fun _ => Traces.pure trivial)
      fun _ => traces_failAtToken _ (hName.mono hLater)

theorem traces_readAttributes (hPosition : S.Places τ.read st.position) :
    Traces S True τ st.readAttributes fun _ _ => True := by
  unfold readAttributes
  refine (traces_readType st.owner).bind fun _ type hLater₁ _ => ?_
  exact traces_declarationName.bind fun _ name hLater₂ hName =>
    traces_readDeclarators (hPosition.mono (hLater₁.trans hLater₂)) _ _ hName _

theorem traces_readDeclarations (hPosition : S.Places τ.read st.position) (type : DeclaredType)
    (defines anonymous : Bool) :
    Traces S True τ (st.readDeclarations type defines anonymous) fun _ _ => True := by
  unfold readDeclarations
  refine traces_declarationName.bind fun _ name hLater₁ hName => ?_
  exact (traces_declarationKind defines hName).bind fun _ kind hLater₂ _ =>
    traces_readDeclarators (hPosition.mono (hLater₁.trans hLater₂)) _ _ (hName.mono hLater₂) _

theorem traces_readMember (hPosition : S.Places τ.read st.position) {t : Token}
    (ht : S.Places τ.read t.position) :
    Traces S True τ (st.readMember t) fun _ _ => True := by
  unfold readMember
  dsimp only
  refine Traces.ite (fun _ => traces_failAtToken _ ht) fun _ =>
    Traces.ite (fun _ => traces_failAtToken _ ht) fun _ =>
      Traces.ite (fun _ => Traces.ite (fun _ => traces_failAtToken _ ht) fun _ =>
        traces_readCase st.owner ht _) fun _ =>
        Traces.ite (fun _ => Traces.ite (fun _ => traces_failAtToken _ ht) fun _ =>
          traces_readAttributes hPosition) fun _ => ?_
  refine (traces_putBack ht).bind fun _ _ hLater₁ _ => ?_
  exact (traces_readType st.owner).bind fun _ type hLater₂ _ =>
    traces_readDeclarations (hPosition.mono (hLater₁.trans hLater₂)) _ _ _

theorem traces_definedType (id : EntityId) {t : Token} (ht : S.Places τ.read t.position) :
    Traces S True τ (definedType id t) fun _ _ => True := by
  unfold definedType
  refine (traces_entity id).bind fun _ e hLater _ => ?_
  split
  · exact Traces.pure trivial
  · exact traces_failAtToken _ (ht.mono hLater)

theorem traces_finishDefinition (hPosition : S.Places τ.read st.position) {id : EntityId}
    (hId : τ.Knows id) {t : Token} (ht : S.Places τ.read t.position) :
    Traces S True τ (st.finishDefinition id t) fun _ _ => True := by
  unfold finishDefinition
  refine Traces.ite (fun _ => traces_failAtToken_bind _ ht) fun _ => ?_
  refine (traces_endAt hId t).bind fun _ _ hLater₁ _ => ?_
  refine (traces_entity id).bind fun _ e hLater₂ _ => ?_
  have hLater := hLater₁.trans hLater₂
  have ht₂ := ht.mono hLater
  refine Traces.ite (fun _ => Traces.pure trivial) fun _ =>
    Traces.ite (fun _ => traces_failAtToken _ ht₂) fun _ => ?_
  refine (traces_putBack ht₂).bind fun _ _ hLater₃ _ => ?_
  refine (traces_generateName _).bind fun _ name hLater₄ _ => ?_
  refine (traces_definedType id (ht₂.mono (hLater₃.trans hLater₄))).bind
    fun _ type hLater₅ _ => ?_
  have hLater' := hLater₃.trans (hLater₄.trans hLater₅)
  refine (traces_putBack (t := { t with kind := .identifier, text := name })
    (ht₂.mono hLater')).bind fun _ _ hLater₆ _ => ?_
  exact traces_readDeclarations (hPosition.mono (hLater.trans (hLater'.trans hLater₆))) _ _ _

theorem traces_readBehindDefinition (hPosition : S.Places τ.read st.position) {id : EntityId}
    (hId : τ.Knows id) {t : Token} (ht : S.Places τ.read t.position) :
    Traces S True τ (st.readBehindDefinition id t) fun _ _ => True := by
  unfold readBehindDefinition
  dsimp only
  refine Traces.ite (fun _ => traces_finishDefinition hPosition hId ht) fun _ =>
    Traces.ite (fun _ => traces_failAtToken _ ht) fun _ =>
      Traces.ite (fun _ => traces_failAtToken _ ht) fun _ =>
        Traces.ite (fun _ => traces_failAtToken _ ht) fun _ => ?_
  refine (traces_putBack ht).bind fun _ _ hLater₁ _ => ?_
  exact (traces_definedType id (ht.mono hLater₁)).bind fun _ type hLater₂ _ =>
    traces_readDeclarations (hPosition.mono (hLater₁.trans hLater₂)) _ _ _

end Statement

/-! ## Content -/

theorem traces_readStatement {content : EntityId → Parsing Unit}
    (hContent : ∀ {τ : Trace} (owner : EntityId),
      Traces S True τ (content owner) fun _ _ => True) (owner : EntityId) :
    Traces S True τ (readStatement content owner) fun _ _ => True := by
  unfold readStatement
  refine (traces_entity owner).bind fun _ e _ _ => ?_
  refine traces_commentsBefore.bind fun _ comments _ _ => ?_
  refine traces_next.bind fun _ first _ hFirst => ?_
  refine (traces_readModifiers _ hFirst).bind ?_
  rintro _ ⟨modifiers, t⟩ hLater₁ ht
  refine (traces_definitionKind? t).bind fun _ kind? hLater₂ _ => ?_
  have hFirst₂ := hFirst.mono (hLater₁.trans hLater₂)
  have ht₂ := ht.mono hLater₂
  cases kind? with
  | none => exact Statement.traces_readMember hFirst₂ ht₂
  | some kind =>
    refine Traces.ite (fun _ => traces_failAtToken _ ht₂) fun _ => ?_
    refine (traces_readDefinition hContent owner kind t _ _).bind fun _ id hLater₃ hId => ?_
    refine traces_next.bind fun _ u hLater₄ hu => ?_
    refine (traces_attachAfter (hId.mono hLater₄) _).bind fun _ _ hLater₅ _ => ?_
    exact Statement.traces_readBehindDefinition
      (hFirst₂.mono (hLater₃.trans (hLater₄.trans hLater₅))) (hId.mono (hLater₄.trans hLater₅))
      (hu.mono hLater₅)

/-- The content of an entity is at fault at tokens that were read, and that of the root goes up to
the end of the stream. -/
theorem traces_contentWithin (n : Nat) (owner : EntityId) :
    Traces S True τ (contentWithin n owner) fun τ' _ => owner = Tree.root → S.Closes τ' := by
  induction n generalizing τ owner with
  | zero => exact traces_fail _
  | succ n ih =>
    have hMembers : ∀ {τ : Trace}, (owner = Tree.root → S.Closes τ) →
        Traces S True τ (evaluateMembers owner) fun τ' _ => owner = Tree.root → S.Closes τ' :=
      fun hEnd => (traces_evaluateMembers owner).reads.mono fun _ _ hLater _ hRoot =>
        (hEnd hRoot).mono hLater
    unfold contentWithin
    refine (traces_peekEnd 0).bind fun _ t _ ht => ?_
    refine Traces.ite (fun hFinish => hMembers fun _ => ht.2 hFinish) fun _ => ?_
    refine Traces.ite (fun _ => Traces.ite (fun _ => traces_failAtToken _ ht.1) fun hInner =>
      hMembers fun hRoot => absurd hRoot hInner) fun _ => ?_
    refine (traces_readStatement (fun owner => ?_) owner).bind fun _ _ _ _ => ih owner
    exact (ih owner).mono fun _ _ _ _ => trivial

/-- Everything that is read is at fault at tokens that were read, and is read up to the end of the
stream. -/
theorem traces_readRoot : Traces S True τ readRoot fun τ' _ => S.Closes τ' :=
  traces_tokensLeft.bind fun _ _ _ _ => (traces_contentWithin _ _).mono fun _ _ _ h => h rfl

end IdlReader.Parsing
