import IdlReader.Grammar.Case
import IdlReader.Proofs.Trace.Evaluation

/-!
# Faults of declarations

Names, types and what stands behind the names of declarations: every fault is found at a token
that was read, or it is the one that ended the stream.

* `traces_readScopedName`: names; the last token of a name was read.
* `traces_readType`: types.
* `traces_readDeclarator`, `traces_readCase`: declarations.
-/

namespace IdlReader.Parsing

variable {S : Stream} {τ : Trace}

/-- Whether the token that an action gives besides something else was read. -/
abbrev Beside {α : Type} (S : Stream) (τ : Trace) (r : α × Token) : Prop :=
  S.Places τ.read r.2.position

/-- Whether the entity that an action gives is no recorded directive and the token behind it was
read. -/
abbrev Declared (S : Stream) (τ : Trace) (r : EntityId × Token) : Prop :=
  τ.Knows r.1 ∧ Beside S τ r

/-! ## Names -/

theorem traces_scopedNameRest (n : Nat) (name : String) {last : Token}
    (hLast : S.Places τ.read last.position) :
    Traces S True τ (scopedNameRest n name last) (Beside S) := by
  induction n generalizing τ name last with
  | zero => exact traces_fail _
  | succ n ih =>
    unfold scopedNameRest
    have hSegment : ∀ (τ₁ : Trace) (name : String), Traces S True τ₁ (do
        let t ← next
        if t.isIdentifier then scopedNameRest n (name ++ t.text) t
        else failAtToken .identifierExpected t) (Beside S) :=
      fun _ _ => traces_next.bind fun _ t _ ht =>
        Traces.ite (fun _ => ih _ ht) fun _ => traces_failAtToken _ ht
    refine Traces.ite (fun _ => hSegment τ name) fun _ => ?_
    refine traces_next.bind fun τ₁ t hLater₁ ht => ?_
    refine Traces.ite (fun _ => hSegment τ₁ (name ++ "::")) fun _ => ?_
    exact (traces_putBack ht).bind fun _ _ hLater₂ _ =>
      Traces.pure (hLast.mono (hLater₁.trans hLater₂))

theorem traces_readScopedName {first : Token} (h : S.Places τ.read first.position) :
    Traces S True τ (readScopedName first) (Beside S) :=
  traces_tokensLeft.bind fun _ _ hLater _ => traces_scopedNameRest _ _ (h.mono hLater)

theorem traces_readTypeName (scope : EntityId) {first : Token}
    (h : S.Places τ.read first.position) :
    Traces S True τ (readTypeName scope first) fun _ _ => True := by
  unfold readTypeName
  refine (traces_readScopedName h).bind ?_
  rintro τ₁ ⟨name, last⟩ _ hLast
  refine traces_tree.bind fun τ₂ t hLater _ => ?_
  split
  · exact Traces.pure trivial
  · exact traces_failAtToken _ (hLast.mono hLater)

theorem traces_expectMark (text : String) (cause : Cause) :
    Traces S True τ (expectMark text cause) fun _ _ => True :=
  traces_next.bind fun _ _ _ ht =>
    Traces.ite (fun _ => Traces.pure trivial) fun _ => traces_failAtToken cause ht

theorem traces_takeIf (text : String) : Traces S True τ (takeIf text) fun _ _ => True :=
  (traces_peek 0).bind fun _ _ _ _ => Traces.ite
    (fun _ => traces_next.bind fun _ _ _ _ => Traces.pure trivial) fun _ => Traces.pure trivial

/-! ## Types -/

theorem traces_templateNumber (least : Nat) (cause : Cause) :
    Traces S True τ (templateNumber least cause) fun _ _ => True := by
  unfold templateNumber
  refine traces_next.bind fun τ₁ t _ ht => ?_
  split
  · refine (traces_ofLiteral ht).bind fun τ₂ c hLater _ => ?_
    have ht₂ := ht.mono hLater
    refine Traces.ite (fun _ => traces_failAtToken _ ht₂) fun _ => ?_
    split
    · exact Traces.ite (fun _ => Traces.pure trivial) fun _ => traces_failAtToken _ ht₂
    · exact traces_failAtToken _ ht₂
  · exact traces_failAtToken _ ht

theorem traces_closeTemplate (cause : Cause) :
    Traces S True τ (closeTemplate cause) fun _ _ => True := by
  unfold closeTemplate
  refine traces_next.bind fun τ₁ t _ ht => Traces.ite (fun _ => ?_) fun _ =>
    Traces.ite (fun _ => Traces.pure trivial) fun _ => traces_failAtToken _ ht
  -- The second half of the mark stands on the line of the first one.
  exact traces_putBack ht

theorem traces_fixedBounds : Traces S True τ fixedBounds fun _ _ => True := by
  unfold fixedBounds
  refine (traces_templateNumber _ _).bind fun _ length _ _ => ?_
  refine (traces_expectMark _ _).bind fun _ _ _ _ => ?_
  refine (traces_peek 0).bind fun _ t _ ht => ?_
  refine (traces_templateNumber _ _).bind fun _ decimals hLater _ => ?_
  refine Traces.ite (fun _ => traces_failAtToken_bind _ (ht.mono hLater)) fun _ => ?_
  exact (traces_closeTemplate _).bind fun _ _ _ _ => Traces.pure trivial

theorem traces_bitfieldSection {element : Parsing DeclaredType}
    (hElement : ∀ {τ}, Traces S True τ element fun _ _ => True) (type : DeclaredType) :
    Traces S True τ (bitfieldSection element type) fun _ _ => True := by
  unfold bitfieldSection
  refine (traces_expectMark _ _).bind fun _ _ _ _ => ?_
  refine (traces_peek 0).bind fun _ t _ ht => ?_
  refine (traces_templateNumber _ _).bind fun _ bits hLater₁ _ => ?_
  have ht₁ := ht.mono hLater₁
  refine Traces.ite (fun _ => traces_failAtToken_bind _ ht₁) fun _ => ?_
  refine (traces_takeIf _).bind fun _ more hLater₂ _ => ?_
  have ht₂ := ht₁.mono hLater₂
  have hClose : ∀ {τ} (value : Option DeclaredType), Traces S True τ (do
      closeTemplate .templateClose
      return { type with length := bits, value }) fun _ (_ : DeclaredType) => True :=
    fun _ => (traces_closeTemplate _).bind fun _ _ _ _ => Traces.pure trivial
  refine Traces.ite (fun _ => ?_) fun _ => hClose _
  refine hElement.bind fun _ value hLater₃ _ => ?_
  exact Traces.ite (fun _ => hClose _) fun _ =>
    traces_failAtToken_bind _ (ht₂.mono hLater₃)

theorem traces_containerSection {element : Parsing DeclaredType}
    (hElement : ∀ {τ}, Traces S True τ element fun _ _ => True) (type : DeclaredType) :
    Traces S True τ (containerSection element type) fun _ _ => True := by
  unfold containerSection
  refine (traces_expectMark _ _).bind fun _ _ _ _ => ?_
  have hClose : ∀ {τ} (key value : Option DeclaredType) (length : Nat), Traces S True τ (do
      closeTemplate .templateClose
      return { type with length, key, value }) fun _ (_ : DeclaredType) => True :=
    fun _ _ _ => (traces_closeTemplate _).bind fun _ _ _ _ => Traces.pure trivial
  have hValue : ∀ {τ} (key : Option DeclaredType), Traces S True τ (do
      let value ← element
      let length ← if ← takeIf "," then templateNumber 1 .sizeNumber else pure 0
      closeTemplate .templateClose
      return { type with length, key, value := some value }) fun _ (_ : DeclaredType) => True := by
    intro τ key
    refine hElement.bind fun _ value _ _ => (traces_takeIf _).bind fun _ _ _ _ => ?_
    refine Traces.ite (fun _ => ?_) fun _ => hClose _ _ _
    exact (traces_templateNumber _ _).bind fun _ _ _ _ => hClose _ _ _
  refine Traces.ite (fun _ => ?_) fun _ => hValue none
  exact hElement.bind fun _ key _ _ => (traces_expectMark _ _).bind fun _ _ _ _ =>
    hValue (some key)

theorem traces_takeWord (text : String) :
    Traces S True τ (baseTypeText.takeWord text) fun _ _ => True :=
  traces_next.bind fun _ _ _ ht => Traces.ite (fun _ => Traces.pure trivial) fun _ =>
    (traces_putBack ht).bind fun _ _ _ _ => Traces.pure trivial

theorem traces_baseTypeText (t : Token) :
    Traces S True τ (baseTypeText t) fun _ _ => True := by
  unfold baseTypeText
  refine Traces.ite (fun _ => ?_) fun _ => Traces.ite (fun _ => ?_) fun _ => Traces.pure trivial
  · refine traces_next.bind fun _ u _ hu => Traces.ite (fun _ => Traces.pure trivial) fun _ => ?_
    exact (traces_putBack hu).bind fun _ _ _ _ => Traces.pure trivial
  · refine traces_next.bind fun _ u _ hu => Traces.ite (fun _ => Traces.pure trivial) fun _ => ?_
    refine Traces.ite (fun _ => ?_) fun _ => traces_failAtToken _ hu
    exact (traces_takeWord _).bind fun _ _ _ _ =>
      Traces.ite (fun _ => Traces.pure trivial) fun _ => Traces.pure trivial

theorem traces_elaboratedType (scope : EntityId) (base : BaseType) (kind : EntityKind)
    {keyword : Token} (hKeyword : S.Places τ.read keyword.position) :
    Traces S True τ (elaboratedType scope base kind keyword) fun _ _ => True := by
  unfold elaboratedType
  refine traces_next.bind fun _ first hLater₁ hFirst => ?_
  refine (traces_readTypeName scope hFirst).bind ?_
  rintro _ ⟨name, id⟩ hLater₂ _
  refine traces_tree.bind fun _ t hLater₃ _ => ?_
  exact Traces.ite (fun _ => traces_failAtToken_bind _
    (hKeyword.mono (hLater₁.trans (hLater₂.trans hLater₃)))) fun _ => Traces.pure trivial

theorem traces_namedType (scope : EntityId) {first : Token}
    (hFirst : S.Places τ.read first.position) :
    Traces S True τ (namedType scope first) fun _ _ => True := by
  unfold namedType
  refine (traces_readTypeName scope hFirst).bind ?_
  rintro _ ⟨name, id⟩ hLater₁ _
  refine (traces_entity id).bind fun _ e hLater₂ _ => ?_
  split
  · exact Traces.pure trivial
  · exact traces_failAtToken _ (hFirst.mono (hLater₁.trans hLater₂))

theorem traces_baseType {element : Parsing DeclaredType}
    (hElement : ∀ {τ}, Traces S True τ element fun _ _ => True) (scope : EntityId)
    {keyword : Token} (hKeyword : S.Places τ.read keyword.position) (base : BaseType)
    (text : String) :
    Traces S True τ (baseType element scope keyword base text) fun _ _ => True := by
  unfold baseType
  dsimp only
  split
  · exact traces_elaboratedType scope base _ hKeyword
  · refine Traces.ite (fun _ => ?_) fun _ => Traces.ite (fun _ => ?_) fun _ =>
      Traces.ite (fun _ => traces_bitfieldSection hElement _) fun _ =>
        Traces.ite (fun _ => traces_containerSection hElement _) fun _ => Traces.pure trivial
    · refine (traces_takeIf _).bind fun _ _ _ _ =>
        Traces.ite (fun _ => ?_) fun _ => Traces.pure trivial
      exact traces_fixedBounds.bind fun _ _ _ _ => Traces.pure trivial
    · refine (traces_takeIf _).bind fun _ _ _ _ =>
        Traces.ite (fun _ => ?_) fun _ => Traces.pure trivial
      exact (traces_templateNumber _ _).bind fun _ _ _ _ =>
        (traces_closeTemplate _).bind fun _ _ _ _ => Traces.pure trivial

theorem traces_typeWithin (scope : EntityId) (n : Nat) :
    Traces S True τ (typeWithin scope n) fun _ _ => True := by
  induction n generalizing τ with
  | zero => exact traces_fail _
  | succ n ih =>
    unfold typeWithin
    refine traces_next.bind fun _ t _ ht => ?_
    refine Traces.ite (fun _ => traces_failAtToken_bind _ ht) fun _ => ?_
    refine (traces_baseTypeText t).bind fun _ text hLater₁ _ => ?_
    refine Traces.get (fun _ _ => rfl) fun s _ => ?_
    have ht₁ := ht.mono hLater₁
    split
    · exact traces_baseType ih scope ht₁ _ _
    · exact traces_namedType scope ht₁

theorem traces_readType (scope : EntityId) : Traces S True τ (readType scope) fun _ _ => True :=
  traces_tokensLeft.bind fun _ _ _ _ => traces_typeWithin scope _

/-! ## Dimensions and assignments -/

theorem traces_declarationName :
    Traces S True τ declarationName fun τ' t => S.Places τ'.read t.position := by
  unfold declarationName
  refine traces_next.bind fun _ t _ ht => Traces.get (fun _ _ => rfl) fun s _ => ?_
  exact Traces.ite (fun _ => Traces.ite (fun _ => Traces.pure ht) fun _ =>
    traces_failAtToken _ ht) fun _ => Traces.ite (fun _ => Traces.pure ht) fun _ =>
    traces_failAtToken _ ht

theorem traces_dimensionTokens (n depth : Nat) :
    Traces S True τ (dimensionTokens n depth) fun τ' ts => S.Holds τ'.read ts := by
  induction n generalizing τ depth with
  | zero => exact traces_fail _
  | succ n ih =>
    unfold dimensionTokens
    refine traces_next.bind fun _ t _ ht => ?_
    refine Traces.ite (fun _ => traces_failAtToken _ ht) fun _ =>
      Traces.ite (fun _ => traces_failAtToken _ ht) fun _ =>
        Traces.ite (fun _ => Traces.pure Stream.holds_nil) fun _ => ?_
    exact (ih _).bind fun _ ts hLater hts =>
      Traces.pure (Stream.holds_cons.mpr ⟨ht.mono hLater, hts⟩)

theorem traces_dimensionsWithin (kind : EntityKind) (n : Nat) (further : Bool) :
    Traces S True τ (dimensionsWithin kind n further) fun τ' dimensions =>
      ∀ ts ∈ dimensions, S.Holds τ'.read ts := by
  induction n generalizing τ further with
  | zero => exact traces_fail _
  | succ n ih =>
    unfold dimensionsWithin
    refine (traces_peek 0).bind fun _ t _ _ => ?_
    refine Traces.ite (fun _ => Traces.pure fun _ h => absurd h List.not_mem_nil) fun _ => ?_
    refine traces_next.bind fun _ opening _ hOpening => Traces.get (fun _ _ => rfl) fun s _ => ?_
    refine Traces.ite (fun _ => traces_failAtToken _ hOpening) fun _ =>
      Traces.ite (fun _ => traces_failAtToken _ hOpening) fun _ => ?_
    refine traces_tokensLeft.bind fun _ budget _ _ => ?_
    refine (traces_dimensionTokens _ _).bind fun _ d _ hd => ?_
    refine (ih true).bind fun _ ds hLater₂ hds => Traces.pure ?_
    exact List.forall_mem_cons.mpr ⟨hd.mono hLater₂, hds⟩

theorem traces_readDimensions (kind : EntityKind) :
    Traces S True τ (readDimensions kind) fun τ' dimensions =>
      ∀ ts ∈ dimensions, S.Holds τ'.read ts :=
  traces_tokensLeft.bind fun _ _ _ _ => traces_dimensionsWithin kind _ _

/-- Whether the tokens of an assignment and the token behind it were read. -/
abbrev Assigned (S : Stream) (τ : Trace) (r : List Token × Token) : Prop :=
  S.Holds τ.read r.1 ∧ S.Places τ.read r.2.position

theorem traces_assignmentWithin (n depth : Nat) :
    Traces S True τ (assignmentWithin n depth) (Assigned S) := by
  induction n generalizing τ depth with
  | zero => exact traces_fail _
  | succ n ih =>
    unfold assignmentWithin
    refine traces_next.bind fun _ t _ ht => ?_
    refine Traces.ite (fun _ => traces_failAtToken _ ht) fun _ =>
      Traces.ite (fun _ => Traces.pure ⟨Stream.holds_nil, ht⟩) fun _ => ?_
    refine (ih _).bind ?_
    rintro _ ⟨ts, terminator⟩ hLater ⟨hts, hTerminator⟩
    exact Traces.pure ⟨Stream.holds_cons.mpr ⟨ht.mono hLater, hts⟩, hTerminator⟩

theorem traces_readAssignment : Traces S True τ readAssignment (Assigned S) :=
  traces_tokensLeft.bind fun _ _ _ _ => traces_assignmentWithin _ _

/-! ## Parameters -/

theorem traces_readParameter (operation : EntityId) :
    Traces S True τ (readParameter operation) fun _ _ => True := by
  unfold readParameter
  refine traces_next.bind fun _ t _ ht => ?_
  split
  · exact traces_failAtToken _ ht
  · refine (traces_readType operation).bind fun _ type hLater₁ _ => ?_
    refine traces_declarationName.bind fun _ name hLater₂ hName => ?_
    refine Traces.ite (fun _ => traces_failAtToken_bind _ hName) fun _ => ?_
    refine (traces_addEntity rfl ?_).bind fun _ id _ hNew => ?_
    · intro d hd
      cases hd
      exact ⟨ht.mono (hLater₁.trans hLater₂), fun _ h => absurd h List.not_mem_nil,
        Stream.holds_nil, fun _ h => absurd h List.not_mem_nil⟩
    refine (traces_nameEntity hNew _ _ _).bind fun _ id _ _ => ?_
    refine (traces_readDimensions _).bind fun _ dimensions _ hDimensions => ?_
    refine Traces.bind (traces_modifyDeclaration id fun d hd =>
      ⟨hDimensions, hd.assignment, hd.labels⟩) fun _ _ _ _ => Traces.pure trivial

theorem traces_parametersWithin (operation : EntityId) (n : Nat) :
    Traces S True τ (parametersWithin operation n) fun _ _ => True := by
  induction n generalizing τ with
  | zero => exact traces_fail _
  | succ n ih =>
    unfold parametersWithin
    refine (traces_readParameter operation).bind fun _ id _ _ => ?_
    refine traces_next.bind fun _ t _ ht => Traces.ite (fun _ => Traces.pure trivial) fun _ =>
      Traces.ite (fun _ => ?_) fun _ => traces_failAtToken _ ht
    exact ih.bind fun _ _ _ _ => Traces.pure trivial

theorem traces_readParameters (operation : EntityId) :
    Traces S True τ (readParameters operation) fun _ _ => True :=
  (traces_takeIf _).bind fun _ _ _ _ => Traces.ite (fun _ => Traces.pure trivial) fun _ =>
    traces_tokensLeft.bind fun _ _ _ _ => traces_parametersWithin operation _

/-! ## Exceptions -/

theorem traces_exceptionsWithin (owner : EntityId) (n : Nat) :
    Traces S True τ (exceptionsWithin owner n) fun _ _ => True := by
  induction n generalizing τ with
  | zero => exact traces_fail _
  | succ n ih =>
    unfold exceptionsWithin
    refine traces_next.bind fun _ first _ hFirst => (traces_readScopedName hFirst).bind ?_
    rintro _ ⟨name, last⟩ _ hLast
    refine traces_tree.bind fun _ t hLater _ => ?_
    have hLast₁ := hLast.mono hLater
    split
    · exact traces_failAtToken _ hLast₁
    · refine Traces.ite (fun _ => traces_failAtToken_bind _ hLast₁) fun _ => ?_
      refine traces_next.bind fun _ u _ hu => Traces.ite (fun _ => Traces.pure trivial) fun _ =>
        Traces.ite (fun _ => ?_) fun _ => traces_failAtToken _ hu
      exact ih.bind fun _ _ _ _ => Traces.pure trivial

theorem traces_readExceptions (owner : EntityId) :
    Traces S True τ (readExceptions owner) fun _ _ => True := by
  unfold readExceptions
  refine traces_next.bind fun _ t _ ht =>
    Traces.ite (fun _ => traces_failAtToken_bind _ ht) fun _ => ?_
  refine (traces_peek 0).bind fun _ u hLater _ =>
    Traces.ite (fun _ => traces_failAtToken_bind _ (ht.mono hLater)) fun _ => ?_
  exact traces_tokensLeft.bind fun _ _ _ _ => traces_exceptionsWithin owner _

theorem traces_raisesWithin (owner : EntityId) (kind : EntityKind) (readonly : Bool) (n : Nat)
    (r : Raises) {t : Token} (ht : S.Places τ.read t.position) :
    Traces S True τ (raisesWithin owner kind readonly n r t) (Beside S) := by
  induction n generalizing τ r t with
  | zero => exact traces_fail _
  | succ n ih =>
    unfold raisesWithin
    split
    · exact traces_failAtToken _ ht
    · exact Traces.pure ht
    · refine Traces.ite (fun _ => traces_failAtToken_bind _ ht) fun _ => ?_
      exact (traces_readExceptions owner).bind fun _ ids _ _ =>
        traces_next.bind fun _ u _ hu => ih _ hu

theorem traces_readRaises (owner : EntityId) (kind : EntityKind) (readonly : Bool) {t : Token}
    (ht : S.Places τ.read t.position) :
    Traces S True τ (readRaises owner kind readonly t) (Beside S) :=
  Traces.ite (fun _ => traces_tokensLeft.bind fun _ _ hLater _ =>
    traces_raisesWithin owner kind readonly _ _ (ht.mono hLater)) fun _ => Traces.pure ht

/-! ## Declarators -/

theorem traces_readSignature (operation : EntityId) :
    Traces S True τ (readSignature operation) fun τ' r =>
      S.Places τ'.read r.2.2.position := by
  unfold readSignature
  refine (traces_expectMark _ _).bind fun _ _ _ _ => ?_
  refine (traces_readParameters operation).bind fun _ parameters _ _ => ?_
  refine traces_next.bind fun _ t _ ht => Traces.ite (fun _ => ?_) fun _ => Traces.pure ht
  exact traces_next.bind fun _ u _ hu => Traces.pure hu

theorem traces_readInitializer (kind : EntityKind) {t : Token} (ht : S.Places τ.read t.position) :
    Traces S True τ (readInitializer kind t) (Assigned S) :=
  Traces.ite (fun _ => Traces.ite (fun _ => traces_readAssignment) fun _ =>
      traces_failAtToken _ ht) fun _ => Traces.ite (fun _ => traces_failAtToken _ ht) fun _ =>
    Traces.pure ⟨Stream.holds_nil, ht⟩

theorem traces_declare {d : Declarator} (hName : S.Places τ.read d.name.position)
    (hPosition : S.Places τ.read d.position) (comments : List Token) :
    Traces S True τ (declare d comments) fun τ' id => τ'.Knows id := by
  unfold declare
  refine Traces.ite (fun _ => traces_failAtToken_bind _ hName) fun _ =>
    Traces.ite (fun _ => traces_failAtToken_bind _ hName) fun _ => ?_
  refine (traces_addEntity rfl ?_).bind fun _ id _ hNew => ?_
  · intro e he
    cases he
    exact ⟨hPosition, fun _ h => absurd h List.not_mem_nil, Stream.holds_nil,
      fun _ h => absurd h List.not_mem_nil⟩
  exact (traces_nameEntity hNew _ _ _).bind fun _ id _ hId =>
    (traces_attachBefore hId comments).bind fun _ _ hLater _ => Traces.pure (hId.mono hLater)

/-- What follows the dimensions and the signature of a declaration. -/
theorem traces_behindDeclarator (d : Declarator) {id : EntityId} (hId : τ.Knows id)
    {dimensions : List (List Token)}
    (hDimensions : ∀ ts ∈ dimensions, S.Holds τ.read ts) (parameters : List EntityId)
    (constOperation : Bool) {t : Token} (ht : S.Places τ.read t.position) :
    Traces S True τ (do
      let (r, t) ← readRaises d.owner d.kind d.readonly t
      let (assignment, t) ← readInitializer d.kind t
      modifyDeclaration id fun e =>
        { e with
          dimensions, parameters, constOperation, assignment
          raises := r.raises
          getRaises := r.getRaises
          setRaises := r.setRaises }
      attachAfter id t.position.line
      endAt id t
      return (id, t)) (Declared S) := by
  refine (traces_readRaises d.owner d.kind d.readonly ht).bind ?_
  rintro _ ⟨r, u⟩ hLater₁ hu
  refine (traces_readInitializer d.kind hu).bind ?_
  rintro _ ⟨assignment, v⟩ hLater₂ ⟨hAssignment, hv⟩
  have hDimensions₂ := fun ts hts => (hDimensions ts hts).mono (hLater₁.trans hLater₂)
  refine Traces.bind (traces_modifyDeclaration id fun e he =>
    ⟨hDimensions₂, hAssignment, he.labels⟩) fun _ _ hLater₃ _ => ?_
  have hId₃ := hId.mono (hLater₁.trans (hLater₂.trans hLater₃))
  refine (traces_attachAfter hId₃ _).bind fun _ _ hLater₄ _ => ?_
  refine (traces_endAt (hId₃.mono hLater₄) v).bind fun _ _ hLater₅ _ => Traces.pure ?_
  exact ⟨hId₃.mono (hLater₄.trans hLater₅), hv.mono (hLater₃.trans (hLater₄.trans hLater₅))⟩

theorem traces_readDeclarator {d : Declarator} (hName : S.Places τ.read d.name.position)
    (hPosition : S.Places τ.read d.position) (comments : List Token) :
    Traces S True τ (readDeclarator d comments) (Declared S) := by
  unfold readDeclarator
  refine (traces_declare hName hPosition comments).bind fun _ id _ hId => ?_
  by_cases hOperation : d.kind = .operation
  · simp only [if_pos hOperation]
    refine (traces_readSignature id).bind ?_
    rintro _ ⟨parameters, constOperation, t⟩ hLater ht
    exact traces_behindDeclarator d (hId.mono hLater) (fun _ h => absurd h List.not_mem_nil) _ _ ht
  · simp only [if_neg hOperation]
    refine (traces_readDimensions d.kind).bind fun _ dimensions hLater₁ hDimensions => ?_
    refine traces_next.bind fun _ t hLater₂ ht => ?_
    exact traces_behindDeclarator d (hId.mono (hLater₁.trans hLater₂))
      (fun ts hts => (hDimensions ts hts).mono hLater₂) _ _ ht

/-! ## Cases -/

theorem traces_labelTokens (isDefault : Bool) (n : Nat) :
    Traces S True τ (labelTokens isDefault n) fun τ' ts => S.Holds τ'.read ts := by
  induction n generalizing τ with
  | zero => exact traces_fail _
  | succ n ih =>
    unfold labelTokens
    refine traces_next.bind fun _ t _ ht => ?_
    refine Traces.ite (fun _ => Traces.pure Stream.holds_nil) fun _ =>
      Traces.ite (fun _ => traces_failAtToken _ ht) fun _ =>
        Traces.ite (fun _ => traces_failAtToken _ ht) fun _ => ?_
    exact ih.bind fun _ ts hLater hts =>
      Traces.pure (Stream.holds_cons.mpr ⟨ht.mono hLater, hts⟩)

theorem traces_readLabel {label : Token} (h : S.Places τ.read label.position) :
    Traces S True τ (readLabel label) fun τ' ts => S.Holds τ'.read ts := by
  unfold readLabel
  refine traces_tokensLeft.bind fun _ budget hLater₁ _ => ?_
  refine (traces_labelTokens _ _).bind fun _ ts hLater₂ hts => ?_
  exact Traces.ite (fun _ => traces_failAtToken_bind _ (h.mono (hLater₁.trans hLater₂))) fun _ =>
    Traces.pure hts

theorem traces_followsSoon (text : String) :
    Traces S True τ (followsSoon text) fun _ _ => True :=
  (traces_peek 1).bind fun _ _ _ _ => Traces.ite (fun _ => Traces.pure trivial) fun _ =>
    (traces_peek 2).bind fun _ _ _ _ => Traces.pure trivial

theorem traces_definesNext (t : Token) : Traces S True τ (definesNext t) fun _ _ => True := by
  unfold definesNext
  have hUnion : ∀ {τ} (struct : Bool), Traces S True τ
      (if struct then return true else if t.is "union" then followsSoon "switch" else return false)
      fun _ _ => True := fun struct =>
    Traces.ite (fun _ => Traces.pure trivial) fun _ =>
      Traces.ite (fun _ => traces_followsSoon _) fun _ => Traces.pure trivial
  have hStruct : Traces S True τ
      (if t.is "struct" then followsSoon "\x7b" else pure false) fun _ _ => True :=
    Traces.ite (fun _ => traces_followsSoon _) fun _ => Traces.pure trivial
  exact hStruct.bind fun _ struct _ _ => hUnion struct

theorem traces_declareLabel (owner : EntityId) {label : Token}
    (h : S.Places τ.read label.position) (comments : List Token) :
    Traces S True τ (declareLabel owner label comments) fun _ _ => True := by
  unfold declareLabel
  refine (traces_addEntity rfl ?_).bind fun _ id _ hNew => ?_
  · intro d hd
    cases hd
    exact ⟨h, fun _ h => absurd h List.not_mem_nil, Stream.holds_nil,
      fun _ h => absurd h List.not_mem_nil⟩
  refine (traces_generateName _).bind fun _ name hLater _ => ?_
  refine (traces_nameEntity (hNew.mono hLater) _ _ _).bind fun _ id _ hId => ?_
  exact (traces_attachBefore hId comments).bind fun _ _ hLater _ =>
    (traces_attachAfter (hId.mono hLater) _).bind fun _ _ _ _ => Traces.pure trivial

theorem traces_readLabelled (owner : EntityId) {label : Token}
    (h : S.Places τ.read label.position) (comments : List Token) :
    Traces S True τ (readLabelled owner label comments) fun _ _ => True := by
  unfold readLabelled
  refine (traces_readType owner).bind fun _ type hLater₁ _ => ?_
  refine traces_declarationName.bind fun _ name hLater₂ hName => ?_
  refine (traces_readDeclarator hName (h.mono (hLater₁.trans hLater₂)) comments).bind ?_
  rintro _ ⟨id, t⟩ _ ⟨-, ht⟩
  exact Traces.ite (fun _ => Traces.pure trivial) fun _ => traces_failAtToken _ ht

theorem traces_readCase (owner : EntityId) {label : Token} (h : S.Places τ.read label.position)
    (comments : List Token) :
    Traces S True τ (readCase owner label comments) fun _ _ => True := by
  unfold readCase
  refine (traces_readLabel h).bind fun _ tokens hLater₁ hTokens => ?_
  refine (traces_peek 0).bind fun _ t hLater₂ ht => ?_
  refine (traces_definesNext t).bind fun _ defines hLater₃ _ => ?_
  refine Traces.ite (fun _ => traces_failAtToken_bind _ (ht.mono hLater₃)) fun _ => ?_
  have h₃ := h.mono (hLater₁.trans (hLater₂.trans hLater₃))
  have hTokens₃ := hTokens.mono (hLater₂.trans hLater₃)
  have hLabel : ∀ {τ₄ : Trace}, S.Holds τ₄.read tokens → ∀ id, Traces S True τ₄
      (modifyDeclaration id fun d =>
        { d with
          defaultCase := label.is "default"
          labels := if label.is "default" then d.labels else [tokens] }) fun _ _ => True := by
    intro τ₄ hTokens₄ id
    refine traces_modifyDeclaration id fun d hd => ⟨hd.dimensions, hd.assignment, ?_⟩
    dsimp only
    split
    · exact hd.labels
    · exact fun ts hts => List.mem_singleton.mp hts ▸ hTokens₄
  refine Traces.ite (fun _ => ?_) fun _ => ?_
  · exact (traces_declareLabel owner h₃ comments).bind fun _ id hLater₄ _ =>
      hLabel (hTokens₃.mono hLater₄) id
  · exact (traces_readLabelled owner h₃ comments).bind fun _ id hLater₄ _ =>
      hLabel (hTokens₃.mono hLater₄) id

end IdlReader.Parsing
