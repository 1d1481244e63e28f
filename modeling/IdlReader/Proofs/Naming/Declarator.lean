import IdlReader.Proofs.Grammar.DeclaredType
import IdlReader.Proofs.Naming.Session

/-!
# Names of declarations

Types, dimensions and what else stands around the names of declarations leaves the names that are
known. A declaration gets the word that was read for it, or the name that was generated for it.

* `leaves_readType`: types.
* `leaves_declarationName`: names are words of the source.
* `completes_readDeclarator`, `leaves_readCase`: declarations.
-/

namespace IdlReader.Parsing

variable {V : Vocabulary} {ω : Pending}

/-! ## Names of types -/

theorem leaves_scopedNameRest (n : Nat) (name : String) (last : Token) :
    Leaves V ω (scopedNameRest n name last) fun _ => True := by
  induction n generalizing name last with
  | zero => exact registers_exhausted
  | succ n ih =>
    unfold scopedNameRest
    have hSegment : ∀ name : String, Leaves V ω (do
        let t ← next
        if t.isIdentifier then scopedNameRest n (name ++ t.text) t
        else failAtToken .identifierExpected t) fun _ => True :=
      fun _ => leaves_next.bind fun _ _ => Registers.ite (fun _ => ih _ _) fun _ =>
        registers_failAtToken trivial
    refine Registers.ite (fun _ => hSegment name) fun _ => ?_
    refine leaves_next.bind fun t ht => Registers.ite (fun _ => hSegment (name ++ "::")) fun _ => ?_
    exact (leaves_putBack ht).bind fun _ _ => Leaves.pure trivial

theorem leaves_readScopedName (first : Token) :
    Leaves V ω (readScopedName first) fun _ => True :=
  leaves_tokensLeft.bind fun _ _ => leaves_scopedNameRest _ _ _

theorem leaves_readTypeName (scope : EntityId) (first : Token) :
    Leaves V ω (readTypeName scope first) fun _ => True := by
  unfold readTypeName
  refine (leaves_readScopedName first).bind ?_
  rintro ⟨name, last⟩ _
  refine Registers.tree fun t => ?_
  split
  · exact Leaves.pure trivial
  · exact registers_failAtToken trivial

theorem leaves_expectMark {text : String} {cause : Cause} (h : cause.Plain) :
    Leaves V ω (expectMark text cause) fun _ => True :=
  leaves_next.bind fun _ _ => Registers.ite (fun _ => Leaves.pure trivial) fun _ =>
    registers_failAtToken h

theorem leaves_takeIf (text : String) : Leaves V ω (takeIf text) fun _ => True :=
  (leaves_peek 0).bind fun _ _ => Registers.ite
    (fun _ => leaves_next.bind fun _ _ => Leaves.pure trivial) fun _ => Leaves.pure trivial

/-! ## Types -/

theorem leaves_templateNumber {least : Nat} {cause : Cause} (h : cause.Plain) :
    Leaves V ω (templateNumber least cause) fun _ => True := by
  unfold templateNumber
  refine leaves_next.bind fun t _ => ?_
  split
  · refine (leaves_ofLiteral t).bind fun c _ => ?_
    refine Registers.ite (fun _ => registers_failAtToken h) fun _ => ?_
    split
    · exact Registers.ite (fun _ => Leaves.pure trivial) fun _ => registers_failAtToken h
    · exact registers_failAtToken h
  · exact registers_failAtToken h

theorem leaves_closeTemplate {cause : Cause} (h : cause.Plain) :
    Leaves V ω (closeTemplate cause) fun _ => True := by
  unfold closeTemplate
  refine leaves_next.bind fun t ht => Registers.ite (fun hDouble => ?_) fun _ =>
    Registers.ite (fun _ => Leaves.pure trivial) fun _ => registers_failAtToken h
  exact leaves_putBack (Vocabulary.admits_of_not_isWord (isWord_half ht.lexical hDouble))

theorem leaves_fixedBounds : Leaves V ω fixedBounds fun _ => True := by
  unfold fixedBounds
  refine Leaves.bind (leaves_templateNumber trivial) fun length _ => ?_
  refine Leaves.bind (leaves_expectMark trivial) fun _ _ => (leaves_peek 0).bind fun t _ => ?_
  refine Leaves.bind (leaves_templateNumber trivial) fun decimals _ => ?_
  refine Registers.ite (fun _ => registers_failAtToken_bind trivial) fun _ => ?_
  exact Leaves.bind (leaves_closeTemplate trivial) fun _ _ => Leaves.pure trivial

section Elements

variable {element : Parsing DeclaredType} (hElement : Leaves V ω element fun _ => True)

include hElement

theorem leaves_bitfieldSection (type : DeclaredType) :
    Leaves V ω (bitfieldSection element type) fun _ => True := by
  unfold bitfieldSection
  refine Leaves.bind (leaves_expectMark trivial) fun _ _ => (leaves_peek 0).bind fun t _ => ?_
  refine Leaves.bind (leaves_templateNumber trivial) fun bits _ => ?_
  refine Registers.ite (fun _ => registers_failAtToken_bind trivial) fun _ => ?_
  have hClose : ∀ value : Option DeclaredType, Leaves V ω (do
      closeTemplate .templateClose
      return { type with length := bits, value }) fun _ => True :=
    fun _ => Leaves.bind (leaves_closeTemplate trivial) fun _ _ => Leaves.pure trivial
  refine (leaves_takeIf _).bind fun more _ => Registers.ite (fun _ => ?_) fun _ => hClose none
  refine hElement.bind fun value _ => Registers.ite (fun _ => hClose _) fun _ => ?_
  exact registers_failAtToken_bind trivial

theorem leaves_containerSection (type : DeclaredType) :
    Leaves V ω (containerSection element type) fun _ => True := by
  unfold containerSection
  refine Leaves.bind (leaves_expectMark trivial) fun _ _ => ?_
  have hClose : ∀ (key value : Option DeclaredType) (length : Nat), Leaves V ω (do
      closeTemplate .templateClose
      return { type with length, key, value }) fun _ => True :=
    fun _ _ _ => Leaves.bind (leaves_closeTemplate trivial) fun _ _ => Leaves.pure trivial
  have hValue : ∀ key : Option DeclaredType, Leaves V ω (do
      let value ← element
      let length ← if ← takeIf "," then templateNumber 1 .sizeNumber else pure 0
      closeTemplate .templateClose
      return { type with length, key, value := some value }) fun _ => True := by
    intro key
    refine hElement.bind fun value _ => (leaves_takeIf _).bind fun more _ =>
      Registers.ite (fun _ => ?_) fun _ => hClose _ _ _
    exact Leaves.bind (leaves_templateNumber trivial) fun _ _ => hClose _ _ _
  refine Registers.ite (fun _ => ?_) fun _ => hValue none
  exact hElement.bind fun key _ => Leaves.bind (leaves_expectMark trivial) fun _ _ =>
    hValue (some key)

end Elements

theorem leaves_takeWord (text : String) :
    Leaves V ω (baseTypeText.takeWord text) fun _ => True :=
  leaves_next.bind fun _ ht => Registers.ite (fun _ => Leaves.pure trivial) fun _ =>
    (leaves_putBack ht).bind fun _ _ => Leaves.pure trivial

theorem leaves_baseTypeText (t : Token) : Leaves V ω (baseTypeText t) fun _ => True := by
  unfold baseTypeText
  refine Registers.ite (fun _ => ?_) fun _ => Registers.ite (fun _ => ?_) fun _ =>
    Leaves.pure trivial
  · refine leaves_next.bind fun u hu => Registers.ite (fun _ => Leaves.pure trivial) fun _ => ?_
    exact (leaves_putBack hu).bind fun _ _ => Leaves.pure trivial
  · refine leaves_next.bind fun u _ => Registers.ite (fun _ => Leaves.pure trivial) fun _ => ?_
    refine Registers.ite (fun _ => ?_) fun _ => registers_failAtToken trivial
    exact (leaves_takeWord _).bind fun _ _ =>
      Registers.ite (fun _ => Leaves.pure trivial) fun _ => Leaves.pure trivial

theorem leaves_elaboratedType (scope : EntityId) (base : BaseType) (kind : EntityKind)
    (keyword : Token) : Leaves V ω (elaboratedType scope base kind keyword) fun _ => True := by
  unfold elaboratedType
  refine leaves_next.bind fun first _ => (leaves_readTypeName scope first).bind ?_
  rintro ⟨name, id⟩ _
  exact Registers.tree fun t => Registers.ite (fun _ => registers_failAtToken_bind trivial)
    fun _ => Leaves.pure trivial

theorem leaves_namedType (scope : EntityId) (first : Token) :
    Leaves V ω (namedType scope first) fun _ => True := by
  unfold namedType
  refine (leaves_readTypeName scope first).bind ?_
  rintro ⟨name, id⟩ _
  refine Registers.entity fun e => ?_
  split
  · exact Leaves.pure trivial
  · exact registers_failAtToken trivial

theorem leaves_baseType {element : Parsing DeclaredType}
    (hElement : Leaves V ω element fun _ => True) (scope : EntityId) (keyword : Token)
    (base : BaseType) (text : String) :
    Leaves V ω (baseType element scope keyword base text) fun _ => True := by
  unfold baseType
  dsimp only
  split
  · exact leaves_elaboratedType scope base _ keyword
  · refine Registers.ite (fun _ => ?_) fun _ => Registers.ite (fun _ => ?_) fun _ =>
      Registers.ite (fun _ => leaves_bitfieldSection hElement _) fun _ =>
        Registers.ite (fun _ => leaves_containerSection hElement _) fun _ => Leaves.pure trivial
    · refine (leaves_takeIf _).bind fun more _ =>
        Registers.ite (fun _ => ?_) fun _ => Leaves.pure trivial
      exact leaves_fixedBounds.bind fun _ _ => Leaves.pure trivial
    · refine (leaves_takeIf _).bind fun more _ =>
        Registers.ite (fun _ => ?_) fun _ => Leaves.pure trivial
      exact Leaves.bind (leaves_templateNumber trivial) fun _ _ =>
        Leaves.bind (leaves_closeTemplate trivial) fun _ _ => Leaves.pure trivial

theorem leaves_typeWithin (scope : EntityId) (n : Nat) :
    Leaves V ω (typeWithin scope n) fun _ => True := by
  induction n with
  | zero => exact registers_exhausted
  | succ n ih =>
    unfold typeWithin
    refine leaves_next.bind fun t _ =>
      Registers.ite (fun _ => registers_failAtToken_bind trivial) fun _ => ?_
    refine (leaves_baseTypeText t).bind fun text _ => Registers.get fun s => ?_
    split
    · exact leaves_baseType ih scope t _ _
    · exact leaves_namedType scope t

theorem leaves_readType (scope : EntityId) : Leaves V ω (readType scope) fun _ => True :=
  leaves_tokensLeft.bind fun _ _ => leaves_typeWithin scope _

/-! ## Dimensions and assignments -/

/-- The name of a declaration is a word of the source. -/
theorem leaves_declarationName : Leaves V ω declarationName fun t => t.text ∈ V.words := by
  unfold declarationName
  refine leaves_next.bind fun t ht => Registers.get fun s => ?_
  refine Registers.ite (fun hKeyword => ?_) fun _ => Registers.ite (fun hIdentifier => ?_) fun _ =>
    registers_failAtToken trivial
  · exact Registers.ite (fun _ => Leaves.pure (ht (Bool.or_eq_true_iff.mpr (Or.inr hKeyword))))
      fun _ => registers_failAtToken trivial
  · exact Leaves.pure (ht (Bool.or_eq_true_iff.mpr (Or.inl hIdentifier)))

theorem leaves_dimensionTokens (n depth : Nat) :
    Leaves V ω (dimensionTokens n depth) fun _ => True := by
  induction n generalizing depth with
  | zero => exact registers_exhausted
  | succ n ih =>
    unfold dimensionTokens
    refine leaves_next.bind fun t _ => ?_
    refine Registers.ite (fun _ => registers_failAtToken trivial) fun _ =>
      Registers.ite (fun _ => registers_failAtToken trivial) fun _ =>
        Registers.ite (fun _ => Leaves.pure trivial) fun _ => ?_
    exact (ih _).bind fun _ _ => Leaves.pure trivial

theorem leaves_dimensionsWithin (kind : EntityKind) (n : Nat) (further : Bool) :
    Leaves V ω (dimensionsWithin kind n further) fun _ => True := by
  induction n generalizing further with
  | zero => exact registers_exhausted
  | succ n ih =>
    unfold dimensionsWithin
    refine (leaves_peek 0).bind fun t _ => Registers.ite (fun _ => Leaves.pure trivial) fun _ => ?_
    refine leaves_next.bind fun opening _ => Registers.get fun s => ?_
    refine Registers.ite (fun _ => registers_failAtToken trivial) fun _ =>
      Registers.ite (fun _ => registers_failAtToken trivial) fun _ => ?_
    exact leaves_tokensLeft.bind fun _ _ => (leaves_dimensionTokens _ _).bind fun _ _ =>
      (ih true).bind fun _ _ => Leaves.pure trivial

theorem leaves_readDimensions (kind : EntityKind) :
    Leaves V ω (readDimensions kind) fun _ => True :=
  leaves_tokensLeft.bind fun _ _ => leaves_dimensionsWithin kind _ _

theorem leaves_assignmentWithin (n depth : Nat) :
    Leaves V ω (assignmentWithin n depth) fun r => V.Admits r.2 := by
  induction n generalizing depth with
  | zero => exact registers_exhausted
  | succ n ih =>
    unfold assignmentWithin
    refine leaves_next.bind fun t ht => ?_
    refine Registers.ite (fun _ => registers_failAtToken trivial) fun _ =>
      Registers.ite (fun _ => Leaves.pure ht) fun _ => ?_
    refine (ih _).bind ?_
    rintro ⟨ts, terminator⟩ hTerminator
    exact Leaves.pure hTerminator

theorem leaves_readAssignment : Leaves V ω readAssignment fun r => V.Admits r.2 :=
  leaves_tokensLeft.bind fun _ _ => leaves_assignmentWithin _ _

/-! ## Parameters -/

theorem leaves_readParameter (operation : EntityId) :
    Leaves V {} (readParameter operation) fun _ => True := by
  unfold readParameter
  refine leaves_next.bind fun t _ => ?_
  split
  · exact registers_failAtToken trivial
  · refine (leaves_readType operation).bind fun type _ => ?_
    refine leaves_declarationName.bind fun name hName => ?_
    refine Registers.ite (fun _ => registers_failAtToken_bind trivial) fun _ => ?_
    refine (registers_addEntity _ _ _ _ rfl).bind ?_
    rintro _ id rfl
    refine (completes_nameEntity id (Or.inr ⟨rfl, hName⟩) _ _).bind fun found _ => ?_
    refine (leaves_readDimensions _).bind fun dimensions _ => ?_
    exact Leaves.bind (leaves_modifyDeclaration found _) fun _ _ => Leaves.pure trivial

theorem leaves_parametersWithin (operation : EntityId) (n : Nat) :
    Leaves V {} (parametersWithin operation n) fun _ => True := by
  induction n with
  | zero => exact registers_exhausted
  | succ n ih =>
    unfold parametersWithin
    refine (leaves_readParameter operation).bind fun id _ => leaves_next.bind fun t _ => ?_
    refine Registers.ite (fun _ => Leaves.pure trivial) fun _ => Registers.ite (fun _ => ?_)
      fun _ => registers_failAtToken trivial
    exact ih.bind fun _ _ => Leaves.pure trivial

theorem leaves_readParameters (operation : EntityId) :
    Leaves V {} (readParameters operation) fun _ => True :=
  (leaves_takeIf _).bind fun _ _ => Registers.ite (fun _ => Leaves.pure trivial) fun _ =>
    leaves_tokensLeft.bind fun _ _ => leaves_parametersWithin operation _

/-! ## Exceptions -/

theorem leaves_exceptionsWithin (owner : EntityId) (n : Nat) :
    Leaves V ω (exceptionsWithin owner n) fun _ => True := by
  induction n with
  | zero => exact registers_exhausted
  | succ n ih =>
    unfold exceptionsWithin
    refine leaves_next.bind fun first _ => (leaves_readScopedName first).bind ?_
    rintro ⟨name, last⟩ _
    refine Registers.tree fun t => ?_
    split
    · exact registers_failAtToken trivial
    · refine Registers.ite (fun _ => registers_failAtToken_bind trivial) fun _ => ?_
      refine leaves_next.bind fun u _ => Registers.ite (fun _ => Leaves.pure trivial) fun _ =>
        Registers.ite (fun _ => ?_) fun _ => registers_failAtToken trivial
      exact ih.bind fun _ _ => Leaves.pure trivial

theorem leaves_readExceptions (owner : EntityId) :
    Leaves V ω (readExceptions owner) fun _ => True := by
  unfold readExceptions
  refine leaves_next.bind fun t _ =>
    Registers.ite (fun _ => registers_failAtToken_bind trivial) fun _ => ?_
  refine (leaves_peek 0).bind fun u _ =>
    Registers.ite (fun _ => registers_failAtToken_bind trivial) fun _ => ?_
  exact leaves_tokensLeft.bind fun _ _ => leaves_exceptionsWithin owner _

theorem RaisesList.reasoned_ofToken? (kind : EntityKind) (readonly : Bool) (t : Token) :
    Reasoned (RaisesList.ofToken? kind readonly t) := by
  unfold RaisesList.ofToken?
  refine .ite (.ite (.ok _) (.ite (.ok _) (.error trivial))) (.ite ?_ (.ok _))
  exact .ite (.error trivial) (.ite (.ok _) (.ite (.error trivial) (.ok _)))

theorem leaves_raisesWithin (owner : EntityId) (kind : EntityKind) (readonly : Bool) (n : Nat)
    (r : Raises) {t : Token} (ht : V.Admits t) :
    Leaves V ω (raisesWithin owner kind readonly n r t) fun r => V.Admits r.2 := by
  induction n generalizing r t with
  | zero => exact registers_exhausted
  | succ n ih =>
    unfold raisesWithin
    split
    · rename_i cause hList
      exact registers_failAtToken (RaisesList.reasoned_ofToken? kind readonly t cause hList)
    · exact Leaves.pure ht
    · refine Registers.ite (fun _ => registers_failAtToken_bind trivial) fun _ => ?_
      exact (leaves_readExceptions owner).bind fun ids _ => leaves_next.bind fun u hu => ih _ hu

theorem leaves_readRaises (owner : EntityId) (kind : EntityKind) (readonly : Bool) {t : Token}
    (ht : V.Admits t) :
    Leaves V ω (readRaises owner kind readonly t) fun r => V.Admits r.2 :=
  Registers.ite (fun _ => leaves_tokensLeft.bind fun _ _ =>
    leaves_raisesWithin owner kind readonly _ _ ht) fun _ => Leaves.pure ht

/-! ## Declarators -/

theorem leaves_readSignature (operation : EntityId) :
    Leaves V {} (readSignature operation) fun r => V.Admits r.2.2 := by
  unfold readSignature
  refine Leaves.bind (leaves_expectMark trivial) fun _ _ => ?_
  refine (leaves_readParameters operation).bind fun parameters _ => leaves_next.bind fun t ht => ?_
  refine Registers.ite (fun _ => ?_) fun _ => Leaves.pure ht
  exact leaves_next.bind fun u hu => Leaves.pure hu

theorem leaves_readInitializer (kind : EntityKind) {t : Token} (ht : V.Admits t) :
    Leaves V ω (readInitializer kind t) fun r => V.Admits r.2 :=
  Registers.ite (fun _ => Registers.ite (fun _ => leaves_readAssignment) fun _ =>
      registers_failAtToken trivial) fun _ =>
    Registers.ite (fun _ => registers_failAtToken trivial) fun _ => Leaves.pure ht

theorem completes_declare {waiting : Option String} {d : Declarator}
    (hName : V.Names waiting d.name.text) (comments : List Token) :
    Completes V { name := waiting } (declare d comments) fun _ => True := by
  unfold declare
  refine Registers.ite (fun _ => registers_failAtToken_bind trivial) fun _ =>
    Registers.ite (fun _ => registers_failAtToken_bind trivial) fun _ => ?_
  refine (registers_addEntity _ _ _ _ rfl).bind ?_
  rintro _ id rfl
  refine (completes_nameEntity id hName _ _).bind fun found _ => ?_
  exact (leaves_attachBefore found comments).bind fun _ _ => Leaves.pure trivial

/-- What follows the dimensions and the signature of a declaration. -/
theorem leaves_behindDeclarator (d : Declarator) (id : EntityId) (dimensions : List (List Token))
    (parameters : List EntityId) (constOperation : Bool) {t : Token} (ht : V.Admits t) :
    Leaves V {} (do
      let (r, t) ← readRaises d.owner d.kind d.readonly t
      let (assignment, t) ← readInitializer d.kind t
      modifyDeclaration id fun e =>
        { e with
          dimensions, parameters, constOperation, assignment
          raises := r.raises
          getRaises := r.getRaises
          setRaises := r.setRaises }
      attachAfter id t.position.line
      endAt id t
      return (id, t)) fun r => V.Admits r.2 := by
  refine (leaves_readRaises d.owner d.kind d.readonly ht).bind ?_
  rintro ⟨r, u⟩ hu
  refine (leaves_readInitializer d.kind hu).bind ?_
  rintro ⟨assignment, v⟩ hv
  refine Leaves.bind (leaves_modifyDeclaration id _) fun _ _ => ?_
  exact (leaves_attachAfter id _).bind fun _ _ => (leaves_endAt id v).bind fun _ _ =>
    Leaves.pure hv

/-- A declaration gets a word for its name, or the name that was generated for it. -/
theorem completes_readDeclarator {waiting : Option String} {d : Declarator}
    (hName : V.Names waiting d.name.text) (comments : List Token) :
    Completes V { name := waiting } (readDeclarator d comments) fun r => V.Admits r.2 := by
  unfold readDeclarator
  refine (completes_declare hName comments).bind fun id _ => ?_
  by_cases hOperation : d.kind = .operation
  · simp only [if_pos hOperation]
    refine (leaves_readSignature id).bind ?_
    rintro ⟨parameters, constOperation, t⟩ ht
    exact leaves_behindDeclarator d id [] parameters constOperation ht
  · simp only [if_neg hOperation]
    refine (leaves_readDimensions d.kind).bind fun dimensions _ => leaves_next.bind fun t ht => ?_
    exact leaves_behindDeclarator d id dimensions [] false ht

/-! ## Cases -/

theorem leaves_labelTokens (isDefault : Bool) (n : Nat) :
    Leaves V ω (labelTokens isDefault n) fun _ => True := by
  induction n with
  | zero => exact registers_exhausted
  | succ n ih =>
    unfold labelTokens
    refine leaves_next.bind fun t _ => Registers.ite (fun _ => Leaves.pure trivial) fun _ =>
      Registers.ite (fun _ => registers_failAtToken trivial) fun _ =>
        Registers.ite (fun _ => registers_failAtToken trivial) fun _ => ?_
    exact ih.bind fun _ _ => Leaves.pure trivial

theorem leaves_readLabel (label : Token) : Leaves V ω (readLabel label) fun _ => True := by
  unfold readLabel
  dsimp only
  refine leaves_tokensLeft.bind fun _ _ => (leaves_labelTokens _ _).bind fun ts _ => ?_
  exact Registers.ite (fun _ => registers_failAtToken_bind trivial) fun _ =>
    Leaves.pure trivial

theorem leaves_followsSoon (text : String) : Leaves V ω (followsSoon text) fun _ => True :=
  (leaves_peek 1).bind fun _ _ => Registers.ite (fun _ => Leaves.pure trivial) fun _ =>
    (leaves_peek 2).bind fun _ _ => Leaves.pure trivial

theorem leaves_definesNext (t : Token) : Leaves V ω (definesNext t) fun _ => True := by
  have hStruct : Leaves V ω (if t.is "struct" then followsSoon "\x7b" else pure false)
      fun _ => True := Registers.ite (fun _ => leaves_followsSoon _) fun _ => Leaves.pure trivial
  unfold definesNext
  refine hStruct.bind fun struct _ => Registers.ite (fun _ => Leaves.pure trivial) fun _ => ?_
  exact Registers.ite (fun _ => leaves_followsSoon _) fun _ => Leaves.pure trivial

/-- A label without a declaration gets a generated name. -/
theorem leaves_declareLabel (owner : EntityId) (label : Token) (comments : List Token) :
    Leaves V {} (declareLabel owner label comments) fun _ => True := by
  unfold declareLabel
  refine (registers_addEntity _ _ _ _ rfl).bind ?_
  rintro _ id rfl
  refine (registers_generateName (by decide)).bind ?_
  rintro _ name rfl
  refine (completes_nameEntity id (Or.inl rfl) _ _).bind fun found _ => ?_
  exact (leaves_attachBefore found comments).bind fun _ _ =>
    (leaves_attachAfter found _).bind fun _ _ => Leaves.pure trivial

theorem leaves_readLabelled (owner : EntityId) (label : Token) (comments : List Token) :
    Leaves V {} (readLabelled owner label comments) fun _ => True := by
  unfold readLabelled
  refine (leaves_readType owner).bind fun type _ => leaves_declarationName.bind fun name hName => ?_
  refine (completes_readDeclarator (Or.inr ⟨rfl, hName⟩) comments).bind ?_
  rintro ⟨id, t⟩ _
  exact Registers.ite (fun _ => Leaves.pure trivial) fun _ => registers_failAtToken trivial

theorem leaves_readCase (owner : EntityId) (label : Token) (comments : List Token) :
    Leaves V {} (readCase owner label comments) fun _ => True := by
  unfold readCase
  refine (leaves_readLabel label).bind fun tokens _ => (leaves_peek 0).bind fun t _ => ?_
  refine (leaves_definesNext t).bind fun defines _ =>
    Registers.ite (fun _ => registers_failAtToken_bind trivial) fun _ => ?_
  refine Registers.ite (fun _ => ?_) fun _ => ?_
  · exact (leaves_declareLabel owner label comments).bind fun id _ => leaves_modifyDeclaration id _
  · exact (leaves_readLabelled owner label comments).bind fun id _ => leaves_modifyDeclaration id _

end IdlReader.Parsing
