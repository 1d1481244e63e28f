import IdlReader.Proofs.Naming.Declarator

/-!
# Names of a whole document

Definitions without a name get generated ones, and so does the field that the fields of such a
definition belong to if nothing is declared with it.

* `registers_definitionName`: the name of a definition is a word or generated.
* `putBack_bind_declarationName`: a name that is put back is read as it is.
* `leaves_contentWithin`, `leaves_readRoot`: the content of an entity, and everything.
-/

namespace IdlReader.Parsing

variable {α : Type} {V : Vocabulary} {ω : Pending}

/-! ## Enumerations -/

theorem leaves_readEntry (owner : EntityId) (type : DeclaredType) :
    Leaves V {} (readEntry owner type) V.Admits := by
  unfold readEntry
  refine leaves_commentsBefore.bind fun comments _ => leaves_declarationName.bind fun name hName => ?_
  refine (registers_addEntity _ _ _ _ rfl).bind ?_
  rintro _ id rfl
  refine (completes_nameEntity id (Or.inr ⟨rfl, hName⟩) _ _).bind fun found _ => ?_
  refine (leaves_attachBefore found comments).bind fun _ _ => ?_
  have hEnd : ∀ {t : Token}, V.Admits t → Leaves V {} (do
      attachAfter found t.position.line
      endAt found t
      return t) V.Admits := fun ht =>
    (leaves_attachAfter found _).bind fun _ _ => (leaves_endAt found _).bind fun _ _ =>
      Leaves.pure ht
  refine leaves_next.bind fun t ht => Registers.ite (fun _ => ?_) fun _ => hEnd ht
  refine leaves_readAssignment.bind ?_
  rintro ⟨assignment, u⟩ hu
  exact Leaves.bind (leaves_modifyDeclaration found _) fun _ _ => hEnd hu

theorem leaves_entriesWithin (owner : EntityId) (type : DeclaredType) (n : Nat) :
    Leaves V {} (entriesWithin owner type n) fun _ => True := by
  induction n with
  | zero => exact registers_exhausted
  | succ n ih =>
    unfold entriesWithin
    refine (leaves_peek 0).bind fun t _ => Registers.ite (fun _ => Leaves.pure trivial) fun _ => ?_
    refine (leaves_readEntry owner type).bind fun u hu => ?_
    exact Registers.ite (fun _ => leaves_putBack hu) fun _ => Registers.ite (fun _ => ih) fun _ =>
      registers_failAtToken trivial

theorem leaves_readEnumeration (owner : EntityId) :
    Leaves V {} (readEnumeration owner) fun _ => True := by
  unfold readEnumeration
  refine Registers.entity fun e => leaves_tokensLeft.bind fun budget _ => ?_
  refine (leaves_entriesWithin owner _ _).bind fun _ _ => Registers.entity fun e => ?_
  exact leaves_of_settling (settling_checkEntries [] _) (peaceful_checkEntries [] _)

/-! ## Definitions -/

theorem leaves_basesWithin (scope : EntityId) (kind : EntityKind) (n : Nat) :
    Leaves V ω (basesWithin scope kind n) fun _ => True := by
  induction n with
  | zero => exact registers_exhausted
  | succ n ih =>
    unfold basesWithin
    refine leaves_next.bind fun first _ => (leaves_readScopedName first).bind ?_
    rintro ⟨name, last⟩ _
    refine Registers.tree fun t => ?_
    split
    · exact registers_failAtToken trivial
    · refine Registers.ite (fun _ => registers_failAtToken_bind trivial) fun _ =>
        Registers.ite (fun _ => registers_failAtToken_bind trivial) fun _ => ?_
      have hComma : Leaves V ω basesWithin.takeIfComma fun _ => True :=
        leaves_next.bind fun _ ht => Registers.ite (fun _ => Leaves.pure trivial) fun _ =>
          (leaves_putBack ht).bind fun _ _ => Leaves.pure trivial
      refine hComma.bind fun more _ => Registers.ite (fun _ => ?_) fun _ => Leaves.pure trivial
      exact ih.bind fun _ _ => Leaves.pure trivial

theorem leaves_readBases (id scope : EntityId) (kind : EntityKind) :
    Leaves V ω (readBases id scope kind) fun _ => True := by
  unfold readBases
  refine leaves_next.bind fun t ht => Registers.ite (fun _ => ?_) fun _ =>
    Registers.ite (fun _ => registers_failAtToken trivial) fun _ => ?_
  · exact (leaves_putBack ht).bind fun _ _ => Leaves.pure trivial
  · refine leaves_tokensLeft.bind fun budget _ => (leaves_basesWithin scope kind _).bind fun _ _ => ?_
    exact Leaves.bind (leaves_mapDefinition id _) fun _ _ => Leaves.pure trivial

theorem leaves_readSwitch (id scope : EntityId) :
    Leaves V ω (readSwitch id scope) fun _ => True := by
  unfold readSwitch
  refine (leaves_peek 0).bind fun t _ => Registers.ite (fun _ => Leaves.pure trivial) fun _ => ?_
  refine Leaves.bind (leaves_expectMark trivial) fun _ _ => ?_
  refine Leaves.bind (leaves_expectMark trivial) fun _ _ => (leaves_peek 0).bind fun u _ => ?_
  refine (leaves_readType scope).bind fun type _ => ?_
  refine Registers.ite (fun _ => registers_failAtToken_bind trivial) fun _ => ?_
  refine Leaves.bind (leaves_expectMark trivial) fun _ _ => ?_
  exact Leaves.bind (leaves_mapDefinition id _) fun _ _ => Leaves.pure trivial

/-- The name of a definition is a word, or it was generated. -/
theorem registers_definitionName (id owner : EntityId) (kind : EntityKind) :
    Registers V { entity := some id } (definitionName owner kind) fun ω' r =>
      ∃ waiting, ω' = { entity := some id, name := waiting } ∧ V.Names waiting r.1 := by
  unfold definitionName
  refine leaves_next.bind fun t ht => Registers.ite (fun hIdentifier => ?_) fun _ =>
    Registers.ite (fun hUnnamed => ?_) fun _ => registers_failAtToken trivial
  · have hWord : t.text ∈ V.words := ht (Bool.or_eq_true_iff.mpr (Or.inl hIdentifier))
    exact Registers.pure ⟨none, rfl, Or.inr ⟨rfl, hWord⟩⟩
  · refine Registers.entity fun e => Registers.ite (fun _ => registers_failAtToken_bind trivial)
      fun _ => ?_
    refine (registers_generateName (EntityKind.stem_mem_stems hUnnamed)).bind ?_
    rintro _ name rfl
    exact (leaves_putBack ht).bind fun _ _ => Registers.pure ⟨some name, rfl, Or.inl rfl⟩

section Definitions

variable {content : EntityId → Parsing Unit}
  (hContent : ∀ owner, Leaves V {} (content owner) fun _ => True)

include hContent

theorem leaves_readBody (id : EntityId) (kind : EntityKind) :
    Leaves V {} (readBody content id kind) fun _ => True := by
  unfold readBody
  have hClose : Leaves V {} (do
      let t ← next
      if !t.is "\x7d" then failAtToken .closeBraceExpected t
      endAt id t) fun _ => True :=
    leaves_next.bind fun t _ => Registers.ite (fun _ => registers_failAtToken_bind trivial)
      fun _ => leaves_endAt id t
  refine Registers.ite (fun _ => ?_) fun _ => ?_
  · exact (leaves_readEnumeration id).bind fun _ _ => hClose
  · exact (hContent id).bind fun _ _ => hClose

theorem leaves_readDefinition (owner : EntityId) (kind : EntityKind) (keyword : Token)
    (isLocal : Bool) (comments : List Token) :
    Leaves V {} (readDefinition content owner kind keyword isLocal comments) fun _ => True := by
  unfold readDefinition
  refine (registers_addEntity _ _ _ _ rfl).bind ?_
  rintro _ id rfl
  refine (registers_definitionName id owner kind).bind ?_
  rintro _ ⟨name, anonymous⟩ ⟨waiting, rfl, hName⟩
  have hHeaded : ∀ headed : Bool, Completes V { entity := some id, name := waiting } (do
      let t ← next
      let forward := !t.is "\x7b"
      if (headed || anonymous) && forward then failAtToken .openBraceExpected t
      let id ← nameEntity id name forward true
      if forward then
        putBack t
        return id
      else do
        modifyEntity id fun e => { e with anonymous }
        attachBefore id comments
        readBody content id kind
        return id) fun _ => True := by
    intro headed
    refine leaves_next.bind fun t ht => ?_
    refine Registers.ite (fun _ => registers_failAtToken_bind trivial) fun _ => ?_
    refine (completes_nameEntity id hName _ _).bind fun found _ => Registers.ite (fun _ => ?_)
      fun _ => ?_
    · exact (leaves_putBack ht).bind fun _ _ => Leaves.pure trivial
    · refine Leaves.bind (leaves_annotate found fun _ => rfl) fun _ _ => ?_
      exact (leaves_attachBefore found comments).bind fun _ _ =>
        (leaves_readBody hContent found kind).bind fun _ _ => Leaves.pure trivial
  refine Registers.ite (fun _ => ?_) fun _ => ?_
  · exact (leaves_readSwitch id owner).bind fun headed _ => hHeaded headed
  · exact (leaves_readBases id owner kind).bind fun headed _ => hHeaded headed

end Definitions

theorem leaves_definitionKind? (t : Token) :
    Leaves V ω (definitionKind? t) fun _ => True := by
  have hStarts : Leaves V ω startsDefinition fun _ => True :=
    (leaves_peek 0).bind fun _ _ => (leaves_peek 1).bind fun _ _ => Leaves.pure trivial
  unfold definitionKind?
  split
  · exact Leaves.pure trivial
  · exact hStarts.bind fun _ _ => Registers.ite (fun _ => Leaves.pure trivial) fun _ =>
      Leaves.pure trivial

/-! ## Statements -/

theorem leaves_readModifiers (kind : EntityKind) {t : Token} (ht : V.Admits t) :
    Leaves V ω (readModifiers kind t) fun r => V.Admits r.2 := by
  have hBehind : ∀ (member : Member) (m : Modifiers), Leaves V ω (do
      if !kind.admits member then failAtToken (.keywordUnexpected t.text) t
      let u ← next
      return (m, u)) fun r => V.Admits r.2 := fun member m =>
    Registers.ite (fun _ => registers_failAtToken_bind trivial) fun _ =>
      leaves_next.bind fun u hu => Leaves.pure hu
  unfold readModifiers
  refine Registers.ite (fun _ => hBehind _ _) fun _ => Registers.ite (fun _ => hBehind _ _)
    fun _ => Registers.ite (fun _ => hBehind _ _) fun _ => Registers.ite (fun _ => ?_) fun _ =>
      Leaves.pure ht
  refine (hBehind (.definition .interface) { isLocal := true }).bind ?_
  rintro ⟨m, u⟩ hu
  exact Registers.ite (fun _ => registers_failAtToken_bind trivial) fun _ => Leaves.pure hu

/-- Only the first declaration may have a name that was generated. -/
theorem completes_declaratorsWithin (anonymous : Bool) (n : Nat) {waiting : Option String}
    {d : Declarator} (hName : V.Names waiting d.name.text) (comments : List Token) :
    Completes V { name := waiting } (declaratorsWithin anonymous n d comments) fun _ => True := by
  induction n generalizing waiting d comments with
  | zero => exact registers_exhausted
  | succ n ih =>
    unfold declaratorsWithin
    refine (completes_readDeclarator hName comments).bind ?_
    rintro ⟨id, t⟩ _
    have hBehind : Leaves V {} (do
        if t.is "," then
          if d.kind.supportsMultiple then do
            let name ← declarationName
            declaratorsWithin anonymous n { d with name, position := name.position } []
          else failAtToken .multipleUnsupported t
        else if t.is ";" then return
        else failAtToken .declarationUnterminated t) fun _ => True := by
      refine Registers.ite (fun _ => Registers.ite (fun _ => ?_) fun _ =>
        registers_failAtToken trivial) fun _ => Registers.ite (fun _ => Leaves.pure trivial)
          fun _ => registers_failAtToken trivial
      exact leaves_declarationName.bind fun name hWord => ih (Or.inr ⟨rfl, hWord⟩) []
    refine Registers.ite (fun _ => ?_) fun _ => hBehind
    exact Leaves.bind (leaves_annotate id fun _ => rfl) fun _ _ => hBehind

/-- An identifier that is put back is the name of the declaration that is read next. -/
theorem putBack_bind_declarationName {t : Token} (h : t.kind = .identifier)
    (f : Token → Parsing α) : (putBack t >>= fun _ => declarationName >>= f) = f t := by
  funext s
  have hIdentifier : t.isIdentifier = true := by
    unfold Token.isIdentifier
    rw [h]
    rfl
  have hKeyword : t.isKeyword = false := by
    unfold Token.isKeyword
    rw [h]
    rfl
  have hPut : putBack t s = .ok () { s with cache := t :: s.cache } := by
    unfold putBack
    rw [Token.not_isFinish_of_kind h (by decide)]
    rfl
  have hName : declarationName { s with cache := t :: s.cache } = .ok t s := by
    unfold declarationName
    rw [bind_of_ok (next_cached rfl), bind_get, hKeyword, hIdentifier]
    rfl
  rw [bind_of_ok hPut, bind_of_ok hName]

namespace Statement

variable (st : Statement)

theorem completes_readDeclarators (kind : EntityKind) (type : DeclaredType)
    {waiting : Option String} {name : Token} (hName : V.Names waiting name.text)
    (anonymous : Bool) :
    Completes V { name := waiting } (st.readDeclarators kind type name anonymous)
      fun _ => True :=
  leaves_tokensLeft.bind fun _ _ => completes_declaratorsWithin anonymous _ hName _

theorem leaves_declarationKind (defines : Bool) (name : Token) :
    Leaves V ω (st.declarationKind defines name) fun _ => True := by
  unfold declarationKind
  refine (leaves_peek 0).bind fun t _ => ?_
  exact Registers.ite (fun _ => Registers.ite (fun _ => registers_failAtToken trivial) fun _ =>
      Leaves.pure trivial) fun _ => Registers.ite (fun _ => Leaves.pure trivial) fun _ =>
    Registers.ite (fun _ => Leaves.pure trivial) fun _ =>
      Registers.ite (fun _ => Leaves.pure trivial) fun _ => registers_failAtToken trivial

theorem leaves_readAttributes : Leaves V {} st.readAttributes fun _ => True := by
  unfold readAttributes
  exact (leaves_readType st.owner).bind fun type _ => leaves_declarationName.bind fun name hName =>
    st.completes_readDeclarators _ _ (Or.inr ⟨rfl, hName⟩) _

theorem leaves_readDeclarations (type : DeclaredType) (defines anonymous : Bool) :
    Leaves V {} (st.readDeclarations type defines anonymous) fun _ => True := by
  unfold readDeclarations
  exact leaves_declarationName.bind fun name hName =>
    (st.leaves_declarationKind defines name).bind fun kind _ =>
      st.completes_readDeclarators _ _ (Or.inr ⟨rfl, hName⟩) _

theorem leaves_readMember {t : Token} (ht : V.Admits t) :
    Leaves V {} (st.readMember t) fun _ => True := by
  unfold readMember
  dsimp only
  refine Registers.ite (fun _ => registers_failAtToken trivial) fun _ =>
    Registers.ite (fun _ => registers_failAtToken trivial) fun _ =>
      Registers.ite (fun _ => Registers.ite (fun _ => registers_failAtToken trivial) fun _ =>
        leaves_readCase st.owner t _) fun _ =>
        Registers.ite (fun _ => Registers.ite (fun _ => registers_failAtToken trivial) fun _ =>
          st.leaves_readAttributes) fun _ => ?_
  exact (leaves_putBack ht).bind fun _ _ => (leaves_readType st.owner).bind fun type _ =>
    st.leaves_readDeclarations _ _ _

theorem leaves_definedType (id : EntityId) (t : Token) :
    Leaves V ω (definedType id t) fun _ => True := by
  unfold definedType
  refine Registers.entity fun e => ?_
  split
  · exact Leaves.pure trivial
  · exact registers_failAtToken trivial

/-- The field that the fields of an unnamed definition belong to gets a generated name. -/
theorem leaves_finishDefinition (id : EntityId) {t : Token} (ht : V.Admits t) :
    Leaves V {} (st.finishDefinition id t) fun _ => True := by
  unfold finishDefinition
  refine Registers.ite (fun _ => registers_failAtToken_bind trivial) fun _ => ?_
  refine (leaves_endAt id t).bind fun _ _ => Registers.entity fun e => ?_
  refine Registers.ite (fun _ => Leaves.pure trivial) fun _ =>
    Registers.ite (fun _ => registers_failAtToken trivial) fun _ => ?_
  refine (leaves_putBack ht).bind fun _ _ => ?_
  refine (registers_generateName (by decide)).bind ?_
  rintro _ name rfl
  refine (leaves_definedType id t).bind fun type _ => ?_
  have hName : V.Names (some name) ({ t with kind := .identifier, text := name } : Token).text :=
    Or.inl rfl
  unfold readDeclarations
  rw [putBack_bind_declarationName rfl]
  exact (st.leaves_declarationKind true _).bind fun kind _ =>
    st.completes_readDeclarators _ _ hName _

theorem leaves_readBehindDefinition (id : EntityId) {t : Token} (ht : V.Admits t) :
    Leaves V {} (st.readBehindDefinition id t) fun _ => True := by
  unfold readBehindDefinition
  dsimp only
  refine Registers.ite (fun _ => st.leaves_finishDefinition id ht) fun _ =>
    Registers.ite (fun _ => registers_failAtToken trivial) fun _ =>
      Registers.ite (fun _ => registers_failAtToken trivial) fun _ =>
        Registers.ite (fun _ => registers_failAtToken trivial) fun _ => ?_
  exact (leaves_putBack ht).bind fun _ _ => (leaves_definedType id t).bind fun type _ =>
    st.leaves_readDeclarations _ _ _

end Statement

/-! ## Content -/

theorem leaves_readStatement {content : EntityId → Parsing Unit}
    (hContent : ∀ owner, Leaves V {} (content owner) fun _ => True) (owner : EntityId) :
    Leaves V {} (readStatement content owner) fun _ => True := by
  unfold readStatement
  refine Registers.entity fun e => leaves_commentsBefore.bind fun comments _ => ?_
  refine leaves_next.bind fun first hFirst => (leaves_readModifiers _ hFirst).bind ?_
  rintro ⟨modifiers, t⟩ ht
  refine (leaves_definitionKind? t).bind fun kind? _ => ?_
  cases kind? with
  | none => exact Statement.leaves_readMember _ ht
  | some kind =>
    refine Registers.ite (fun _ => registers_failAtToken trivial) fun _ => ?_
    refine (leaves_readDefinition hContent owner kind t _ _).bind fun id _ => ?_
    exact leaves_next.bind fun u hu => (leaves_attachAfter id _).bind fun _ _ =>
      Statement.leaves_readBehindDefinition _ id hu

/-- The content of an entity gives names one after the other. -/
theorem leaves_contentWithin (n : Nat) (owner : EntityId) :
    Leaves V {} (contentWithin n owner) fun _ => True := by
  induction n generalizing owner with
  | zero => exact registers_exhausted
  | succ n ih =>
    have hMembers : Leaves V {} (evaluateMembers owner) fun _ => True :=
      leaves_of_settling (settling_evaluateMembers owner) (peaceful_evaluateMembers owner)
    unfold contentWithin
    refine (leaves_peek 0).bind fun t _ => Registers.ite (fun _ => hMembers) fun _ =>
      Registers.ite (fun _ => ?_) fun _ => ?_
    · exact Registers.ite (fun _ => registers_failAtToken trivial) fun _ => hMembers
    · exact (leaves_readStatement ih owner).bind fun _ _ => ih owner

theorem leaves_readRoot : Leaves V {} readRoot fun _ => True :=
  leaves_tokensLeft.bind fun _ _ => leaves_contentWithin _ _

end IdlReader.Parsing
