import IdlReader.Proofs.Grammar.Definition

/-!
# Content and the tree

Reading the content of an entity adds definitions and declarations below it, each of which has
its name before anything is added behind it. So the tree of every session is reachable by
steps from the root alone.

* `grows_readStatement`: what one statement adds.
* `grows_readRoot`: everything.
-/

namespace IdlReader

open IdlReader.Tree

namespace Parsing

variable {R : Tree → Tree → Prop} [Growth R] {s : Session}

/-! ## Heads of statements -/

theorem isDefinition_of_ofKeyword? {t : Token} {kind : EntityKind}
    (h : EntityKind.ofKeyword? t = some kind) : kind.isDefinition = true := by
  unfold EntityKind.ofKeyword? at h
  split at h
  · cases h
  · repeat' split at h
    all_goals first
      | (cases h; rfl)
      | cases h

/-- The keyword that opens a definition is the name of its kind. -/
theorem keyword_of_ofKeyword? {t : Token} {kind : EntityKind}
    (h : EntityKind.ofKeyword? t = some kind) : t.isKeyword = true ∧ t.text = kind.keyword := by
  unfold EntityKind.ofKeyword? at h
  split at h
  · cases h
  · rename_i hKeyword
    refine ⟨by simpa using hKeyword, ?_⟩
    repeat' split at h
    all_goals first
      | (rename_i hText
         rw [hText, ← Option.some.inj h]
         rfl)
      | cases h

/-- The keyword that opens a definition is no other word. -/
theorem not_is_of_ofKeyword? {t : Token} {kind : EntityKind} {text : String}
    (h : EntityKind.ofKeyword? t = some kind)
    (hText : text ∉ ["module", "struct", "union", "enum", "exception", "interface"]) :
    t.is text = false := by
  have hDefinition := isDefinition_of_ofKeyword? h
  refine Bool.eq_false_iff.mpr fun hIs => hText ?_
  unfold Token.is at hIs
  rw [Bool.and_eq_true, beq_iff_eq, (keyword_of_ofKeyword? h).2] at hIs
  rw [← hIs.2]
  cases kind <;> first
    | decide
    | cases hDefinition

theorem readModifiers_of_ofKeyword? {t : Token} {kind : EntityKind}
    (h : EntityKind.ofKeyword? t = some kind) (owner : EntityKind) :
    readModifiers owner t = pure ({}, t) := by
  unfold readModifiers
  rw [not_is_of_ofKeyword? h (by decide), not_is_of_ofKeyword? h (by decide),
    not_is_of_ofKeyword? h (by decide), not_is_of_ofKeyword? h (by decide)]
  rfl

theorem grows_definitionKind? (hs : s.Sound) (t : Token) :
    Grows R (definitionKind? t) s fun kind? _ => ∀ kind ∈ kind?, kind.isDefinition = true := by
  have hStarts : Keeps startsDefinition :=
    (keeps_peek 0).bind fun _ => (keeps_peek 1).bind fun _ => Keeps.pure _
  unfold definitionKind?
  split
  · exact Grows.pure hs nofun
  · rename_i kind hKeyword
    refine (hStarts.grows hs).bind ?_
    intro starts s₁ hs₁ _ _
    split
    · refine Grows.pure hs₁ ?_
      intro k hk
      cases hk
      exact isDefinition_of_ofKeyword? hKeyword
    · exact Grows.pure hs₁ nofun

theorem grows_readModifiers (hs : s.Sound) (kind : EntityKind) {t : Token} (ht : t.Lexical) :
    Grows R (readModifiers kind t) s fun x _ => x.2.Lexical := by
  have hBehind : ∀ (member : Member) (m : Modifiers), Grows R
      (if !kind.admits member then do
        let _ ← (failAtToken (.keywordUnexpected t.text) t : Parsing Unit)
        let u ← next
        return (m, u)
      else do
        let u ← next
        return (m, u)) s fun x _ => x.2.Lexical := by
    intro member m
    split
    · exact grows_failAtToken_bind _ _
    · refine (grows_next hs).bind ?_
      intro u s₁ hs₁ _ hu
      exact Grows.pure hs₁ hu
  unfold readModifiers
  dsimp only
  split
  · exact hBehind _ _
  · split
    · exact hBehind _ _
    · split
      · exact hBehind _ _
      · split
        · refine (hBehind _ _).bind ?_
          rintro ⟨m, u⟩ s₁ hs₁ _ hu
          dsimp only
          split
          · exact grows_failAtToken_bind _ _
          · exact Grows.pure hs₁ hu
        · exact Grows.pure hs ht

/-! ## Declarations -/

theorem grows_declaratorsWithin (anonymous : Bool) (n : Nat) (hs : s.Sound) {d : Declarator}
    (hd : d.Sound s.tree) (comments : List Token) :
    Grows (Grown d.owner) (declaratorsWithin anonymous n d comments) s fun _ _ => True := by
  induction n generalizing s d comments with
  | zero => exact grows_fail _
  | succ n ih =>
    have hBehind : ∀ (s : Session) (t : Token), s.Sound → d.Sound s.tree → Grows (Grown d.owner)
        (if t.is "," then
          if d.kind.supportsMultiple then do
            let name ← declarationName
            declaratorsWithin anonymous n { d with name, position := name.position } []
          else failAtToken .multipleUnsupported t
        else if t.is ";" then return
        else failAtToken .declarationUnterminated t) s fun _ _ => True := by
      intro s t hs hd
      split
      · split
        · refine (grows_declarationName hs).bind ?_
          intro name s₁ hs₁ hR₁ hName
          have hd₁ := hd.steps hR₁.steps hR₁.calm
          have hNext : Declarator.Sound { d with name, position := name.position } s₁.tree :=
            ⟨hd₁.owner, hd₁.kind, hd₁.member, hd₁.entry, hd₁.belongs, hd₁.type, hName⟩
          exact ih hs₁ hNext []
        · exact grows_failAtToken _ _
      · split
        · exact Grows.pure hs trivial
        · exact grows_failAtToken _ _
    have hAnnotates (e : Entity) : Entity.Annotates e { e with anonymous := true } := rfl
    unfold declaratorsWithin
    refine (grows_readDeclarator hs hd comments).bind ?_
    rintro ⟨id, t⟩ s₁ hs₁ hR₁ -
    have hd₁ := hd.steps hR₁.steps hR₁.calm
    dsimp only
    split
    · refine ((keeps_annotate hAnnotates).grows hs₁).bind ?_
      intro _ s₂ hs₂ hR₂ _
      exact hBehind s₂ t hs₂ (hd₁.steps hR₂.steps hR₂.calm)
    · exact hBehind s₁ t hs₁ hd₁

namespace Statement

variable {st : Statement}

/-- Whether a statement may be read in a tree. -/
structure Sound (st : Statement) (t : Tree) : Prop where
  owner : t.Owner st.owner
  kind : (t.get st.owner).kind = st.ownerKind
  content : st.ownerKind ≠ .enum

theorem Sound.steps {t t' : Tree} (h : st.Sound t) (hSteps : Steps t t')
    (hCalm : t.Calm → t'.Calm) : st.Sound t' := by
  have hExtends := hSteps.extends (Nat.zero_lt_of_lt h.owner.ready.lt)
  refine ⟨h.owner.extends hExtends (hCalm h.owner.ready.calm), ?_, h.content⟩
  exact (hExtends.kind st.owner h.owner.ready.lt).trans h.kind

theorem Sound.grown {t t' : Tree} {o : EntityId} (h : st.Sound t) (hGrown : Grown o t t') :
    st.Sound t' := h.steps hGrown.steps hGrown.calm

/-- A statement behind the definition in it, which has its comments unless it declares something. -/
def behind (st : Statement) : Statement :=
  { st with comments := if st.modifiers.declares then st.comments else [] }

theorem Sound.behind {t : Tree} (h : st.Sound t) : st.behind.Sound t := ⟨h.owner, h.kind, h.content⟩

/-- The kinds of declarations that statements declare. -/
def Declares (kind : EntityKind) : Prop :=
  kind.isDeclaration = true ∧ kind ≠ .parameter ∧ kind ≠ .caseEntry ∧ kind ≠ .enumEntry

instance (kind : EntityKind) : Decidable (Declares kind) := inferInstanceAs (Decidable (_ ∧ _))

theorem grows_readDeclarators (hs : s.Sound) (h : st.Sound s.tree) {kind : EntityKind}
    (hKind : Declares kind) {type : DeclaredType} (hType : s.tree.Declarable type) {name : Token}
    (hName : IsName name.text) (anonymous : Bool) :
    Grows (Grown st.owner) (st.readDeclarators kind type name anonymous) s fun _ _ => True := by
  obtain ⟨hDeclaration, hNotParameter, hNotCase, hNotEntry⟩ := hKind
  have hBelongs : kind.Belongs (s.tree.get st.owner).kind := by
    rw [h.kind]
    exact ⟨fun hCase => absurd hCase hNotCase, fun hEntry => absurd hEntry hNotEntry,
      fun hEnum => absurd hEnum h.content⟩
  unfold readDeclarators
  refine Grows.tokensLeft fun n => ?_
  exact grows_declaratorsWithin anonymous (n + 1) hs
    ⟨h.owner, hDeclaration, hNotParameter, hNotEntry, hBelongs, hType, hName⟩ _

theorem grows_declarationKind (hs : s.Sound) (defines : Bool) (name : Token) :
    Grows R (st.declarationKind defines name) s fun kind _ => Declares kind := by
  unfold declarationKind
  refine ((keeps_peek 0).grows hs).bind ?_
  intro t s₁ hs₁ _ _
  split
  · split
    · exact grows_failAtToken _ _
    · exact Grows.pure hs₁ (by decide)
  · split
    · exact Grows.pure hs₁ (by decide)
    · split
      · exact Grows.pure hs₁ (by decide)
      · split
        · exact Grows.pure hs₁ (by decide)
        · exact grows_failAtToken _ _

theorem grows_readAttributes (hs : s.Sound) (h : st.Sound s.tree) :
    Grows (Grown st.owner) st.readAttributes s fun _ _ => True := by
  unfold readAttributes
  refine (grows_readType hs st.owner).bind ?_
  intro type s₁ hs₁ hR₁ hType
  refine (grows_declarationName hs₁).bind ?_
  intro name s₂ hs₂ hR₂ hName
  exact grows_readDeclarators hs₂ ((h.grown hR₁).grown hR₂) (by decide)
    (hs₁.declarable hR₂ hType) hName false

theorem grows_readDeclarations (hs : s.Sound) (h : st.Sound s.tree)
    {type : DeclaredType} (hType : s.tree.Declarable type) (defines anonymous : Bool) :
    Grows (Grown st.owner) (st.readDeclarations type defines anonymous) s fun _ _ => True := by
  unfold readDeclarations
  refine (grows_declarationName hs).bind ?_
  intro name s₁ hs₁ hR₁ hName
  refine (grows_declarationKind hs₁ defines name).bind ?_
  intro kind s₂ hs₂ hR₂ hKind
  exact grows_readDeclarators hs₂ ((h.grown hR₁).grown hR₂) hKind
    (hs.declarable (hR₁.trans hR₂) hType) hName anonymous

theorem union_of_admits_case {kind : EntityKind} (h : kind.admits .case = true) :
    kind = .union := by
  cases kind <;> first | rfl | cases h

theorem grows_readMember (hs : s.Sound) (h : st.Sound s.tree) {t : Token}
    (ht : t.Lexical) : Grows (Grown st.owner) (st.readMember t) s fun _ _ => True := by
  unfold readMember
  dsimp only
  split
  · exact grows_failAtToken _ _
  · split
    · exact grows_failAtToken _ _
    · split
      · split
        · exact grows_failAtToken _ _
        · rename_i hAdmits
          refine grows_readCase hs h.owner ?_ t st.comments
          rw [h.kind]
          rw [Bool.not_eq_true, Bool.or_eq_false_iff, Bool.not_eq_false'] at hAdmits
          exact union_of_admits_case hAdmits.2
      · split
        · split
          · exact grows_failAtToken _ _
          · exact grows_readAttributes hs h
        · refine (grows_putBack hs ht).bind ?_
          intro _ s₁ hs₁ hR₁ _
          refine (grows_readType hs₁ st.owner).bind ?_
          intro type s₂ hs₂ hR₂ hType
          exact grows_readDeclarations hs₂ ((h.grown hR₁).grown hR₂) hType false false

/-! ## Statements with definitions -/

theorem grows_definedType (hs : s.Sound) {id : EntityId} (hNamed : s.tree.Named id) (t : Token) :
    Grows R (definedType id t) s fun type s' => s'.tree.Declarable type := by
  unfold definedType
  refine Grows.entity ?_
  split
  · rename_i base hBase
    refine Grows.pure hs (declarable_of_baseType? hNamed ?_ _)
    unfold Entity.baseType?
    split
    · rename_i hTypedef
      rw [hTypedef] at hBase
      cases hBase
    · exact hBase
  · exact grows_failAtToken _ _

theorem grows_finishDefinition (hs : s.Sound) (h : st.Sound s.tree) {id : EntityId}
    (hNamed : s.tree.Named id) {t : Token} (ht : t.Lexical) :
    Grows (Grown st.owner) (st.finishDefinition id t) s fun _ _ => True := by
  unfold finishDefinition
  dsimp only
  split
  · exact grows_failAtToken_bind _ _
  · refine ((keeps_endAt id t).grows hs).bind ?_
    intro _ s₁ hs₁ hR₁ _
    refine Grows.entity ?_
    split
    · exact Grows.pure hs₁ trivial
    · split
      · exact grows_failAtToken _ _
      · refine (grows_putBack hs₁ ht).bind ?_
        intro _ s₂ hs₂ hR₂ _
        refine (grows_generateName hs₂ (by decide)).bind ?_
        intro name s₃ hs₃ hR₃ hName
        have hR := hR₁.trans (hR₂.trans hR₃)
        refine (grows_definedType hs₃ ((hs.extends hR).named hNamed) t).bind ?_
        intro type s₄ hs₄ hR₄ hType
        refine (grows_putBack hs₄ fun _ => hName).bind ?_
        intro _ s₅ hs₅ hR₅ _
        exact grows_readDeclarations hs₅ (h.grown (hR.trans (hR₄.trans hR₅)))
          (hs₄.declarable hR₅ hType) true true

theorem grows_readBehindDefinition (hs : s.Sound) (h : st.Sound s.tree)
    {id : EntityId} (hNamed : s.tree.Named id) {t : Token} (ht : t.Lexical) :
    Grows (Grown st.owner) (st.readBehindDefinition id t) s fun _ _ => True := by
  unfold readBehindDefinition
  dsimp only
  split
  · exact grows_finishDefinition hs h hNamed ht
  · split
    · exact grows_failAtToken _ _
    · split
      · exact grows_failAtToken _ _
      · split
        · exact grows_failAtToken _ _
        · refine (grows_putBack hs ht).bind ?_
          intro _ s₁ hs₁ hR₁ _
          refine (grows_definedType hs₁ ((hs.extends hR₁).named hNamed) t).bind ?_
          intro type s₂ hs₂ hR₂ hType
          exact grows_readDeclarations hs₂ ((h.grown hR₁).grown hR₂) hType true false

/-- Reads what follows a definition in its statement. -/
def readBehind (st : Statement) (id : EntityId) : Parsing Unit := do
  let u ← next
  attachAfter id u.position.line
  st.behind.readBehindDefinition id u

theorem grows_readBehind (hs : s.Sound) (h : st.Sound s.tree) {id : EntityId}
    (hNamed : s.tree.Named id) :
    Grows (Grown st.owner) (st.readBehind id) s fun _ _ => True := by
  unfold readBehind
  refine (grows_next hs).bind ?_
  intro u s₁ hs₁ hR₁ hu
  refine ((keeps_attachAfter id u.position.line).grows hs₁).bind ?_
  intro _ s₂ hs₂ hR₂ _
  have hR := hR₁.trans hR₂
  exact grows_readBehindDefinition hs₂ (h.grown hR).behind ((hs.extends hR).named hNamed) hu

/-- Reads a statement that starts with a token; says which definition that opens. -/
def readRest (content : EntityId → Parsing Unit) (st : Statement) (t : Token) :
    Option EntityKind → Parsing Unit
  | none => st.readMember t
  | some kind =>
    if !st.ownerKind.admits (.definition kind) then failAtToken (.keywordUnexpected t.text) t
    else do
      let id ← readDefinition content st.owner kind t st.modifiers.isLocal
        (if st.modifiers.declares then [] else st.comments)
      st.readBehind id

end Statement

/-- Reads the first tokens of a statement. Also gives the last one of them and the kind of the
definition that it opens. -/
def openStatement (owner : EntityId) : Parsing (Statement × Token × Option EntityKind) := do
  let e ← entity owner
  let comments ← commentsBefore
  let first ← next
  let (modifiers, t) ← readModifiers e.kind first
  let kind? ← definitionKind? t
  return ({ owner, ownerKind := e.kind, modifiers, position := first.position, comments }, t, kind?)

/-- The first tokens of a statement are read, and then the rest of it. -/
theorem readStatement_eq (content : EntityId → Parsing Unit) (owner : EntityId) :
    readStatement content owner =
      openStatement owner >>= fun r => r.1.readRest content r.2.1 r.2.2 := by
  unfold readStatement openStatement
  simp only [bind_assoc, pure_bind]
  refine bind_congr fun e => bind_congr fun comments => bind_congr fun first => bind_congr fun r =>
    bind_congr fun kind? => ?_
  cases kind? <;> rfl

/-! ## Content -/

/-- Whether statements may be read in an entity. -/
structure Body (t : Tree) (owner : EntityId) : Prop where
  ready : t.Owner owner
  kind : (t.get owner).kind ≠ .enum

theorem Body.steps {t t' : Tree} {owner : EntityId} (h : Body t owner) (hSteps : Steps t t')
    (hCalm : t.Calm → t'.Calm) : Body t' owner := by
  have hExtends := hSteps.extends (Nat.zero_lt_of_lt h.ready.ready.lt)
  refine ⟨h.ready.extends hExtends (hCalm h.ready.ready.calm), ?_⟩
  rw [hExtends.kind owner h.ready.ready.lt]
  exact h.kind

theorem Body.continues {t t' : Tree} {owner : EntityId} (h : Body t owner)
    (hContinues : Continues owner t t') : Body t' owner :=
  h.steps (Course.steps hContinues) hContinues.calm

theorem noted_openStatement (hs : s.Sound) {owner : EntityId} (h : Body s.tree owner) :
    Grows Noted (openStatement owner) s fun r s' => r.1.owner = owner ∧
      r.1.Sound s'.tree ∧ r.2.1.Lexical ∧ ∀ kind ∈ r.2.2, kind.isDefinition = true := by
  unfold openStatement
  refine Grows.entity ?_
  refine (keeps_commentsBefore.grows hs).bind ?_
  intro comments s₁ hs₁ hR₁ _
  refine (grows_next hs₁).bind ?_
  intro first s₂ hs₂ hR₂ hFirst
  refine (grows_readModifiers hs₂ _ hFirst).bind ?_
  rintro ⟨modifiers, t⟩ s₃ hs₃ hR₃ ht
  refine (grows_definitionKind? hs₃ t).bind ?_
  intro kind? s₄ hs₄ hR₄ hKind
  have hNoted : Noted s.tree s₄.tree := hR₁.trans (hR₂.trans (hR₃.trans hR₄))
  have hOwnerKind := (hs.extends hNoted).kind owner h.ready.ready.lt
  have hBody := h.steps hNoted.quiet.steps hNoted.quiet.calm
  exact Grows.pure hs₄ ⟨rfl, ⟨hBody.ready, hOwnerKind, h.kind⟩, ht, hKind⟩

theorem grows_openStatement (hs : s.Sound) {owner : EntityId} (h : Body s.tree owner) :
    Grows (Grown owner) (openStatement owner) s fun r s' => r.1.owner = owner ∧
      r.1.Sound s'.tree ∧ r.2.1.Lexical ∧ ∀ kind ∈ r.2.2, kind.isDefinition = true :=
  ((noted_openStatement hs h).within (Noted.grown owner)).mono fun _ _ _ _ hQ => hQ.2

section Content

variable {C K : EntityId → Tree → Tree → Prop} {content : EntityId → Parsing Unit}

/-- A statement adds members, or opens a definition and closes it. -/
theorem reads_readStatement (hReading : Reading C K) (hEntries : ReadsEntries K)
    (hContent : ReadsContent K content) (hs : s.Sound) {owner : EntityId} (h : Body s.tree owner) :
    Grows (C owner) (readStatement content owner) s fun _ _ => True := by
  have := hReading.growth
  rw [readStatement_eq]
  refine ((grows_openStatement hs h).within hReading.grown).bind ?_
  rintro ⟨st, t, kind?⟩ s₁ hs₁ - ⟨-, hOwner, hSound, ht, hKind⟩
  dsimp only at hOwner hSound ht hKind ⊢
  subst hOwner
  cases kind? with
  | none =>
    exact ((Statement.grows_readMember hs₁ hSound ht).within hReading.grown).mono
      fun _ _ _ _ _ => trivial
  | some kind =>
    unfold Statement.readRest
    dsimp only
    split
    · exact grows_failAtToken _ _
    · have hOwnerKind : (s₁.tree.get st.owner).kind ≠ .enum := hSound.kind ▸ hSound.content
      refine (reads_readDefinition hReading hEntries hContent hs₁ hSound.owner hOwnerKind
        (hKind kind rfl) t _ _).bind ?_
      intro id s₂ hs₂ hR₂ hNamed
      have hContinues := hReading.continues hR₂
      have hSound₂ := hSound.steps (Course.steps hContinues) hContinues.calm
      exact ((Statement.grows_readBehind hs₂ hSound₂ hNamed).within hReading.grown).mono
        fun _ _ _ _ _ => trivial

theorem grows_readStatement (hContent : ReadsContent Concludes content) (hs : s.Sound)
    {owner : EntityId} (h : Body s.tree owner) :
    Grows (Continues owner) (readStatement content owner) s fun _ _ => True :=
  reads_readStatement reading_stages readsEntries_stages hContent hs h

/-- Whether the evaluation of members ends the content of what is no enumeration. -/
def ReadsMembers (K : EntityId → Tree → Tree → Prop) : Prop :=
  ∀ (s : Session) (owner : EntityId), s.Sound → Body s.tree owner →
    Grows Steps (evaluateMembers owner) s fun _ s' => K owner s.tree s'.tree

theorem readsMembers_stages : ReadsMembers Concludes := by
  intro s owner hs h
  refine ((grows_evaluateMembers hs h.kind).within Course.steps).mono ?_
  exact fun _ _ _ _ hQ => hQ.1.concludes hQ.2

/-- The content of an entity is read and all its members are evaluated. -/
theorem reads_contentWithin (hReading : Reading C K) (hEntries : ReadsEntries K)
    (hMembers : ReadsMembers K) (n : Nat) (hs : s.Sound) {owner : EntityId}
    (h : Body s.tree owner) :
    Grows Steps (contentWithin n owner) s fun _ s' => K owner s.tree s'.tree := by
  have := hReading.growth
  induction n generalizing s owner with
  | zero => exact grows_fail _
  | succ n ih =>
    unfold contentWithin
    refine ((keeps_peek 0).grows hs).bind ?_
    intro t s₁ hs₁ _ hNoted
    have hFirst := hReading.grown (hNoted.grown owner)
    have h₁ := h.continues (hReading.continues hFirst)
    have hRest : ∀ {x : Parsing Unit}, Grows Steps x s₁ (fun _ s' => K owner s₁.tree s'.tree) →
        Grows Steps x s₁ fun _ s' => K owner s.tree s'.tree :=
      fun hx => hx.mono fun _ _ _ _ hQ => hReading.closes hFirst hQ
    split
    · exact hRest (hMembers s₁ owner hs₁ h₁)
    · split
      · split
        · exact grows_failAtToken _ _
        · exact hRest (hMembers s₁ owner hs₁ h₁)
      · refine hRest ?_
        refine ((reads_readStatement hReading hEntries
          (fun s id hs hOwner hKind => ih hs ⟨hOwner, hKind⟩) hs₁ h₁).within Course.steps).bind ?_
        rintro _ s₂ hs₂ _ ⟨hStatement, -⟩
        refine (ih hs₂ (h₁.continues (hReading.continues hStatement))).mono ?_
        exact fun _ _ _ _ hQ => hReading.closes hStatement hQ

theorem grows_contentWithin (n : Nat) (hs : s.Sound) {owner : EntityId} (h : Body s.tree owner) :
    Grows Steps (contentWithin n owner) s fun _ s' => Concludes owner s.tree s'.tree :=
  reads_contentWithin reading_stages readsEntries_stages readsMembers_stages n hs h

theorem reads_readRoot (hReading : Reading C K) (hEntries : ReadsEntries K)
    (hMembers : ReadsMembers K) (hs : s.Sound) (h : Body s.tree root) :
    Grows Steps readRoot s fun _ s' => K root s.tree s'.tree :=
  Grows.tokensLeft fun n => reads_contentWithin hReading hEntries hMembers n hs h

theorem grows_readRoot (hs : s.Sound) (h : Body s.tree root) :
    Grows Steps readRoot s fun _ s' => Concludes root s.tree s'.tree :=
  reads_readRoot reading_stages readsEntries_stages readsMembers_stages hs h

end Content

end Parsing

end IdlReader
