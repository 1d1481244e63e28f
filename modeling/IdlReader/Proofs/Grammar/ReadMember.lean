import IdlReader.Proofs.Grammar.Content
import IdlReader.Proofs.Grammar.ReadConstant
import IdlReader.Proofs.Token.Scan
import IdlReader.Proofs.Tree.NewMember

/-!
# Members whose type is named behind a keyword

A statement such as `struct S n;` in a body names a type behind the keyword of its kind, and then the
member. Two identifiers behind the keyword tell it from a definition, so it is read as the member that
it writes if the type has one segment and the name is no keyword. If not, a definition of the kind is
added.

* `ends_openStatement`: what two tokens behind the keyword decide.
* `ends_readMember`: the member.
* `places_readStatement`: the definition that is added otherwise.
-/

namespace IdlReader

open IdlReader.Tree

/-! ## Written members -/

/-- A scoped name as it is written. -/
structure WrittenName where
  leading : Option Token
  first : Token
  rest : List (Token × Token)
  hLeading : ∀ c ∈ leading, c.spelling = (.separator, "::")
  hFirst : first.isIdentifier = true
  hRest : ∀ x ∈ rest, x.1.spelling = (.separator, "::") ∧ x.2.isIdentifier = true

namespace WrittenName

def tokens (n : WrittenName) : List Token :=
  n.leading.toList ++ n.first :: n.rest.flatMap fun x => [x.1, x.2]

def text (n : WrittenName) : String := String.join (n.tokens.map Token.text)

/-- Whether a name is one identifier. -/
def IsSimple (n : WrittenName) : Prop := n.leading = none ∧ n.rest = []

theorem IsSimple.tokens {n : WrittenName} (h : n.IsSimple) : n.tokens = [n.first] := by
  unfold WrittenName.tokens
  rw [h.1, h.2]
  rfl

theorem IsSimple.text {n : WrittenName} (h : n.IsSimple) : n.text = n.first.text := by
  unfold WrittenName.text
  rw [h.tokens]
  exact String.empty_append

end WrittenName

/-- The statement of a member whose type is named behind the keyword of its kind. -/
structure WrittenMember (env : Environment) where
  kind : EntityKind
  base : BaseType
  keyword : Token
  type : WrittenName
  name : Token
  terminator : Token
  hKind : kind.mayBeUnnamed = true
  hBase : kind.baseType? = some base
  hKeyword : EntityKind.ofKeyword? keyword = some kind
  hName : name.isIdentifier = true ∨
    name.isKeyword = true ∧ env.enables .contextDependentNames = true
  hTerminator : terminator.spelling = (.separator, ";")

namespace WrittenMember

variable {env : Environment} (m : WrittenMember env)

def tokens : List Token := m.keyword :: (m.type.tokens ++ [m.name, m.terminator])

/-- What is declared if the name of the type leads to an entity. -/
def declaration (found : EntityId) : Declaration :=
  { type := { base := m.base, text := m.type.text, definition := some found } }

/-- Whether the member can be added to a body: its type is a definition of the kind, and its name is
free. -/
structure Fits (t : Tree) (owner found : EntityId) : Prop where
  body : (t.get owner).kind = .struct ∨ (t.get owner).kind = .exception
  type : t.findType owner m.type.text = some found
  kind : (t.get found).kind = m.kind
  full : (t.get found).forward = false
  free : t.Free owner m.name.text

theorem kind_cases : (m.kind = .struct ∧ m.base = .struct) ∨ (m.kind = .union ∧ m.base = .union) ∨
    (m.kind = .enum ∧ m.base = .enum) := by
  obtain ⟨kind, base, keyword, type, name, terminator, hKind, hBase, hKeyword, hName, hTerminator⟩ := m
  cases kind <;> cases hKind <;> cases hBase <;> simp

/-- The keyword is the name of the base type that its kind has. -/
theorem ofText?_keyword : BaseType.ofText? env m.keyword.text = some m.base ∧
    m.base.elaborates? = some m.kind ∧ m.kind ≠ .typedef ∧ m.keyword.text ≠ "long" ∧
      m.keyword.text ≠ "unsigned" ∧ m.base ≠ .void ∧ m.base ≠ .interface := by
  rw [(Parsing.keyword_of_ofKeyword? m.hKeyword).2]
  rcases m.kind_cases with ⟨hKind, hBase⟩ | ⟨hKind, hBase⟩ | ⟨hKind, hBase⟩ <;>
    rw [hKind, hBase] <;> refine ⟨rfl, rfl, ?_⟩ <;> decide

/-- The two tokens behind the keyword are identifiers if the type has one segment and the name is no
keyword. -/
theorem exists_second : ∃ u v us, m.tokens = m.keyword :: u :: v :: us ∧
    ((u.isIdentifier && v.isIdentifier) = true ↔ m.type.IsSimple ∧ m.name.isIdentifier = true) := by
  have hMark : ∀ {c : Token}, c.spelling = (.separator, "::") → c.isIdentifier = false := by
    intro c hc
    have hKind : c.kind = .separator := congrArg Prod.fst hc
    unfold Token.isIdentifier
    rw [hKind]
    rfl
  have hFirst := m.type.hFirst
  unfold tokens WrittenName.tokens WrittenName.IsSimple
  cases hLeading : m.type.leading with
  | some c =>
    have hc := hMark (m.type.hLeading c hLeading)
    exact ⟨c, m.type.first, _, rfl, by simp [hc]⟩
  | none =>
    cases hRest : m.type.rest with
    | nil => exact ⟨m.type.first, m.name, _, rfl, by simp [hFirst]⟩
    | cons x xs =>
      have hx := hMark (m.type.hRest x (by rw [hRest]; exact List.mem_cons_self)).1
      exact ⟨m.type.first, x.1, _, rfl, by simp [hx]⟩

end WrittenMember

namespace Parsing

variable {s : Session} {env : Environment} {t u v : Token} {ts : List Token} {I : Tree → Prop}
  {E : Fault → Prop} {owner found : EntityId} {kind : EntityKind}

/-! ## The first tokens -/

/-- A keyword opens a definition of its kind unless two identifiers follow it. -/
theorem ends_openStatement (hKeyword : EntityKind.ofKeyword? t = some kind)
    (h : s.Awaits env (t :: u :: v :: ts) I) (hI : Lasting I) :
    Ends (openStatement owner) s (fun r s' => r.1.owner = owner ∧
      r.1.ownerKind = (s.tree.get owner).kind ∧ r.1.modifiers = {} ∧ r.2.1 = t ∧
      r.2.2 = (if u.isIdentifier && v.isIdentifier then none else some kind) ∧
      s'.Awaits env (u :: v :: ts) I) E := by
  unfold openStatement
  refine Ends.entity ?_
  refine (ends_commentsBefore h hI).bind fun comments s₁ h₁ => ?_
  refine (ends_next h₁ hI).bind ?_
  rintro k s₂ ⟨rfl, h₂⟩
  rw [readModifiers_of_ofKeyword? hKeyword, pure_bind]
  have hStarts : Ends startsDefinition s₂ (fun starts s' =>
      starts = !(u.isIdentifier && v.isIdentifier) ∧ s'.Awaits env (u :: v :: ts) I) E := by
    unfold startsDefinition
    refine (ends_peek h₂ hI rfl).bind ?_
    rintro a s₃ ⟨rfl, h₃⟩
    refine (ends_peek h₃ hI rfl).bind ?_
    rintro b s₄ ⟨rfl, h₄⟩
    exact Ends.pure ⟨rfl, h₄⟩
  have hDefinition : Ends (definitionKind? k) s₂ (fun kind? s' =>
      kind? = (if u.isIdentifier && v.isIdentifier then none else some kind) ∧
        s'.Awaits env (u :: v :: ts) I) E := by
    unfold definitionKind?
    rw [hKeyword]
    refine hStarts.bind ?_
    rintro starts s₃ ⟨rfl, h₃⟩
    cases u.isIdentifier && v.isIdentifier with
    | true => exact Ends.pure ⟨rfl, h₃⟩
    | false => exact Ends.pure ⟨rfl, h₃⟩
  refine hDefinition.bind ?_
  rintro kind? s₃ ⟨hKind, h₃⟩
  exact Ends.pure ⟨rfl, rfl, rfl, rfl, hKind, h₃⟩

/-! ## The type -/

/-- A name goes on behind `::` only. -/
theorem ends_readTypeName (hName : IsName t.text) (hNext : u.is "::" = false)
    (h : s.Awaits env (u :: ts) I) (hI : Lasting I)
    (hFound : ∀ t', I t' → t'.findType owner t.text = some found) :
    Ends (readTypeName owner t) s (fun r s' => r = (t.text, found) ∧ s'.Awaits env (u :: ts) I)
      E := by
  have hFinish : u.isFinish = false := h.unfinished u List.mem_cons_self
  have hColon : t.text.toList.getLast? ≠ some ':' := by
    intro hLast
    have hWord := hName.isWord ':' (List.mem_of_getLast? hLast)
    revert hWord
    decide
  have hScopedName : Ends (readScopedName t) s (fun r s' => r = (t.text, t) ∧
      s'.Awaits env (u :: ts) I) E := by
    unfold readScopedName
    refine Ends.tokensLeft h ?_
    unfold scopedNameRest
    rw [if_neg hColon]
    refine (ends_next h hI).bind ?_
    rintro w s₁ ⟨rfl, h₁⟩
    rw [hNext]
    exact (ends_putBack h₁ hFinish).bind fun _ _ h₂ => Ends.pure ⟨rfl, h₂⟩
  unfold readTypeName
  refine hScopedName.bind ?_
  rintro r s₁ ⟨rfl, h₁⟩
  refine Ends.tree ?_
  rw [hFound s₁.tree h₁.tree]
  exact Ends.pure ⟨rfl, h₁⟩

variable {m : WrittenMember env}

/-- The type of a member is the one that its name leads to. -/
theorem ends_readType_named (hSimple : m.type.IsSimple) (hName : IsName m.type.first.text)
    (hNext : u.is "::" = false) (h : s.Awaits env (m.keyword :: m.type.first :: u :: ts) I)
    (hI : Lasting I) (hFound : ∀ t', I t' → t'.findType owner m.type.first.text = some found ∧
      (t'.get found).kind = m.kind ∧ (t'.get found).forward = false) :
    Ends (readType owner) s (fun type s' => type = (m.declaration found).type ∧
      s'.Awaits env (u :: ts) I) E := by
  obtain ⟨hBase, hElaborates, hTypedef, hLong, hUnsigned, -, -⟩ := m.ofText?_keyword
  obtain ⟨hKeyword, -⟩ := keyword_of_ofKeyword? m.hKeyword
  have hWord : m.keyword.isWord = true := by
    unfold Token.isWord
    rw [hKeyword, Bool.or_true]
  have hText : baseTypeText m.keyword = pure m.keyword.text := by
    unfold baseTypeText
    rw [Token.not_is_of_text_ne hLong, Token.not_is_of_text_ne hUnsigned]
    rfl
  have hElaborated : ∀ {s : Session}, s.Awaits env (m.type.first :: u :: ts) I →
      Ends (elaboratedType owner m.base m.kind m.keyword) s (fun type s' =>
        type = (m.declaration found).type ∧ s'.Awaits env (u :: ts) I) E := by
    intro s h
    unfold elaboratedType
    refine (ends_next h hI).bind ?_
    rintro a s₁ ⟨rfl, h₁⟩
    refine (ends_readTypeName hName hNext h₁ hI fun t' ht' => (hFound t' ht').1).bind ?_
    rintro r s₂ ⟨rfl, h₂⟩
    refine Ends.tree ?_
    obtain ⟨-, hKind, hFull⟩ := hFound s₂.tree h₂.tree
    have hResolved : s₂.tree.resolved found = found :=
      resolved_of_full (hKind ▸ hTypedef) hFull
    dsimp only
    rw [hResolved, if_neg (not_not_intro hKind)]
    refine Ends.pure ⟨?_, h₂⟩
    unfold WrittenMember.declaration
    rw [hSimple.text]
  unfold readType
  refine Ends.tokensLeft h ?_
  unfold typeWithin
  refine (ends_next h hI).bind ?_
  rintro k s₁ ⟨rfl, h₁⟩
  rw [hWord, hText, pure_bind]
  refine Ends.get ?_
  rw [if_pos hKeyword, h₁.env, hBase]
  dsimp only
  unfold baseType
  dsimp only
  rw [hElaborates]
  exact hElaborated h₁

/-! ## The member -/

variable {name : String} {J : EntityId → Declaration → Tree → Prop}

/-- A field without dimensions and without an assignment is added. -/
theorem ends_readDeclarator_field {d : Declarator} (hOwner : d.owner = owner)
    (hKind : d.kind = .field) (hVoid : d.type.base ≠ .void) (hInterface : d.type.base ≠ .interface)
    (hName : d.name.text = name) (hAccepts : Tree.Accepts .field .field owner name I J)
    (hTerminator : u.spelling = (.separator, ";")) (h : s.Awaits env (u :: ts) I)
    (comments : List Token) :
    Ends (readDeclarator d comments) s (fun r s' => r.2 = u ∧
      s'.Awaits env ts (J r.1 { type := d.type, readonly := d.readonly })) E := by
  have hIs := Token.is_of_spelling hTerminator (by decide)
  have hStart := hAccepts.behind
  unfold readDeclarator
  refine (ends_declare hOwner hKind hVoid hInterface hName hAccepts h comments).bind ?_
  intro id s₁ h₁
  rw [hKind, if_neg (by decide)]
  have hDimensions : Ends (readDimensions .field) s₁ (fun ds s' => ds = [] ∧
      s'.Awaits env (u :: ts) (J id { type := d.type, readonly := d.readonly })) E := by
    unfold readDimensions
    refine Ends.tokensLeft h₁ ?_
    unfold dimensionsWithin
    refine (ends_peek h₁ (hStart _ _) rfl).bind ?_
    rintro w s' ⟨rfl, h'⟩
    rw [hIs]
    exact Ends.pure ⟨rfl, h'⟩
  refine hDimensions.bind ?_
  rintro ds s₂ ⟨rfl, h₂⟩
  dsimp only
  rw [if_neg (by decide)]
  refine (ends_next h₂ (hStart _ _)).bind ?_
  rintro w s₃ ⟨rfl, h₃⟩
  have hRaises : readRaises d.owner .field d.readonly w = pure ({}, w) := rfl
  have hInitializer : readInitializer .field w = pure ([], w) := by
    unfold readInitializer
    rw [hIs]
    rfl
  rw [pure_bind]
  dsimp only
  rw [hRaises, pure_bind]
  dsimp only
  rw [hInitializer, pure_bind]
  dsimp only
  have hModify : Ends (modifyDeclaration id fun e =>
      { e with
        dimensions := [], parameters := [], constOperation := false, assignment := []
        raises := [], getRaises := [], setRaises := [] }) s₃ (fun _ s' =>
          s'.Awaits env ts (J id { type := d.type, readonly := d.readonly })) E := by
    exact ends_modifyEntity h₃ fun hTree => hAccepts.modify id _ _ hTree fun e =>
      { e with
        dimensions := [], parameters := [], constOperation := false, assignment := []
        raises := [], getRaises := [], setRaises := [] }
  refine hModify.bind fun _ s₄ h₄ => ?_
  refine (ends_attachAfter h₄ (hStart _ _) id _).bind fun _ s₅ h₅ => ?_
  exact (ends_endAt h₅ (hStart _ _) id _).bind fun _ _ h₆ => Ends.pure ⟨rfl, h₆⟩

/-- The name of a field behind its type is read, and the field is added. -/
theorem ends_readDeclarations_field {st : Statement} (hOwner : st.owner = owner)
    (hModifiers : st.modifiers = {}) (hAdmits : st.ownerKind.admits .field = true)
    {type : DeclaredType} (hVoid : type.base ≠ .void) (hInterface : type.base ≠ .interface)
    (hName : t.isIdentifier = true ∨
      t.isKeyword = true ∧ env.enables .contextDependentNames = true)
    (hAccepts : Tree.Accepts .field .field owner t.text I J)
    (hTerminator : u.spelling = (.separator, ";")) (h : s.Awaits env (t :: u :: ts) I) :
    Ends (st.readDeclarations type false false) s (fun _ s' => ∃ id,
      s'.Awaits env ts (J id { type })) E := by
  have hIs := Token.is_of_spelling hTerminator (by decide)
  unfold Statement.readDeclarations
  refine (ends_declarationName hName h hAccepts.before).bind ?_
  rintro w s₁ ⟨rfl, h₁⟩
  have hKind : Ends (st.declarationKind false w) s₁ (fun k s' => k = .field ∧
      s'.Awaits env (u :: ts) I) E := by
    unfold Statement.declarationKind
    refine (ends_peek h₁ hAccepts.before rfl).bind ?_
    rintro x s' ⟨rfl, h'⟩
    rw [hIs, hModifiers, hAdmits]
    exact Ends.pure ⟨rfl, h'⟩
  refine hKind.bind ?_
  rintro k s₂ ⟨rfl, h₂⟩
  unfold Statement.readDeclarators
  refine Ends.tokensLeft h₂ ?_
  unfold declaratorsWithin
  rw [hModifiers]
  refine (ends_readDeclarator_field hOwner rfl hVoid hInterface rfl hAccepts hTerminator h₂ _).bind ?_
  rintro ⟨id, x⟩ s₃ ⟨rfl, h₃⟩
  dsimp only
  rw [hIs, hIs]
  exact Ends.pure ⟨id, h₃⟩

/-- Two identifiers behind the keyword are the type and the name of a new field. -/
theorem ends_readMember {t : Tree} (hReachable : t.Reachable) (hFits : m.Fits t owner found)
    (hSimple : m.type.IsSimple) (hIdentifier : m.name.isIdentifier = true)
    (hLexical : Lexical m.tokens) (content : EntityId → Parsing Unit)
    (h : s.Awaits env (m.tokens ++ ts) (Records t)) :
    Ends (readStatement content owner) s (fun _ s' => ∃ x, s'.Awaits env ts fun t' =>
      t.Gets t' owner x .field m.name.text (m.declaration found)) E := by
  have hField : (t.get owner).kind.admits .field = true := by
    rcases hFits.body with hKind | hKind <;> rw [hKind] <;> rfl
  have hAccepts : Accepts .field .field owner m.name.text (Records t)
      (fun x d t' => t.Gets t' owner x .field m.name.text d) :=
    Gets.accepts hReachable hField hFits.free rfl rfl
  have hLasting := hAccepts.before
  obtain ⟨-, -, -, -, -, hVoid, hInterface⟩ := m.ofText?_keyword
  have hKeyword := keyword_of_ofKeyword? m.hKeyword
  have hTwo : (m.type.first.isIdentifier && m.name.isIdentifier) = true := by
    rw [m.type.hFirst, hIdentifier]
    rfl
  have hTokens : m.tokens ++ ts = m.keyword :: m.type.first :: m.name :: m.terminator :: ts := by
    unfold WrittenMember.tokens
    rw [hSimple.tokens]
    rfl
  have hNames : IsName m.type.first.text ∧ IsName m.name.text := by
    unfold WrittenMember.tokens at hLexical
    rw [hSimple.tokens] at hLexical
    exact ⟨hLexical m.type.first (by simp) (by rw [Token.isWord, m.type.hFirst, Bool.true_or]),
      hLexical m.name (by simp) (by rw [Token.isWord, hIdentifier, Bool.true_or])⟩
  have hFound : ∀ t', Records t t' → t'.findType owner m.type.first.text = some found ∧
      (t'.get found).kind = m.kind ∧ (t'.get found).forward = false := by
    intro t' hRecords
    have hType := hFits.type
    rw [hSimple.text] at hType
    have hLt := ((wellFormed_of_reachable hReachable).findType_found hType).1.1
    refine ⟨?_, (hRecords.entity found hLt).kind.trans hFits.kind,
      (hRecords.entity found hLt).forward.trans hFits.full⟩
    rw [hRecords.findType hReachable (.of_isName hNames.1) hFits.free.lt]
    exact hType
  have hNotMember : ∀ text ∈ [";", "case", "default", "attribute"], m.keyword.is text = false :=
    fun text hText => not_is_of_ofKeyword? m.hKeyword (by
      simp only [List.mem_cons, List.not_mem_nil, or_false] at hText
      rcases hText with rfl | rfl | rfl | rfl <;> decide)
  have hMark : m.name.is "::" = false := by
    refine Token.not_is_of_text_ne fun hText => ?_
    have hName := hNames.2
    rw [hText] at hName
    revert hName
    decide
  rw [hTokens] at h
  rw [readStatement_eq]
  refine (ends_openStatement m.hKeyword h hLasting).bind ?_
  rintro ⟨st, k, kind?⟩ s₁ ⟨hOwner, hOwnerKind, hModifiers, rfl, hNone, h₁⟩
  dsimp only at hOwner hOwnerKind hModifiers hNone ⊢
  rw [hTwo, if_pos rfl] at hNone
  rw [hNone]
  have hAdmits : st.ownerKind.admits .field = true := by
    rw [hOwnerKind]
    exact hAccepts.admits s.tree h.tree
  have hOne : m.keyword.isOneOf ["case", "default"] = false := by
    simp [Token.isOneOf, hNotMember "case" (by simp), hNotMember "default" (by simp)]
  unfold Statement.readRest Statement.readMember
  dsimp only
  rw [hModifiers, hNotMember ";" (by simp), hOne, hNotMember "attribute" (by simp)]
  refine (ends_putBack h₁ (Token.not_isFinish_of_isKeyword hKeyword.1)).bind fun _ s₂ h₂ => ?_
  rw [hOwner]
  refine (ends_readType_named hSimple hNames.1 hMark h₂ hLasting hFound).bind ?_
  rintro type s₃ ⟨rfl, h₃⟩
  exact ends_readDeclarations_field hOwner hModifiers hAdmits hVoid hInterface m.hName hAccepts
    m.hTerminator h₃

/-! ## The definition -/

/-- What is read as a definition is added to the tree. -/
theorem places_readDefinition {content : EntityId → Parsing Unit}
    (hContent : ReadsContent Concludes content) (hs : s.Sound) (hOwner : s.tree.Owner owner)
    (hOwnerKind : (s.tree.get owner).kind ≠ .enum) (hDefinition : kind.isDefinition = true)
    (keyword : Token) (isLocal : Bool) (comments : List Token) :
    Grows (Continues owner) (readDefinition content owner kind keyword isLocal comments) s
      fun id s' => s'.tree.Named id ∧
        ∃ i, s.tree.size ≤ i ∧ i < s'.tree.size ∧ (s'.tree.get i).kind = kind := by
  refine (grows_readDefinition hContent hs hOwner hOwnerKind hDefinition keyword isLocal comments).and
    (C := Steps) ?_
  rw [readDefinition_eq]
  refine (places_openDefinition hs hOwner hOwnerKind hDefinition keyword isLocal comments).bind ?_
  rintro ⟨id, forward⟩ s₁ hs₁ _ ⟨hPlaces, hNamed, hOpened⟩
  obtain ⟨i, hNew, hLt, hKind⟩ := hPlaces.found
  cases forward with
  | true => exact Grows.pure hs₁ ⟨i, hNew, hLt, hKind⟩
  | false =>
    have hOpened : Opened s.tree s₁.tree owner id kind := hOpened
    refine (reads_readBody readsEntries_stages hContent hs₁ hOpened.ready hNamed hOpened.kind).bind ?_
    intro _ s₂ hs₂ hSteps₂ _
    have hExtends := hs₁.extends hSteps₂
    exact Grows.pure hs₂ ⟨i, hNew, Nat.lt_of_lt_of_le hLt hExtends.size,
      (hExtends.kind i hLt).trans hKind⟩

/-- Without two identifiers behind the keyword the statement adds a definition. -/
theorem places_readStatement (hs : s.Sound) (hBody : Body s.tree owner)
    (hKeyword : EntityKind.ofKeyword? t = some kind)
    (hTwo : (u.isIdentifier && v.isIdentifier) = false)
    (h : s.Awaits env (t :: u :: v :: ts) fun _ => True) (n : Nat) :
    Grows Steps (readStatement (contentWithin n) owner) s fun _ s' =>
      ∃ i, s.tree.size ≤ i ∧ i < s'.tree.size ∧ (s'.tree.get i).kind = kind := by
  have hLasting : Lasting fun _ => True := fun _ _ _ _ => trivial
  have hOpen : Grows Noted (openStatement owner) s fun r s' => (r.1.owner = owner ∧
      r.1.Sound s'.tree ∧ r.2.1.Lexical ∧ ∀ kind ∈ r.2.2, kind.isDefinition = true) ∧
        r.2.1 = t ∧ r.2.2 = some kind := by
    intro r s' hRun
    obtain ⟨hs', hNoted, hSound⟩ := noted_openStatement hs hBody r s' hRun
    have hEnds : Ends (openStatement owner) s _ fun _ => True :=
      ends_openStatement hKeyword h hLasting
    unfold Ends at hEnds
    rw [hRun] at hEnds
    obtain ⟨-, -, -, hToken, hDefinition, -⟩ := hEnds
    rw [hTwo] at hDefinition
    exact ⟨hs', hNoted, hSound, hToken, hDefinition⟩
  have hContent : ReadsContent Concludes (contentWithin n) :=
    fun _ _ hs hOwner hKind => grows_contentWithin n hs ⟨hOwner, hKind⟩
  rw [readStatement_eq]
  refine (hOpen.within Course.steps).bind ?_
  rintro ⟨st, k, kind?⟩ s₁ hs₁ hSteps₁ ⟨-, ⟨hOwner, hSound, -, hDefinition⟩, rfl, hSome⟩
  dsimp only at hOwner hSound hDefinition hSome ⊢
  subst hOwner hSome
  have hExtends := hs.extends hSteps₁
  unfold Statement.readRest
  dsimp only
  split
  · exact grows_failAtToken _ _
  · have hOwnerKind : (s₁.tree.get st.owner).kind ≠ .enum := hSound.kind ▸ hSound.content
    refine ((places_readDefinition hContent hs₁ hSound.owner hOwnerKind
      (hDefinition kind rfl) k _ _).within Course.steps).bind ?_
    rintro id s₂ hs₂ _ ⟨hContinues, hNamed, i, hNew, hLt, hKind⟩
    have hSound₂ := hSound.steps (Course.steps hContinues) hContinues.calm
    refine ((Statement.grows_readBehind hs₂ hSound₂ hNamed).within Course.steps).mono ?_
    intro _ s₃ _ hSteps₃ _
    have hExtends₃ := hs₂.extends hSteps₃
    exact ⟨i, Nat.le_trans hExtends.size hNew, Nat.lt_of_lt_of_le hLt hExtends₃.size,
      (hExtends₃.kind i hLt).trans hKind⟩

end Parsing

end IdlReader
