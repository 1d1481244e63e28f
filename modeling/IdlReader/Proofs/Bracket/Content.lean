import IdlReader.Grammar.Content
import IdlReader.Proofs.Bracket.Declarator
import IdlReader.Proofs.Bracket.Evaluation
import IdlReader.Proofs.Document.Reachable
import IdlReader.Proofs.Grammar.Settling

/-!
# Brackets of whole documents

Bodies, discriminators and the bounds of types stand between pairs of brackets, and everything
else that a statement takes is kept or is no bracket. The evaluation of members takes nothing.

Reading takes every token that the sources deliver, behind the directives and the expansion of
macros, and only tokens whose brackets are properly nested make a document.

* `plain_readDefinition`, `plain_readStatement`: what is read in the content of an entity.
* `clears_contentWithin`: the content of an entity, and for the root nothing behind it.
* `clears_readRoot`: everything.
* `brackets_of_read`: brackets of the tokens of a document.
* `unreserved_of_read`: words of the language itself name no definitions.
-/

/-! ## Content -/

namespace IdlReader.Parsing

open IdlReader.Tree

variable {α β : Type} {s : Session} {us : List Bracket}

/-! ## Evaluation -/

/-- Evaluations leave what declarations keep. -/
theorem written?_of_outline {t t' : Tree} (h : t'.outline = t.outline) (i : EntityId) :
    (t'.get i).written? = (t.get i).written? := by
  have hOutline : ∀ u : Tree, (u.get i).written? =
      (u.outline.get i).declaration?.map (Declaration.written (u.outline.get i).kind) := by
    intro u
    rw [declaration?_outline, kind_outline, Entity.written?, Option.map_map]
    rfl
  rw [hOutline, hOutline, h]

theorem unreserved_of_outline {t t' : Tree} (h : t.Unreserved) (hOutline : t'.outline = t.outline) :
    t'.Unreserved := by
  intro i hDefinition
  rw [definition?_congr hOutline] at hDefinition
  rw [name_congr hOutline]
  exact h i hDefinition

namespace Settling

/-- What only settles declarations takes nothing. -/
theorem clears {x : Parsing α} (h : Settling Settles x) (hs : s.Tidy) (us : List Bracket) :
    Clears s.tree.size us x s (fun _ => us) fun _ u => u.ahead = s.ahead := by
  intro a u hRun
  obtain ⟨hSession, hSettles⟩ := h s a u hRun
  have hAhead : u.ahead = s.ahead := by rw [hSession]; rfl
  have hScopes : u.tree.outline.scopes = s.tree.outline.scopes := by rw [hSettles.outline]
  refine ⟨clears_of_ahead (hs.congr (hs.worded.congr hScopes)
    (unreserved_of_outline hs.unreserved hSettles.outline) fun t ht => hAhead ▸ ht)
    (spares_of_lt ?_ fun i _ => written?_of_outline hSettles.outline i) hAhead, hAhead⟩
  exact Nat.le_of_eq (size_congr hSettles.outline).symm

theorem plain {x : Parsing α} (h : Settling Settles x) : Plain x := fun us _ hs =>
  (h.clears hs us).mono fun _ _ _ _ _ => trivial

end Settling

/-! ## Enumerations -/

/-- An entry keeps its assignment, up to the token behind it. -/
theorem balances_readEntry (owner : EntityId) (type : DeclaredType) (us : List Bracket) :
    Balances us (readEntry owner type) (fun t => us ++ brackets [t]) Token.Proper := by
  unfold readEntry
  refine (plain_commentsBefore us).bind fun comments _ => ?_
  refine (balances_declarationName us).bind fun name hName s hs => ?_
  refine clears_added hs (Nat.le_refl _) rfl hName true fun id s₁ hs₁ hFresh hLe₁ hw₁ => ?_
  refine (plain_attachBefore id comments us s₁ hs₁).bind hLe₁ fun _ s₂ hs₂ hSpares₂ _ => ?_
  have hw₂ := (hSpares₂.written id (lt_of_written? hw₁)).trans hw₁
  have hLe₂ := Nat.le_trans hLe₁ hSpares₂.size
  have hEnd : ∀ {u : Session} {t : Token}, u.Tidy → s.tree.size ≤ u.tree.size → t.Proper →
      Clears s.tree.size (us ++ brackets [t]) (do
        attachAfter id t.position.line
        endAt id t
        return t) u (fun t => us ++ brackets [t]) fun t _ => t.Proper := by
    intro u t hu hLe ht
    have hBehind : Balances (us ++ brackets [t]) (do
        attachAfter id t.position.line
        endAt id t
        return t) (fun t => us ++ brackets [t]) Token.Proper :=
      (plain_attachAfter id _ _).bind fun _ _ => (plain_endAt id t _).bind fun _ _ =>
        .pure (.refl _) ht
    exact (hBehind u hu).weaken hLe
  refine (balances_next us s₂ hs₂).bind hLe₂ fun t s₃ hs₃ hSpares₃ ht => ?_
  have hLe₃ := Nat.le_trans hLe₂ hSpares₃.size
  refine .ite (fun hMark => ?_) fun _ => hEnd hs₃ hLe₃ ht
  rw [brackets_of_mark hMark rfl, List.append_nil]
  refine (balances_readAssignment us s₃ hs₃).bind hLe₃ ?_
  rintro ⟨assignment, v⟩ s₄ hs₄ hSpares₄ ⟨hAssignment, hv⟩
  have hw₃ := (hSpares₃.written id (lt_of_written? hw₂)).trans hw₂
  have hw₄ := (hSpares₄.written id (lt_of_written? hw₃)).trans hw₃
  refine (clears_modifyDeclaration hs₄ hFresh hw₄ { kind := .enumEntry, assignment }
    (us ++ brackets [v]) ?_ (fun _ => Written.closed_empty _) fun hClosed => ?_).bind
    (Nat.le_refl _) fun _ s₅ hs₅ hSpares₅ _ => hEnd hs₅ hSpares₅.size hv
  · intro d hd
    rw [Declaration.written, Written.mk.injEq] at hd ⊢
    exact ⟨rfl, hd.2.1, rfl, hd.2.2.2⟩
  · have hKept := amounts_of_bracketed (hClosed.assignment rfl hAssignment)
    rw [assignmentBrackets, ← List.append_assoc]
    exact (hKept.drop us).before _

theorem plain_entriesWithin (owner : EntityId) (type : DeclaredType) (n : Nat) :
    Plain (entriesWithin owner type n) := by
  induction n with
  | zero => exact fun _ => .fail _
  | succ n ih =>
    intro us
    unfold entriesWithin
    refine (balances_peek 0 us).bind fun t _ => .ite (fun _ => .pure (.refl _) trivial) fun _ => ?_
    refine (balances_readEntry owner type us).bind fun u hu => ?_
    refine .ite (fun _ => balances_putBack hu us) fun _ => .ite (fun hComma => ?_) fun _ =>
      .failAtToken _ _
    exact Balances.drop (brackets_of_mark hComma rfl) (ih us)

theorem plain_readEnumeration (owner : EntityId) : Plain (readEnumeration owner) := fun us =>
  .entity fun _ => .tokensLeft fun _ => (plain_entriesWithin owner _ _ us).bind fun _ _ =>
    .entity fun _ => (settling_checkEntries [] _).plain us

/-! ## Definitions -/

theorem plain_basesWithin (scope : EntityId) (kind : EntityKind) (n : Nat) :
    Plain (basesWithin scope kind n) := by
  induction n with
  | zero => exact fun _ => .fail _
  | succ n ih =>
    intro us
    unfold basesWithin
    refine (balances_next us).bind fun first _ => (balances_readScopedName first _).bind ?_
    rintro ⟨name, last⟩ hName
    refine .tree fun t hWorded => ?_
    split
    · exact .failAtToken _ _
    · rename_i found hFound
      refine Balances.drop (brackets_of_findType hWorded hName hFound) ?_
      have hComma : Balances us basesWithin.takeIfComma (fun _ => us) fun _ => True :=
        (balances_next us).bind fun t ht => .ite
          (fun hMark => Balances.drop (brackets_of_mark hMark rfl) (.pure (.refl _) trivial))
          fun _ => (balances_putBack ht us).bind fun _ _ => .pure (.refl _) trivial
      refine .ite (fun _ => .failAtToken_bind _ _) fun _ =>
        .ite (fun _ => .failAtToken_bind _ _) fun _ => hComma.bind fun more _ =>
          .ite (fun _ => ?_) fun _ => .pure (.refl _) trivial
      exact (ih us).bind fun _ _ => .pure (.refl _) trivial

theorem plain_mapDefinition (id : EntityId) (f : Definition → Definition) :
    Plain (modifyEntity id (Entity.mapDefinition f)) :=
  plain_modifyEntity id (fun e => Entity.written?_congr (Entity.alike_mapDefinition f e).kind
    (declaration?_mapDefinition f e)) (Entity.alike_mapDefinition f)

theorem plain_setAnonymous (id : EntityId) (anonymous : Bool) :
    Plain (modifyEntity id fun e => { e with anonymous }) :=
  plain_modifyEntity id (fun _ => rfl) fun _ => ⟨rfl, rfl, rfl, rfl, rfl, rfl⟩

theorem plain_readBases (id scope : EntityId) (kind : EntityKind) :
    Plain (readBases id scope kind) := by
  intro us
  unfold readBases
  refine (balances_next us).bind fun t ht => .ite (fun _ => ?_) fun hColon =>
    .ite (fun _ => .failAtToken _ _) fun _ => ?_
  · exact (balances_putBack ht us).bind fun _ _ => .pure (.refl _) trivial
  · rw [Bool.not_eq_true, Bool.not_eq_false'] at hColon
    refine Balances.drop (brackets_of_mark hColon rfl) (.tokensLeft fun _ => ?_)
    exact (plain_basesWithin scope kind _ us).bind fun bases _ =>
      (plain_mapDefinition id _ us).bind fun _ _ => .pure (.refl _) trivial

theorem plain_readSwitch (id scope : EntityId) : Plain (readSwitch id scope) := by
  intro us
  unfold readSwitch
  refine (balances_peek 0 us).bind fun t _ => .ite (fun _ => .pure (.refl _) trivial) fun _ => ?_
  refine (plain_expectMark rfl _ us).bind fun _ _ => ?_
  refine (balances_expectMark "(" _ us).bind fun _ _ => (balances_peek 0 _).bind fun u _ => ?_
  refine (plain_readType scope _).bind fun type _ =>
    .ite (fun _ => .failAtToken_bind _ _) fun _ => ?_
  refine (balances_expectMark ")" _ _).bind fun _ _ => Balances.hand ?_ (amounts_round us)
  exact (plain_mapDefinition id _ us).bind fun _ _ => .pure (.refl _) trivial

theorem balances_definitionName (owner : EntityId) (kind : EntityKind) (us : List Bracket) :
    Balances us (definitionName owner kind) (fun _ => us) fun r =>
      IsName r.1 ∧ r.1 ∉ Lexicon.keywords := by
  unfold definitionName
  refine (balances_next us).bind fun t ht => .ite (fun hIdentifier => ?_) fun _ =>
    .ite (fun _ => ?_) fun _ => .failAtToken _ _
  · have hWord : t.isWord = true := by rw [Token.isWord, hIdentifier, Bool.true_or]
    exact Balances.drop (brackets_of_isWord hWord ht.lexical)
      (.pure (.refl _) ⟨ht.lexical hWord, ht.unreserved hIdentifier⟩)
  · refine .entity fun e => .ite (fun _ => .failAtToken_bind _ _) fun _ => ?_
    refine (balances_generateName (isName_stem kind) _).bind fun name hName => ?_
    exact (balances_putBack ht us).bind fun _ _ => .pure (.refl _) hName

section Definitions

variable {content : EntityId → Parsing Unit} (hContent : ∀ owner, Plain (content owner))

include hContent

/-- A body takes the closing brace to the opening one in hand. -/
theorem balances_readBody (id : EntityId) (kind : EntityKind) (us : List Bracket) :
    Balances (us ++ markOf "\x7b") (readBody content id kind) (fun _ => us) fun _ => True := by
  unfold readBody
  have hClose : Balances (us ++ markOf "\x7b") (do
      let t ← next
      if !t.is "\x7d" then failAtToken .closeBraceExpected t
      endAt id t) (fun _ => us) fun _ => True := by
    refine (balances_next _).bind fun t _ => .ite (fun _ => .failAtToken_bind _ _) fun hBrace => ?_
    rw [Bool.not_eq_true, Bool.not_eq_false'] at hBrace
    refine Balances.hand (plain_endAt id t us) ?_
    rw [brackets_of_is hBrace, List.append_assoc]
    exact (amounts_pair .curly (.refl [])).drop us
  refine .ite (fun _ => ?_) fun _ => ?_
  · exact (plain_readEnumeration id _).bind fun _ _ => hClose
  · exact (hContent id _).bind fun _ _ => hClose

theorem plain_readDefinition (owner : EntityId) (kind : EntityKind) (keyword : Token)
    (isLocal : Bool) (comments : List Token) :
    Plain (readDefinition content owner kind keyword isLocal comments) := by
  intro us s hs
  unfold readDefinition
  refine (clears_addEntity hs us _ _ _ _ _).bind (Nat.le_refl _) ?_
  rintro id s₁ hs₁ hSpares₁ ⟨-, hLt₁, -, -⟩
  refine (balances_definitionName owner kind us s₁ hs₁).bind hSpares₁.size ?_
  rintro ⟨name, anonymous⟩ s₂ hs₂ hSpares₂ hName
  have hLe₂ := Nat.le_trans hSpares₁.size hSpares₂.size
  have hLt₂ := Nat.lt_of_lt_of_le hLt₁ hSpares₂.size
  have hBody : ∀ found : EntityId, Balances (us ++ markOf "\x7b") (do
      modifyEntity found fun e => { e with anonymous }
      attachBefore found comments
      readBody content found kind
      return found) (fun _ => us) fun _ => True := by
    intro found
    refine (plain_setAnonymous found anonymous _).bind fun _ _ => ?_
    exact (plain_attachBefore found comments _).bind fun _ _ =>
      (balances_readBody hContent found kind us).bind fun _ _ => .pure (.refl _) trivial
  have hHeaded : ∀ (headed : Bool) (u : Session), u.Tidy → s.tree.size ≤ u.tree.size →
      id < u.tree.size → Clears s.tree.size us (do
        let t ← next
        let forward := !t.is "\x7b"
        if (headed || anonymous) && forward then failAtToken .openBraceExpected t
        let id ← nameEntity id name forward true
        if forward then
          putBack t
          return id
        else do
          modifyEntity id fun e => { e with anonymous }
          attachBefore id comments
          readBody content id kind
          return id) u (fun _ => us) fun _ _ => True := by
    intro headed u hu hLe hLt
    refine (balances_next us u hu).bind hLe fun t u₁ hu₁ hSpares₁ ht => ?_
    refine .ite (fun _ => .failAtToken_bind _ _) fun _ => ?_
    refine (clears_nameEntity hu₁ _ (Nat.lt_of_lt_of_le hLt hSpares₁.size) hName.1
      (fun _ => hName.2) _ true).bind (Nat.le_trans hLe hSpares₁.size) fun found u₂ hu₂ hSpares₂ _ => ?_
    have hLe₂ := Nat.le_trans (Nat.le_trans hLe hSpares₁.size) hSpares₂.size
    refine Clears.weaken ?_ hLe₂
    refine Balances.ite (fun _ => ?_) (fun hBrace => ?_) u₂ hu₂
    · exact (balances_putBack ht us).bind fun _ _ => .pure (.refl _) trivial
    · rw [Bool.not_eq_true, Bool.not_eq_false'] at hBrace
      rw [brackets_of_is hBrace]
      exact hBody found
  refine .ite (fun _ => ?_) fun _ => ?_
  · exact (plain_readSwitch id owner us s₂ hs₂).bind hLe₂ fun headed u hu hSpares _ =>
      hHeaded headed u hu (Nat.le_trans hLe₂ hSpares.size) (Nat.lt_of_lt_of_le hLt₂ hSpares.size)
  · exact (plain_readBases id owner kind us s₂ hs₂).bind hLe₂ fun headed u hu hSpares _ =>
      hHeaded headed u hu (Nat.le_trans hLe₂ hSpares.size) (Nat.lt_of_lt_of_le hLt₂ hSpares.size)

end Definitions

theorem isWord_of_ofKeyword? {t : Token} {kind : EntityKind}
    (h : EntityKind.ofKeyword? t = some kind) : t.isWord = true := by
  unfold EntityKind.ofKeyword? at h
  split at h
  · cases h
  · rename_i hKeyword
    rw [Bool.not_eq_true, Bool.not_eq_false'] at hKeyword
    rw [Token.isWord, hKeyword, Bool.or_true]

theorem balances_definitionKind? (t : Token) (us : List Bracket) :
    Balances us (definitionKind? t) (fun _ => us) fun kind? =>
      kind?.isSome = true → t.isWord = true := by
  have hStarts : Balances us startsDefinition (fun _ => us) fun _ => True :=
    (balances_peek 0 us).bind fun _ _ => (balances_peek 1 us).bind fun _ _ =>
      .pure (.refl _) trivial
  unfold definitionKind?
  split
  · exact .pure (.refl _) nofun
  · rename_i kind hKeyword
    exact hStarts.bind fun _ _ => .ite
      (fun _ => .pure (.refl _) fun _ => isWord_of_ofKeyword? hKeyword)
      fun _ => .pure (.refl _) nofun

/-! ## Statements -/

theorem balances_readModifiers (kind : EntityKind) {t : Token} (ht : t.Proper)
    (us : List Bracket) :
    Balances (us ++ brackets [t]) (readModifiers kind t) (fun r => us ++ brackets [r.2])
      fun r => r.2.Proper := by
  have hBehind : ∀ {text : String} (member : Member) (m : Modifiers), t.is text = true →
      markOf text = [] → Balances (us ++ brackets [t]) (do
        if !kind.admits member then failAtToken (.keywordUnexpected t.text) t
        let u ← next
        return (m, u)) (fun r => us ++ brackets [r.2]) fun r => r.2.Proper :=
    fun member m hMark hText => Balances.drop (brackets_of_mark hMark hText)
      (.ite (fun _ => .failAtToken_bind _ _) fun _ =>
        (balances_next us).bind fun u hu => .pure (.refl _) hu)
  unfold readModifiers
  refine .ite (fun hMark => hBehind _ _ hMark rfl) fun _ =>
    .ite (fun hMark => hBehind _ _ hMark rfl) fun _ =>
      .ite (fun hMark => hBehind _ _ hMark rfl) fun _ =>
        .ite (fun hMark => ?_) fun _ => .pure (.refl _) ht
  refine (hBehind (.definition .interface) { isLocal := true } hMark rfl).bind ?_
  rintro ⟨m, u⟩ hu
  exact .ite (fun _ => .failAtToken_bind _ _) fun _ => .pure (.refl _) hu

theorem plain_declaratorsWithin (anonymous : Bool) (n : Nat) {d : Declarator}
    (hName : IsName d.name.text) (comments : List Token) :
    Plain (declaratorsWithin anonymous n d comments) := by
  induction n generalizing d comments with
  | zero => exact fun _ => .fail _
  | succ n ih =>
    intro us s hs
    unfold declaratorsWithin
    refine (clears_readDeclarator hs hName comments us).bind (Nat.le_refl _) ?_
    rintro ⟨id, t⟩ s₁ hs₁ hSpares₁ ⟨ht, -⟩
    have hBehind : Balances (us ++ brackets [t]) (do
        if t.is "," then
          if d.kind.supportsMultiple then do
            let name ← declarationName
            declaratorsWithin anonymous n { d with name, position := name.position } []
          else failAtToken .multipleUnsupported t
        else if t.is ";" then return
        else failAtToken .declarationUnterminated t) (fun _ => us) fun _ => True := by
      refine .ite (fun hComma => .ite (fun _ => ?_) fun _ => .failAtToken _ _) fun _ =>
        .ite (fun hEnd => ?_) fun _ => .failAtToken _ _
      · exact Balances.drop (brackets_of_mark hComma rfl)
          ((balances_declarationName us).bind fun name hName => ih hName [] us)
      · exact Balances.drop (brackets_of_mark hEnd rfl) (.pure (.refl _) trivial)
    refine Clears.weaken ?_ hSpares₁.size
    refine Balances.ite (fun _ => ?_) (fun _ => hBehind) s₁ hs₁
    exact (plain_setAnonymous id true _).bind fun _ _ => hBehind

namespace Statement

variable {st : Statement}

theorem plain_readDeclarators (st : Statement) (kind : EntityKind) (type : DeclaredType)
    {name : Token} (hName : IsName name.text) (anonymous : Bool) :
    Plain (st.readDeclarators kind type name anonymous) := fun us =>
  .tokensLeft fun _ => plain_declaratorsWithin anonymous _ hName _ us

theorem plain_declarationKind (st : Statement) (defines : Bool) (name : Token) :
    Plain (st.declarationKind defines name) := by
  intro us
  unfold declarationKind
  refine (balances_peek 0 us).bind fun t _ => ?_
  exact .ite (fun _ => .ite (fun _ => .failAtToken _ _) fun _ => .pure (.refl _) trivial) fun _ =>
    .ite (fun _ => .pure (.refl _) trivial) fun _ => .ite (fun _ => .pure (.refl _) trivial)
      fun _ => .ite (fun _ => .pure (.refl _) trivial) fun _ => .failAtToken _ _

theorem plain_readAttributes (st : Statement) : Plain st.readAttributes := fun us =>
  (plain_readType st.owner us).bind fun type _ => (balances_declarationName us).bind
    fun _ hName => plain_readDeclarators st _ type hName _ us

theorem plain_readDeclarations (st : Statement) (type : DeclaredType) (defines anonymous : Bool) :
    Plain (st.readDeclarations type defines anonymous) := fun us =>
  (balances_declarationName us).bind fun name hName =>
    (plain_declarationKind st defines name us).bind fun kind _ =>
      plain_readDeclarators st kind type hName anonymous us

/-- A member starts with a token that is in hand. -/
theorem balances_readMember (st : Statement) {t : Token} (ht : t.Proper) (us : List Bracket) :
    Balances (us ++ brackets [t]) (st.readMember t) (fun _ => us) fun _ => True := by
  unfold readMember
  dsimp only
  refine .ite (fun _ => .failAtToken _ _) fun _ => .ite (fun _ => .failAtToken _ _) fun _ =>
    .ite (fun hCase => .ite (fun _ => .failAtToken _ _) fun _ => ?_) fun _ =>
      .ite (fun hMark => .ite (fun _ => .failAtToken _ _) fun _ => ?_) fun _ => ?_
  · exact Balances.drop (brackets_of_isOneOf hCase (by decide)) (plain_readCase st.owner t _ us)
  · exact Balances.drop (brackets_of_mark hMark rfl) (plain_readAttributes st us)
  · exact (balances_putBack ht us).bind fun _ _ => (plain_readType st.owner us).bind
      fun type _ => plain_readDeclarations st type _ _ us

theorem plain_definedType (id : EntityId) (t : Token) : Plain (definedType id t) := by
  intro us
  unfold definedType
  refine .entity fun e => ?_
  split
  · exact .pure (.refl _) trivial
  · exact .failAtToken _ _

/-- The semicolon behind a definition, which is in hand, may be left out. -/
theorem plain_finishDefinition (st : Statement) (id : EntityId) {t : Token} (hEnd : t.is ";" = true)
    (ht : t.Proper) : Plain (st.finishDefinition id t) := by
  intro us
  unfold finishDefinition
  have hMark := brackets_of_mark hEnd rfl
  refine .ite (fun _ => .failAtToken_bind _ _) fun _ => (plain_endAt id t us).bind fun _ _ => ?_
  refine .entity fun e => .ite (fun _ => .pure (.refl _) trivial) fun _ =>
    .ite (fun _ => .failAtToken _ _) fun _ => ?_
  refine (plain_putBack ht hMark us).bind fun _ _ => ?_
  refine (balances_generateName (by decide) us).bind fun name hName => ?_
  refine (plain_definedType id t us).bind fun type _ => ?_
  have hWord : Token.Proper { t with kind := .identifier, text := name } :=
    ⟨fun _ => hName.1, fun _ => hName.2⟩
  exact (plain_putBack hWord (brackets_of_isWord rfl hWord.lexical) us).bind fun _ _ =>
    plain_readDeclarations st type _ _ us

/-- What follows a definition starts with a token that is in hand. -/
theorem balances_readBehindDefinition (st : Statement) (id : EntityId) {t : Token} (ht : t.Proper)
    (us : List Bracket) :
    Balances (us ++ brackets [t]) (st.readBehindDefinition id t) (fun _ => us) fun _ => True := by
  unfold readBehindDefinition
  dsimp only
  refine .ite (fun hEnd => ?_) fun _ => .ite (fun _ => .failAtToken _ _) fun _ =>
    .ite (fun _ => .failAtToken _ _) fun _ => .ite (fun _ => .failAtToken _ _) fun _ => ?_
  · exact Balances.drop (brackets_of_mark hEnd rfl) (plain_finishDefinition st id hEnd ht us)
  · exact (balances_putBack ht us).bind fun _ _ => (plain_definedType id t us).bind
      fun type _ => plain_readDeclarations st type _ _ us

end Statement

/-! ## Content -/

theorem plain_readStatement {content : EntityId → Parsing Unit}
    (hContent : ∀ owner, Plain (content owner)) (owner : EntityId) :
    Plain (readStatement content owner) := by
  intro us
  unfold readStatement
  refine .entity fun e => (plain_commentsBefore us).bind fun comments _ => ?_
  refine (balances_next us).bind fun first hFirst => ?_
  refine (balances_readModifiers e.kind hFirst us).bind ?_
  rintro ⟨modifiers, t⟩ ht
  refine (balances_definitionKind? t _).bind fun kind? hWord => ?_
  cases kind? with
  | none => exact Statement.balances_readMember _ ht us
  | some kind =>
    refine Balances.drop (brackets_of_isWord (hWord rfl) ht.lexical) ?_
    refine .ite (fun _ => .failAtToken _ _) fun _ => ?_
    refine (plain_readDefinition hContent owner kind t _ _ us).bind fun id _ => ?_
    refine (balances_next us).bind fun u hu => (plain_attachAfter id _ _).bind fun _ _ => ?_
    exact Statement.balances_readBehindDefinition _ id hu us

/-- The content of an entity is bracketed, and behind that of the root there is nothing. -/
theorem clears_contentWithin (n : Nat) (owner : EntityId) (us : List Bracket) (hs : s.Tidy) :
    Clears s.tree.size us (contentWithin n owner) s (fun _ => us) fun _ u =>
      owner = Tree.root → u.ahead = [] := by
  induction n generalizing s owner us with
  | zero => exact fun a u hRun => by cases hRun
  | succ n ih =>
    unfold contentWithin
    refine (clears_ahead hs us).bind (Nat.le_refl _) fun t s₁ hs₁ hSpares₁ hAhead => ?_
    have hMembers : (owner = Tree.root → s₁.ahead = []) →
        Clears s.tree.size us (evaluateMembers owner) s₁ (fun _ => us) fun _ u =>
          owner = Tree.root → u.ahead = [] := fun hEnd =>
      (((settling_evaluateMembers owner).clears hs₁ us).weaken hSpares₁.size).mono
        fun _ u _ _ hSame hRoot => hSame.trans (hEnd hRoot)
    refine .ite (fun hFinish => hMembers fun _ => hAhead.2 hFinish) fun _ =>
      .ite (fun _ => ?_) fun _ => ?_
    · by_cases hRoot : owner = Tree.root
      · rw [if_pos hRoot]
        exact fun a u hRun => by cases hRun
      · rw [if_neg hRoot]
        exact hMembers fun h => absurd h hRoot
    · have hContent : ∀ owner, Plain (contentWithin n owner) := fun owner us u hu =>
        (ih owner us hu).mono fun _ _ _ _ _ => trivial
      refine (plain_readStatement hContent owner us s₁ hs₁).bind hSpares₁.size
        fun _ s₂ hs₂ hSpares₂ _ => ?_
      exact (ih owner us hs₂).weaken (Nat.le_trans hSpares₁.size hSpares₂.size)

/-- Everything that is read is bracketed, and there is nothing behind it. -/
theorem clears_readRoot (us : List Bracket) (hs : s.Tidy) :
    Clears s.tree.size us readRoot s (fun _ => us) fun _ u => u.ahead = [] :=
  fun a u hRun => by
    obtain ⟨hClears, hEnd⟩ := clears_contentWithin _ Tree.root us hs a u hRun
    exact ⟨hClears, hEnd rfl⟩

end IdlReader.Parsing

/-! ## Documents -/

namespace IdlReader.Document

open IdlReader.Tree Parsing

variable {env : Environment} {files : FileTree} {input : Input} {d : Document}

theorem worded_initial (caseSensitive : Bool) : (initial caseSensitive).Worded := by
  intro s deep k x hx
  have hScope : (initial caseSensitive).scope s = {} := by
    cases s <;> rfl
  rw [hScope, Scope.get?_empty] at hx
  cases hx

theorem unreserved_initial (caseSensitive : Bool) : (initial caseSensitive).Unreserved := by
  intro i hDefinition
  have hi := (initial caseSensitive).lt_of_definition? hDefinition
  rw [Nat.lt_one_iff.mp hi] at hDefinition
  cases hDefinition

theorem tidy_session (env : Environment) {stream : Stream} (hProper : Each Token.Proper stream.tokens)
    (hSolid : Each Token.Solid stream.tokens) : (session env stream).Tidy where
  proper := hProper
  unfinished := fun t ht => beq_eq_false_iff_ne.mpr (hSolid t ht).finish
  worded := worded_initial _
  unreserved := unreserved_initial _

/-- Words of the language itself name no definitions. -/
theorem unreserved_of_read (h : read env files input = .ok d) : d.tree.Unreserved := by
  obtain ⟨r, hReader, hRead⟩ := IdlReader.bind_eq_ok.mp h
  have hTidy := tidy_session env (proper_deliveries env files input r hReader)
    (solid_deliveries env files input r hReader)
  obtain ⟨s, hRun, rfl⟩ := ofStream_eq_ok.mp hRead
  exact (clears_readRoot [] hTidy () s hRun).1.tidy.unreserved

/-- **Brackets.** A document is read from tokens whose round, square and curly brackets are
properly nested, and all tokens are taken. -/
theorem brackets_of_read (h : read env files input = .ok d) :
    ∃ r s, reader env files input = .ok r ∧ readRoot.run (session env r.stream) = .ok () s ∧
      s.tree = d.tree ∧ s.ahead = [] ∧ Bracketed (brackets r.stream.tokens) := by
  have hClosed : d.tree.Closed := (stages_of_read h).closed
  obtain ⟨r, hReader, hRead⟩ := IdlReader.bind_eq_ok.mp h
  have hTidy := tidy_session env (proper_deliveries env files input r hReader)
    (solid_deliveries env files input r hReader)
  obtain ⟨s, hRun, rfl⟩ := ofStream_eq_ok.mp hRead
  obtain ⟨hClears, hEnd⟩ := clears_readRoot [] hTidy () s hRun
  have hAmounts := hClears.amounts hClosed
  have hNone : s.brackets = [] := by
    rw [Session.brackets, hEnd]
    rfl
  rw [List.nil_append, List.nil_append, hNone] at hAmounts
  exact ⟨r, s, hReader, hRun, rfl, hEnd, bracketed_iff_amounts.mpr hAmounts⟩

/-- A document with brackets of all shapes, some of which come from a macro. -/
theorem brackets_of_read_nested :
    ∃ d r, read {} ⟨[], []⟩ (.text "#define N (1)\nconst long x[N + 1] = {N, (2)};\n") = .ok d ∧
      reader {} ⟨[], []⟩ (.text "#define N (1)\nconst long x[N + 1] = {N, (2)};\n") = .ok r ∧
      (brackets r.stream.tokens).length = 10 ∧ Bracketed (brackets r.stream.tokens) := by
  have hRead : ((read {} ⟨[], []⟩
      (.text "#define N (1)\nconst long x[N + 1] = {N, (2)};\n")).toOption.any fun _ => true) =
      true := by decide +kernel
  have hBrackets : ((reader {} ⟨[], []⟩
      (.text "#define N (1)\nconst long x[N + 1] = {N, (2)};\n")).toOption.any fun r =>
        (brackets r.stream.tokens).length == 10) = true := by decide +kernel
  obtain ⟨d, hRead, -⟩ := any_toOption hRead
  obtain ⟨r, hReader, hLength⟩ := any_toOption hBrackets
  obtain ⟨r', -, hReader', -, -, -, hBracketed⟩ := brackets_of_read hRead
  cases hReader.symm.trans hReader'
  exact ⟨d, r, hRead, hReader, beq_iff_eq.mp hLength, hBracketed⟩

end IdlReader.Document
