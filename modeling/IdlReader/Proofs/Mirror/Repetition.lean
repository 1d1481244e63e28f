import IdlReader.Proofs.Grammar.Reading
import IdlReader.Proofs.Mirror.Content
import IdlReader.Proofs.Mirror.Insertion
import IdlReader.Proofs.Tree.Inheritance
import IdlReader.Proofs.Tree.NewMember

/-!
# Names declared once more

A definition may be declared by its name again wherever it is known already. The declaration takes a
number and a scope of its own, but nothing leads to it: it is no child of anything, and its name stays
that of the first definition. The statement is read on with this first definition, which from then on
ends where the new declaration ends.

* `WrittenForward.Known.exists_setName`: the tree in which a known name was declared once more.
* `Parsing.readStatement_forward`: the statement.
-/

namespace IdlReader

open IdlReader.Tree

/-! ## Declarations -/

/-- A definition that is declared by its name only, as it is written. -/
structure WrittenForward where
  kind : EntityKind
  keyword : Token
  name : Token
  semicolon : Token
  hKeyword : EntityKind.ofKeyword? keyword = some kind
  hName : name.isIdentifier = true
  hSemicolon : semicolon.is ";" = true ∧ semicolon.isIdentifier = false

namespace WrittenForward

variable {f : WrittenForward} {t t' : Tree} {owner m : EntityId}

theorem isDefinition (f : WrittenForward) : f.kind.isDefinition = true :=
  Parsing.isDefinition_of_ofKeyword? f.hKeyword

theorem keyword_not_isFinish (f : WrittenForward) : f.keyword.isFinish = false :=
  Token.not_isFinish_of_isKeyword (Parsing.keyword_of_ofKeyword? f.hKeyword).1

theorem name_not_isFinish (f : WrittenForward) : f.name.isFinish = false :=
  Token.not_isFinish_of_isWord (Bool.or_eq_true_iff.mpr (Or.inl f.hName))

theorem semicolon_not_isFinish (f : WrittenForward) : f.semicolon.isFinish = false :=
  Token.not_isFinish_of_is f.hSemicolon.1

/-- What is added to the tree for the declaration of a known name. -/
def slot (f : WrittenForward) (owner : EntityId) (scope : ScopeId) : Entity :=
  { kind := f.kind, name := f.name.text, parent := some owner, scope := some scope, forward := true
    source := f.keyword.source, span := Span.point f.keyword.position, data := .definition {} }

/-- Whether the name is that of a definition in the scope of `owner` already: `m` is of the same kind,
and its name was written. -/
structure Repeats (f : WrittenForward) (t : Tree) (owner m : EntityId) : Prop where
  admits : (t.get owner).kind.admits (.definition f.kind) = true
  scope : ∃ s, (t.get owner).scope = some s ∧ (t.scope s).get? false (t.key f.name.text) = some m
  kind : (t.get m).kind = f.kind
  written : (t.get m).anonymous = false

/-- Whether the name leads to a definition of which the name is not inherited. -/
structure Known (f : WrittenForward) (t : Tree) (owner m : EntityId) : Prop
    extends f.Repeats t owner m where
  own : t.lookupInBases owner (t.key f.name.text) = none

theorem Known.owner_lt (h : f.Known t owner m) : owner < t.size := by
  obtain ⟨s, hScope, -⟩ := h.scope
  exact lt_size_of_scope hScope

theorem Known.lt (h : f.Known t owner m) (hReachable : t.Reachable) : m < t.size := by
  obtain ⟨s, hScope, hEntry⟩ := h.scope
  have hWellFormed := wellFormed_of_reachable hReachable
  exact (hWellFormed.entry s _ _ m (hWellFormed.scope_lt owner s h.owner_lt hScope) hEntry).1.1

theorem Known.retains (h : f.Known t owner m) (hReachable : t.Reachable)
    (hRetains : Retains t t') : f.Known t' owner m := by
  obtain ⟨s, hScope, hEntry⟩ := h.scope
  have hOwner := hRetains.entity owner h.owner_lt
  have hFirst := hRetains.entity m (h.lt hReachable)
  have hKey := key_eq_of_caseSensitive hRetains.caseSensitive f.name.text
  refine ⟨⟨?_, ⟨s, hOwner.scope.trans hScope, ?_⟩, hFirst.kind.trans h.kind,
    hFirst.anonymous.trans h.written⟩, ?_⟩
  · rw [hOwner.kind]
    exact h.admits
  · rw [scope_eq_of_scopes hRetains.scopes, hKey]
    exact hEntry
  · rw [hKey, hRetains.lookupInBases hReachable _ h.owner_lt]
    exact h.own

/-- A known name that is declared once more leads to the first definition. Nothing else in the tree
changes than that it has the new entity. -/
theorem Known.exists_setName (h : f.Known t owner m) (hReachable : t.Reachable) :
    ∃ t₁ t₂, t.add owner f.kind f.keyword.source (Span.point f.keyword.position) (.definition {}) =
        .ok (t.size, t₁) ∧
      t₁.setName t.size f.name.text true true = .ok (m, t₂) ∧
      t₂.caseSensitive = t.caseSensitive ∧ t₂.size = t.size + 1 ∧ t₂.scopes = t.scopes.push {} ∧
      ∀ i, t₂.get i = if i = t.size then f.slot owner t.scopes.size else t.get i := by
  obtain ⟨s, hScope, hEntry⟩ := h.scope
  have hWellFormed := wellFormed_of_reachable hReachable
  have hSupports : (t.get owner).kind.supportsChildren = true := by
    rw [← hWellFormed.hasScope owner h.owner_lt, hScope]
    rfl
  have hKind : f.kind.supportsChildren = true := by
    rw [EntityKind.supportsChildren, f.isDefinition, Bool.or_true]
  obtain ⟨t₁, hAdd⟩ := exists_add hSupports f.kind f.keyword.source
    (Span.point f.keyword.position) (.definition {})
  obtain ⟨-, -, hSize, hCase, hScopes, hGet⟩ := add_eq_ok hAdd
  rw [hKind] at hScopes hGet
  have hOld : ∀ {i}, i < t.size → t₁.get i = t.get i := fun hi => by
    rw [hGet, if_neg (Nat.ne_of_lt hi)]
  have hBases : t₁.lookupInBases owner (t₁.key f.name.text) = none := by
    have hReflects : Reflects _ t t₁ :=
      ⟨.inserted hReachable m ⟨0, 0⟩ True hCase hSize hScopes hGet, hReachable⟩
    have hSame := hReflects.lookupInBases owner (t.key f.name.text)
    change t₁.lookupInBases (shift t.size owner) _ = _ at hSame
    rw [shift_of_lt h.owner_lt, h.own] at hSame
    rw [key_eq_of_caseSensitive hCase]
    exact hSame
  refine ⟨t₁, (t₁.modify t.size fun e => { e with name := f.name.text }).modify t.size
    fun e => { e with forward := true }, hAdd, ?_, hCase, ?_, hScopes, fun i => ?_⟩
  · have hParent : (t₁.get t.size).parent = some owner := by rw [hGet, if_pos rfl]
    have hNew : (t₁.get t.size).kind = f.kind := by rw [hGet, if_pos rfl]
    have hOwner : (t₁.get owner).scope = some s := by rw [hOld h.owner_lt, hScope]
    have hSort : isDeclarationName f.kind = false := by
      rw [isDeclarationName, EntityKind.not_isDeclaration_of_isDefinition f.isDefinition, Bool.and_false]
    have hOutcome : (t₁.rename t.size f.name.text).nameOutcome f.kind true
        (((t₁.rename t.size f.name.text).scope s).get? false
          ((t₁.rename t.size f.name.text).key f.name.text)) = .ok (.repeated m) := by
      have hFirst := h.lt hReachable
      change nameOutcome _ _ _ ((t₁.scope s).get? _ (t₁.key f.name.text)) = _
      rw [scope_of_push hScopes, key_eq_of_caseSensitive hCase, hEntry, nameOutcome, rename,
        get_modify_of_ne (Nat.ne_of_lt hFirst), hOld hFirst, h.kind]
      simp
    refine setName_eq_ok.mpr ⟨owner, s, hParent, hOwner, hBases, ?_⟩
    unfold enterName
    dsimp only
    rw [kind_rename, hNew, hSort, hOutcome]
    rfl
  · rw [size_modify, size_modify, hSize]
  · have hLt : t.size < t₁.size := hSize ▸ Nat.lt_succ_self _
    by_cases hi : i = t.size
    · rw [hi, get_modify_self (by rwa [size_modify]), get_modify_self hLt, hGet, if_pos rfl,
        if_pos rfl, if_pos rfl]
      rfl
    · rw [get_modify_of_ne hi, get_modify_of_ne hi, hGet, if_neg hi, if_neg hi]

end WrittenForward

/-! ## The statement -/

namespace Parsing

variable {f : WrittenForward} {s u : Session} {t : Token} {t₁ t₂ : Tree} {k m owner : EntityId}
  {ds : List Delivery}

theorem putBack_of_not_isFinish (h : t.isFinish = false) :
    putBack t s = .ok ⟨⟩ { s with cache := t :: s.cache } := by
  unfold putBack
  rw [h]
  rfl

theorem commentsAhead_of_nil (hNone : s.comments = []) (hPeek : peek 0 s = .ok t u) :
    commentsAhead s = .ok u.comments u := by
  unfold commentsAhead
  rw [bind_get, hNone]
  dsimp only
  rw [if_pos List.isEmpty_nil, bind_of_ok hPeek]
  rfl

theorem commentsBefore_of_nil (hNone : s.comments = []) (hPeek : peek 0 s = .ok t s) :
    commentsBefore s = .ok [] s := by
  have hAhead := commentsAhead_of_nil hNone hPeek
  rw [hNone] at hAhead
  unfold commentsBefore
  rw [bind_of_ok hPeek, bind_of_ok hAhead]
  rfl

/-- No comment follows an entity. -/
theorem attachAfter_of_nil (hNone : s.comments = []) (hPeek : peek 0 s = .ok t u)
    (hNone' : u.comments = []) (id : EntityId) (line : Nat) : attachAfter id line s = .ok ⟨⟩ u := by
  have hAhead := commentsAhead_of_nil hNone hPeek
  rw [hNone'] at hAhead
  unfold attachAfter
  change (commentsAhead >>= _) s = _
  rw [bind_of_ok hAhead]
  rfl

/-- The keyword opens a definition, as no two identifiers follow it. -/
theorem definitionKind?_forward (hCache : s.cache = [])
    (hDeliveries : s.stream.deliveries = ⟨{}, f.name⟩ :: ⟨{}, f.semicolon⟩ :: ds) :
    definitionKind? f.keyword s = .ok (some f.kind) { s with
      comments := [], stream := { s.stream with deliveries := ds }, last := some f.semicolon
      cache := [f.name, f.semicolon] } := by
  have hFirst := peek_delivery hDeliveries f.name_not_isFinish
  rw [hCache] at hFirst
  have hSecond := peek_delivery (s := { s with
    comments := [], stream := { s.stream with deliveries := ⟨{}, f.semicolon⟩ :: ds }
    last := some f.name, cache := [f.name] }) rfl f.semicolon_not_isFinish
  have hStarts : startsDefinition s = .ok true { s with
      comments := [], stream := { s.stream with deliveries := ds }, last := some f.semicolon
      cache := [f.name, f.semicolon] } := by
    unfold startsDefinition
    rw [← List.length_nil, bind_of_ok hFirst]
    refine (bind_of_ok hSecond).trans ?_
    rw [f.hSemicolon.2, Bool.and_false]
    rfl
  unfold definitionKind?
  rw [f.hKeyword]
  dsimp only
  rw [bind_of_ok hStarts]
  rfl

/-- Neither a discriminator nor bases stand in front of the semicolon. -/
theorem readHead_forward (hCache : s.cache = [f.semicolon]) (id : EntityId)
    (behind : Bool → Parsing EntityId) :
    (if f.kind = .union then readSwitch id owner >>= behind
      else readBases id owner f.kind >>= behind) s = behind false s := by
  split
  · refine bind_of_ok ?_
    unfold readSwitch
    rw [bind_of_ok (peek_cached hCache), f.hSemicolon.1]
    rfl
  · refine bind_of_ok ?_
    unfold readBases
    rw [bind_of_ok (next_cached hCache), Token.not_is_of_is f.hSemicolon.1 (by decide)]
    change (putBack f.semicolon >>= _) _ = _
    rw [bind_of_ok (putBack_of_not_isFinish f.semicolon_not_isFinish), ← hCache]
    rfl

theorem readDefinition_forward (content : EntityId → Parsing Unit)
    (hCache : s.cache = [f.name, f.semicolon])
    (hAdd : s.tree.add owner f.kind f.keyword.source (Span.point f.keyword.position)
      (.definition {}) = .ok (k, t₁))
    (hSet : t₁.setName k f.name.text true true = .ok (m, t₂)) :
    readDefinition content owner f.kind f.keyword false [] s =
      .ok m { s with tree := t₂, cache := [f.semicolon] } := by
  have hEntity : addEntity owner f.kind f.keyword.source (Span.point f.keyword.position)
      (.definition {}) s = .ok k { s with tree := t₁ } := addEntity_eq_ok.mpr ⟨hAdd, rfl⟩
  have hName : definitionName owner f.kind { s with tree := t₁ } =
      .ok (f.name.text, false) { s with tree := t₁, cache := [f.semicolon] } := by
    unfold definitionName
    rw [bind_of_ok (next_cached (s := { s with tree := t₁ }) hCache), f.hName]
    rfl
  have hSetName : nameEntity k f.name.text true true { s with tree := t₁, cache := [] } =
      .ok m { s with tree := t₂, cache := [] } := nameEntity_eq_ok.mpr ⟨hSet, rfl⟩
  unfold readDefinition
  rw [bind_of_ok hEntity, bind_of_ok hName]
  dsimp only
  rw [readHead_forward rfl, bind_of_ok (next_cached rfl),
    Token.not_is_of_is f.hSemicolon.1 (by decide)]
  change (nameEntity k f.name.text true true >>= _) _ = _
  rw [bind_of_ok hSetName]
  change (putBack f.semicolon >>= _) _ = _
  rw [bind_of_ok (putBack_of_not_isFinish f.semicolon_not_isFinish)]
  rfl

theorem Statement.finishDefinition_of_written {st : Statement} (hDeclares : st.modifiers.declares = false)
    (hWritten : (s.tree.get m).anonymous = false) (t : Token) :
    st.finishDefinition m t s = .ok ⟨⟩ { s with tree := s.tree.modify m fun e =>
      { e with span := ⟨e.span.first, t.position⟩ } } := by
  have hSame : ((s.tree.modify m fun e => { e with span := ⟨e.span.first, t.position⟩ }).get m).anonymous =
      false := by
    rw [get_modify]
    split <;> exact hWritten
  have hEnd : endAt m t s = .ok ⟨⟩ { s with tree := s.tree.modify m fun e =>
      { e with span := ⟨e.span.first, t.position⟩ } } := rfl
  unfold finishDefinition
  rw [hDeclares, if_neg Bool.false_ne_true]
  refine (bind_of_ok hEnd).trans ?_
  change (if (!((s.tree.modify m _).get m).anonymous) = true then pure ⟨⟩ else _ : Parsing Unit) _ = _
  rw [hSame]
  rfl

/-- A definition that is declared once more ends where this declaration does. -/
theorem readStatement_forward (content : EntityId → Parsing Unit)
    (hAdmits : (s.tree.get owner).kind.admits (.definition f.kind) = true)
    (hCache : s.cache = [f.keyword]) (hNone : s.comments = [])
    (hDeliveries : s.stream.deliveries = ⟨{}, f.name⟩ :: ⟨{}, f.semicolon⟩ :: ds)
    (hAdd : s.tree.add owner f.kind f.keyword.source (Span.point f.keyword.position)
      (.definition {}) = .ok (k, t₁))
    (hSet : t₁.setName k f.name.text true true = .ok (m, t₂))
    (hPeek : peek 0 { s with
      tree := t₂, comments := [], stream := { s.stream with deliveries := ds }
      last := some f.semicolon, cache := [] } = .ok t u)
    (hNone' : u.comments = []) (hWritten : (u.tree.get m).anonymous = false) :
    readStatement content owner s = .ok ⟨⟩ { u with tree := u.tree.modify m fun e =>
      { e with span := ⟨e.span.first, f.semicolon.position⟩ } } := by
  have hKind := definitionKind?_forward (s := { s with cache := [] }) rfl hDeliveries
  have hDefinition := readDefinition_forward content (s := { s with
    comments := [], stream := { s.stream with deliveries := ds }, last := some f.semicolon
    cache := [f.name, f.semicolon] }) rfl hAdd hSet
  unfold readStatement
  change (commentsBefore >>= _) s = _
  rw [bind_of_ok (commentsBefore_of_nil hNone (peek_cached hCache)), bind_of_ok (next_cached hCache),
    readModifiers_of_ofKeyword? f.hKeyword]
  change (definitionKind? f.keyword >>= _) _ = _
  rw [bind_of_ok hKind]
  dsimp only
  rw [hAdmits]
  change (readDefinition content owner f.kind f.keyword false [] >>= _) _ = _
  rw [bind_of_ok hDefinition, bind_of_ok (next_cached rfl)]
  refine (bind_of_ok (attachAfter_of_nil rfl hPeek hNone' m _)).trans ?_
  unfold Statement.readBehindDefinition
  rw [f.hSemicolon.1, if_pos rfl]
  exact Statement.finishDefinition_of_written rfl hWritten f.semicolon

end Parsing

end IdlReader
