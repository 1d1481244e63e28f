import IdlReader.Proofs.Fork.Declarator
import IdlReader.Proofs.Grammar.Settling
import IdlReader.Proofs.Mirror.Layout

/-!
# Content in front of a place

Statements are read up to a semicolon that is taken, or up to a brace. What stands behind them is
not examined, though it may have been looked at. So readers come to a place at the end of a statement
or at the start of the content of a definition in the same state.

* `sees_evaluateMembers`: evaluations read nothing.
* `sees_openDefinition`: a definition up to its body.
* `sees_readStatement`, `sees_contentWithin`: statements, and the content of an entity.
-/

namespace IdlReader

open IdlReader.Tree

/-! ## The same tree -/

/-- A tree that stands for itself. -/
def Mirror.same : Mirror :=
  { Mirror.layout with
    exact := True, reading := False, ends := fun _ p p' => p' = p, ends_refl := fun _ _ => rfl }

theorem Entity.renumber_id (e : Entity) : e.renumber id id = e := by
  have hData : e.data.renumber id = e.data := by
    cases e.data with
    | root records => exact congrArg EntityData.root (List.map_id records)
    | definition d => exact congrArg EntityData.definition d.renumber_id
    | declaration d =>
      rw [EntityData.renumber, Declaration.renumber, d.type.renumber_id, List.map_id, List.map_id,
        List.map_id, List.map_id]
    | record kind content => rfl
  rw [renumber, hData, List.map_id, Option.map_id_fun]
  rfl

namespace Tree

variable {t t' : Tree}

theorem Reachable.mirrors_same (h : t.Reachable) : t.Mirrors .same t where
  caseSensitive := rfl
  entity := h.mirrors_self (fun _ _ => rfl) fun _ _ => rfl
  scope := fun _ _ _ => (option_map_eq_self fun _ _ => rfl).symm
  other := fun i hi => absurd rfl (hi i)
  unentered := fun j hj => absurd rfl (hj j)
  size := Nat.le_refl _
  below := fun _ hi => hi
  next := fun _ => rfl
  scopesBelow := fun _ hj => hj
  scopesNext := fun _ => rfl

/-- Trees with the same scopes that stand for each other are the same. -/
theorem Mirrors.eq_of_same (h : t.Mirrors .same t') (hSize : t'.size = t.size)
    (hScopes : t'.scopes = t.scopes) : t' = t := by
  have hGet : ∀ i, t'.get i = t.get i := by
    intro i
    have hEntity := h.entity i
    have hLast : (t'.get i).span.last = (t.get i).span.last := hEntity.last trivial
    have hRenumbered : t'.get i = { (t.get i).renumber id id with
        span := ⟨(t.get i).span.first, (t'.get i).span.last⟩ } := hEntity.eq_renumber trivial
    rw [hRenumbered, hLast, Entity.renumber_id]
  have hEntities : t'.entities = t.entities := by
    refine Array.ext hSize fun i hi hi' => ?_
    have hGet := hGet i
    unfold get at hGet
    rwa [Array.getElem?_eq_getElem hi, Array.getElem?_eq_getElem hi'] at hGet
  calc t' = ⟨t'.entities, t'.scopes, t'.caseSensitive⟩ := rfl
    _ = t := by rw [hEntities, hScopes, h.caseSensitive]

end Tree

/-- How many tokens are examined at most to see whether a definition opens: two if an identifier comes
first. -/
def Session.lead (s : Session) : Nat :=
  if (s.cache.head?.map Token.isIdentifier).getD false then 2 else 1

namespace Parsing

variable {F : Fork} {s s' u : Session} {k : Nat} {α β : Type}

/-! ## Evaluation -/

/-- An evaluation that goes alike in the same trees. -/
theorem sees_of_follows {x : Parsing PUnit} (hs : s.Sound) (hSettling : Settling Settles x)
    (hFollows : ∀ {s s' : Session}, s.Mirrors .same s' → Follows .same x x s s' fun _ _ => True) :
    Sees F k x x s fun _ _ => k := by
  intro a u hRun
  obtain ⟨hSession, hSettles⟩ := hSettling s a u hRun
  have hPending : u.pending = s.pending := by
    unfold Session.pending
    rw [hSession]
  refine ⟨Nat.le_of_eq (congrArg (· + k) hPending), fun s' hForks _ => ?_⟩
  have hMirrors : s.Mirrors .same s' :=
    ⟨hs, hForks.tree ▸ hs.reachable.mirrors_same, hForks.env, nofun⟩
  obtain ⟨a', u', hRun', -, hu⟩ := hFollows hMirrors a u hRun
  obtain ⟨hSession', hSettles'⟩ := hSettling s' a' u' hRun'
  have hTree : u'.tree = u.tree := by
    refine hu.tree.eq_of_same ?_ ?_
    · rw [size_congr hSettles'.outline, size_congr hSettles.outline, hForks.tree]
    · have hScopes := congrArg Tree.scopes hSettles.outline
      have hScopes' := congrArg Tree.scopes hSettles'.outline
      change u'.tree.scopes = s'.tree.scopes at hScopes'
      change u.tree.scopes = s.tree.scopes at hScopes
      rw [hScopes', hScopes, hForks.tree]
  refine ⟨u', hRun', ?_⟩
  rw [hSession', hSession, hTree]
  exact hForks.withTree u.tree

theorem sees_checkEntries (hs : s.Sound) (seen : List Constant) (ids : List EntityId) :
    Sees F k (checkEntries seen ids) (checkEntries seen ids) s fun _ _ => k := by
  refine sees_of_follows hs (settling_checkEntries seen ids) fun h => ?_
  have hFollows := follows_checkEntries seen ids h
  rwa [show Mirror.same.entity = id from rfl, List.map_id] at hFollows

theorem sees_evaluateMembers (hs : s.Sound) (owner : EntityId) :
    Sees F k (evaluateMembers owner) (evaluateMembers owner) s fun _ _ => k :=
  sees_of_follows hs (settling_evaluateMembers owner) fun h => follows_evaluateMembers h owner

theorem Sees.bind_grows {x x' : Parsing α} {f f' : α → Parsing β} {l : α → Session → Nat}
    {m : β → Session → Nat} {R : Tree → Tree → Prop} {Q : α → Session → Prop}
    (hx : Sees F k x x' s l) (hGrows : Grows R x s Q)
    (hf : ∀ a u, u.Sound → R s.tree u.tree → Q a u → Sees F (l a u) (f a) (f' a) u m) :
    Sees F k (x >>= f) (x' >>= f') s m :=
  hx.bind fun a u hRun =>
    let ⟨hSound, hR, hQ⟩ := hGrows a u hRun
    hf a u hSound hR hQ

theorem sees_readEnumeration (hs : s.Sound) {owner : EntityId} (hOwner : s.tree.Owner owner)
    (hKind : (s.tree.get owner).kind = .enum) (hNamed : s.tree.Named owner) :
    Sees F k (readEnumeration owner) (readEnumeration owner) s fun _ _ => max k 1 := by
  have hBase : (s.tree.get owner).baseType? = some .enum := by
    unfold Entity.baseType?
    rw [hKind]
    rfl
  have hType := declarable_of_baseType? hNamed hBase (s.tree.get owner).name
  unfold readEnumeration
  refine Sees.entity (Sees.tokensLeft fun n n' hn => ?_)
  refine (sees_entriesWithin owner _ hn).bind_grows
    (grows_entriesWithin n hs ⟨hOwner, hKind, rfl, hType⟩) ?_
  exact fun _ u hu _ _ => Sees.entity (sees_checkEntries hu [] _)

/-! ## Heads of definitions -/

theorem sees_takeIfComma :
    Sees F k basesWithin.takeIfComma basesWithin.takeIfComma s fun _ _ => max k 1 := by
  unfold basesWithin.takeIfComma
  refine sees_next.bind fun t _ _ => Sees.ite (fun _ => (Sees.pure _).weaken (after_le k t)) fun _ => ?_
  exact (sees_putBack_after t).bind fun _ _ _ => .pure _

theorem sees_basesWithin (scope : EntityId) (kind : EntityKind) {n n' : Nat} (hn : n ≤ n') :
    Sees F k (basesWithin scope kind n) (basesWithin scope kind n') s fun _ _ => max k 1 := by
  induction n generalizing n' s k with
  | zero => exact sees_fail _ _
  | succ n ih =>
    obtain ⟨n', rfl⟩ := Nat.exists_eq_add_of_lt hn
    unfold basesWithin
    refine sees_next.bind fun first _ _ => (sees_readScopedName first).bind fun r _ _ => Sees.tree ?_
    have hLe := after_le k first
    split
    · exact sees_failAtToken _ _ _
    · refine Sees.ite (fun _ => sees_failAtToken_bind _ _ _) fun _ =>
        Sees.ite (fun _ => sees_failAtToken_bind _ _ _) fun _ => ?_
      refine sees_takeIfComma.bind fun more _ _ =>
        Sees.ite (fun _ => ?_) fun _ => (Sees.pure _).weaken (by omega)
      exact (ih (Nat.le_add_right _ _)).bind fun ids _ _ => (Sees.pure _).weaken (by omega)

theorem sees_readBases (id scope : EntityId) (kind : EntityKind) :
    Sees F k (readBases id scope kind) (readBases id scope kind) s fun _ _ => max k 1 := by
  unfold readBases
  refine sees_next.bind fun t _ _ => Sees.ite (fun _ => ?_) fun _ =>
    Sees.ite (fun _ => sees_failAtToken _ _ _) fun _ => Sees.tokensLeft fun _ _ hn => ?_
  · exact (sees_putBack_after t).bind fun _ _ _ => .pure _
  · have hLe := after_le k t
    refine (sees_basesWithin scope kind hn).bind fun bases _ _ => ?_
    exact (sees_modifyEntity _ _).bind fun _ _ _ => (Sees.pure _).weaken (by omega)

theorem sees_readSwitch (id scope : EntityId) :
    Sees F k (readSwitch id scope) (readSwitch id scope) s fun _ _ => max k 1 := by
  unfold readSwitch
  refine (sees_peek 0).bind fun t _ _ => Sees.ite (fun _ => .pure _) fun _ => ?_
  refine (sees_expectMark _ _).bind fun _ _ _ => (sees_expectMark _ _).bind fun _ _ _ => ?_
  refine (sees_peek 0).bind fun t _ _ => (sees_readType scope).bind fun type _ _ => ?_
  refine Sees.ite (fun _ => sees_failAtToken_bind _ _ _) fun _ => (sees_expectMark _ _).bind fun _ _ _ => ?_
  exact (sees_modifyEntity _ _).bind fun _ _ _ => (Sees.pure _).weaken (by omega)

/-! ## Openings -/

theorem lead_le (s : Session) : s.lead ≤ 2 := by
  unfold Session.lead
  split <;> omega

theorem one_le_lead (s : Session) : 1 ≤ s.lead := by
  unfold Session.lead
  split <;> omega

theorem lead_of_isIdentifier {t : Token} {ts : List Token} (h : s.cache = t :: ts)
    (ht : t.isIdentifier = true) : s.lead = 2 := by
  rw [Session.lead, h, List.head?_cons, Option.map_some, ht]
  rfl

theorem prefix_fill {n : Nat} {t? : Option Token} (h : fill n s = .ok t? u) :
    ∃ ts, u.cache = s.cache ++ ts := by
  induction n generalizing s with
  | zero =>
    cases h
    exact ⟨[], (List.append_nil _).symm⟩
  | succ n ih =>
    unfold fill at h
    obtain ⟨t, v, hFetch, h⟩ := bind_eq_ok.mp h
    split at h
    · cases h
      exact ⟨[], (cache_fetch hFetch).trans (List.append_nil _).symm⟩
    · obtain ⟨ts, hCache⟩ := ih (s := { v with cache := v.cache ++ [t] }) h
      exact ⟨t :: ts, by rw [hCache, cache_fetch hFetch, List.append_assoc]; rfl⟩

theorem prefix_peek {i : Nat} {t : Token} (h : peek i s = .ok t u) : ∃ ts, u.cache = s.cache ++ ts := by
  unfold peek at h
  rw [bind_get] at h
  obtain ⟨t?, v, hFill, h⟩ := bind_eq_ok.mp h
  cases t? with
  | some t =>
    cases h
    exact prefix_fill hFill
  | none =>
    cases h
    exact prefix_fill hFill

/-- Two tokens are examined if the first one is an identifier. -/
theorem sees_startsDefinition :
    Sees F k startsDefinition startsDefinition s fun _ u => max k u.lead := by
  unfold startsDefinition
  refine (sees_peek 0).bind fun first u hFirst => ?_
  cases hIdentifier : first.isIdentifier with
  | true =>
    refine (sees_peek 1).bind fun second v hSecond => .result ?_
    have hFinish : first.isFinish = false :=
      Token.not_isFinish_of_isWord (Bool.or_eq_true_iff.mpr (Or.inl hIdentifier))
    obtain ⟨ts, hCache⟩ := cache_peek hFirst hFinish
    obtain ⟨us, hCache'⟩ := prefix_peek hSecond
    rw [hCache, List.cons_append] at hCache'
    rw [lead_of_isIdentifier hCache' hIdentifier]
    omega
  | false =>
    refine Sees.peek (by omega) fun second second' v _ => ?_
    rw [Bool.false_and, Bool.false_and]
    refine .result ?_
    have hLe := one_le_lead v
    omega

theorem sees_definitionKind? (t : Token) :
    Sees F k (definitionKind? t) (definitionKind? t) s fun kind? u =>
      if kind?.isSome then max k u.lead
      else if (EntityKind.ofKeyword? t).isNone then k else max k 2 := by
  unfold definitionKind?
  cases EntityKind.ofKeyword? t with
  | none => exact .result (Nat.le_refl _)
  | some kind =>
    refine sees_startsDefinition.bind fun starts u _ =>
      Sees.ite (fun _ => .result (Nat.le_refl _)) fun _ => .result ?_
    have hLe := lead_le u
    change max k u.lead ≤ max k 2
    omega

/-- An identifier is taken, or a name is generated in front of the next token. -/
theorem sees_definitionName (owner : EntityId) (kind : EntityKind) :
    Sees F s.lead (definitionName owner kind) (definitionName owner kind) s fun _ _ => 1 := by
  unfold definitionName
  refine sees_next.bind fun t u hNext => ?_
  cases hIdentifier : t.isIdentifier with
  | true =>
    have hFinish : t.isFinish = false :=
      Token.not_isFinish_of_isWord (Bool.or_eq_true_iff.mpr (Or.inl hIdentifier))
    have hLe := lead_le s
    rw [after_of_not_isFinish hFinish, if_pos rfl]
    exact (Sees.pure _).weaken (by omega)
  | false =>
    have hLead : s.lead = 1 := by
      unfold Session.lead
      cases hCache : s.cache with
      | nil => rfl
      | cons v ts =>
        rw [next_cached hCache] at hNext
        cases hNext
        rw [List.head?_cons, Option.map_some, hIdentifier]
        rfl
    rw [hLead, if_neg Bool.false_ne_true]
    refine Sees.ite (fun _ => ?_) fun _ => sees_failAtToken _ _ _
    refine Sees.entity (Sees.ite (fun _ => sees_failAtToken_bind _ _ _) fun _ => ?_)
    refine (sees_generateName _).bind fun name _ _ => (sees_putBack_after t).bind fun _ _ _ => ?_
    exact (Sees.pure _).weaken (Nat.le_refl _)

/-- What follows the opening brace is not examined. -/
theorem sees_openDefinition (owner : EntityId) (kind : EntityKind) (keyword : Token) (isLocal : Bool)
    (comments : List Token) :
    Sees F s.lead (openDefinition owner kind keyword isLocal comments)
      (openDefinition owner kind keyword isLocal comments) s fun r _ => if r.2 then 1 else 0 := by
  unfold openDefinition
  refine (sees_addEntity _ _ _ _ _).bind fun id u hAdd => ?_
  obtain ⟨-, hSame⟩ := addEntity_eq_ok.mp hAdd
  have hLead : u.lead = s.lead := by
    rw [hSame]
    rfl
  rw [← hLead]
  refine (sees_definitionName owner kind).bind fun r _ _ => ?_
  dsimp only
  have hBehind : ∀ {s : Session} (headed : Bool), Sees F 1 (do
      let t ← next
      let forward := !t.is "\x7b"
      if (headed || r.2) && forward then failAtToken .openBraceExpected t
      let id ← nameEntity id r.1 forward true
      if forward then
        putBack t
        return (id, true)
      else do
        modifyEntity id fun e => { e with anonymous := r.2 }
        attachBefore id comments
        return (id, false)) (do
      let t ← next
      let forward := !t.is "\x7b"
      if (headed || r.2) && forward then failAtToken .openBraceExpected t
      let id ← nameEntity id r.1 forward true
      if forward then
        putBack t
        return (id, true)
      else do
        modifyEntity id fun e => { e with anonymous := r.2 }
        attachBefore id comments
        return (id, false)) s fun r _ => if r.2 then 1 else 0 := by
    intro s headed
    refine sees_next.bind fun t _ _ => ?_
    refine Sees.ite (fun _ => sees_failAtToken_bind _ _ _) fun _ => ?_
    refine (sees_nameEntity _ _ _ _).bind fun id _ _ => Sees.ite (fun _ => ?_) fun hBrace => ?_
    · exact (sees_putBack_after t).bind fun _ _ _ => .result (Nat.le_refl _)
    · rw [Bool.not_eq_true, Bool.not_eq_false'] at hBrace
      rw [after_of_is hBrace]
      refine (sees_modifyEntity _ _).bind fun _ _ _ => (sees_attachBefore _ _).bind fun _ _ _ => ?_
      exact .result (Nat.le_refl _)
  by_cases hUnion : kind = .union
  · simp only [if_pos hUnion]
    exact (sees_readSwitch _ _).bind fun headed _ _ => hBehind headed
  · simp only [if_neg hUnion]
    exact (sees_readBases _ _ _).bind fun headed _ _ => hBehind headed

/-! ## Declarations -/

theorem sees_readModifiers (kind : EntityKind) (t : Token) :
    Sees F (after 1 t) (readModifiers kind t) (readModifiers kind t) s fun r _ => after 1 r.2 := by
  have hBehind : ∀ (member : Member) (m : Modifiers) {text : String}, t.is text = true → Sees F (after 1 t)
      (if !kind.admits member then do
        let _ ← (failAtToken (.keywordUnexpected t.text) t : Parsing Unit)
        let u ← next
        return (m, u)
      else do
        let u ← next
        return (m, u))
      (if !kind.admits member then do
        let _ ← (failAtToken (.keywordUnexpected t.text) t : Parsing Unit)
        let u ← next
        return (m, u)
      else do
        let u ← next
        return (m, u)) s fun r _ => after 1 r.2 := by
    intro member m text hWord
    rw [after_of_is hWord]
    refine Sees.ite (fun _ => sees_failAtToken_bind _ _ _) fun _ => sees_next.bind fun u _ _ => ?_
    exact .result (after_mono (Nat.zero_le _) u)
  unfold readModifiers
  dsimp only
  refine Sees.ite (fun hWord => hBehind _ _ hWord) fun _ => Sees.ite (fun hWord => hBehind _ _ hWord) fun _ =>
    Sees.ite (fun hWord => hBehind _ _ hWord) fun _ => Sees.ite (fun hWord => ?_) fun _ =>
      .result (Nat.le_refl _)
  refine (hBehind _ _ hWord).bind fun r _ _ => ?_
  exact Sees.ite (fun _ => sees_failAtToken_bind _ _ _) fun _ => .result (Nat.le_refl _)

theorem sees_declaratorsWithin (anonymous : Bool) {n n' : Nat} (hn : n ≤ n') (d : Declarator)
    (comments : List Token) : Sees F k (declaratorsWithin anonymous n d comments)
      (declaratorsWithin anonymous n' d comments) s fun _ _ => k - 1 := by
  induction n generalizing n' d comments s k with
  | zero => exact sees_fail _ _
  | succ n ih =>
    obtain ⟨n', rfl⟩ := Nat.exists_eq_add_of_lt hn
    unfold declaratorsWithin
    refine (sees_readDeclarator d comments).bind fun r _ _ => ?_
    have hBehind : ∀ {s : Session}, Sees F (after (max k 1) r.2)
        (if r.2.is "," then
          if d.kind.supportsMultiple then do
            let name ← declarationName
            declaratorsWithin anonymous n { d with name, position := name.position } []
          else failAtToken .multipleUnsupported r.2
        else if r.2.is ";" then return
        else failAtToken .declarationUnterminated r.2)
        (if r.2.is "," then
          if d.kind.supportsMultiple then do
            let name ← declarationName
            declaratorsWithin anonymous (n + n') { d with name, position := name.position } []
          else failAtToken .multipleUnsupported r.2
        else if r.2.is ";" then return
        else failAtToken .declarationUnterminated r.2) s fun _ _ => k - 1 := by
      intro s
      refine Sees.ite (fun hMark => Sees.ite (fun _ => ?_) fun _ => sees_failAtToken _ _ _) fun _ =>
        Sees.ite (fun hMark => ?_) fun _ => sees_failAtToken _ _ _
      · rw [after_of_is hMark]
        exact sees_declarationName.bind fun name _ _ => (ih (Nat.le_add_right _ _) _ _).weaken (by omega)
      · rw [after_of_is hMark]
        exact (Sees.pure _).weaken (by omega)
    refine Sees.ite (fun _ => ?_) fun _ => hBehind
    exact (sees_modifyEntity _ _).bind fun _ _ _ => hBehind

namespace Statement

variable {st : Statement}

theorem sees_readDeclarators (kind : EntityKind) (type : DeclaredType) (name : Token)
    (anonymous : Bool) : Sees F k (st.readDeclarators kind type name anonymous)
      (st.readDeclarators kind type name anonymous) s fun _ _ => k - 1 :=
  Sees.tokensLeft fun _ _ hn => sees_declaratorsWithin anonymous (Nat.succ_le_succ hn) _ _

theorem sees_declarationKind (defines : Bool) (name : Token) :
    Sees F k (st.declarationKind defines name) (st.declarationKind defines name) s
      fun _ _ => max k 1 := by
  unfold declarationKind
  refine (sees_peek 0).bind fun t _ _ => Sees.ite (fun _ => ?_) fun _ => ?_
  · exact Sees.ite (fun _ => sees_failAtToken _ _ _) fun _ => .pure _
  · exact Sees.ite (fun _ => .pure _) fun _ => Sees.ite (fun _ => .pure _) fun _ =>
      Sees.ite (fun _ => .pure _) fun _ => sees_failAtToken _ _ _

theorem sees_readAttributes : Sees F k st.readAttributes st.readAttributes s fun _ _ => k - 3 := by
  unfold readAttributes
  refine (sees_readType _).bind fun type _ _ => sees_declarationName.bind fun name _ _ => ?_
  exact (sees_readDeclarators _ _ _ _).weaken (by omega)

theorem sees_readDeclarations (type : DeclaredType) (defines anonymous : Bool) :
    Sees F k (st.readDeclarations type defines anonymous)
      (st.readDeclarations type defines anonymous) s fun _ _ => k - 2 := by
  unfold readDeclarations
  refine sees_declarationName.bind fun name _ _ => (sees_declarationKind _ _).bind fun kind _ _ => ?_
  exact (sees_readDeclarators _ _ _ _).weaken (by omega)

theorem ofKeyword?_of_isOneOf {t : Token} (h : t.isOneOf ["case", "default"] = true) :
    EntityKind.ofKeyword? t = none := by
  obtain ⟨text, hText, hIs⟩ := List.any_eq_true.mp h
  unfold Token.is at hIs
  rw [Bool.and_eq_true, beq_iff_eq] at hIs
  unfold EntityKind.ofKeyword?
  rcases List.mem_pair.mp hText with rfl | rfl <;> simp [hIs.2]

/-- Nothing behind a member is examined, but behind a case of a union the next token may be. -/
theorem sees_readMember (t : Token)
    (hk : k ≤ if (EntityKind.ofKeyword? t).isNone then after 1 t else 2) :
    Sees F k (st.readMember t) (st.readMember t) s
      fun _ _ => if st.ownerKind = .union then 1 else 0 := by
  have hTwo : k ≤ 2 := by
    have hLe := after_le 1 t
    split at hk <;> omega
  unfold readMember
  dsimp only
  refine Sees.ite (fun _ => sees_failAtToken _ _ _) fun _ =>
    Sees.ite (fun _ => sees_failAtToken _ _ _) fun _ =>
      Sees.ite (fun hLabel => Sees.ite (fun _ => sees_failAtToken _ _ _) fun hAdmits => ?_) fun _ =>
        Sees.ite (fun _ => Sees.ite (fun _ => sees_failAtToken _ _ _) fun _ => ?_) fun _ => ?_
  · rw [Bool.not_eq_true, Bool.or_eq_false_iff, Bool.not_eq_false'] at hAdmits
    obtain ⟨text, -, hIs⟩ := List.any_eq_true.mp hLabel
    rw [ofKeyword?_of_isOneOf hLabel, after_of_is hIs, Option.isNone_none, if_pos rfl] at hk
    rw [if_pos (union_of_admits_case hAdmits.2)]
    exact (sees_readCase _ _ _).weaken (by omega)
  · exact sees_readAttributes.weaken (by omega)
  · refine (sees_putBack t).bind fun _ _ _ => (sees_readType _).bind fun type _ _ => ?_
    refine (sees_readDeclarations _ _ _).weaken ?_
    split <;> omega

/-! ## Statements -/

theorem sees_definedType (id : EntityId) (t : Token) :
    Sees F k (definedType id t) (definedType id t) s fun _ _ => k := by
  unfold definedType
  refine Sees.entity ?_
  split
  · exact .pure _
  · exact sees_failAtToken _ _ _

theorem sees_finishDefinition (id : EntityId) (t : Token) :
    Sees F 0 (st.finishDefinition id t) (st.finishDefinition id t) s fun _ _ => 0 := by
  unfold finishDefinition
  dsimp only
  refine Sees.ite (fun _ => sees_failAtToken_bind _ _ _) fun _ => ?_
  refine (sees_endAt _ _).bind fun _ _ _ => Sees.entity ?_
  refine Sees.ite (fun _ => .pure _) fun _ => Sees.ite (fun _ => sees_failAtToken _ _ _) fun _ => ?_
  refine (sees_putBack _).bind fun _ _ _ => (sees_generateName _).bind fun name _ _ => ?_
  refine (sees_definedType _ _).bind fun type _ _ => (sees_putBack _).bind fun _ _ _ => ?_
  refine (sees_readDeclarations _ _ _).weaken ?_
  split <;> split <;> omega

theorem sees_readBehindDefinition (id : EntityId) (t : Token) :
    Sees F (after 1 t) (st.readBehindDefinition id t) (st.readBehindDefinition id t) s fun _ _ => 0 := by
  unfold readBehindDefinition
  dsimp only
  refine Sees.ite (fun hMark => ?_) fun _ => Sees.ite (fun _ => sees_failAtToken _ _ _) fun _ =>
    Sees.ite (fun _ => sees_failAtToken _ _ _) fun _ => Sees.ite (fun _ => sees_failAtToken _ _ _) fun _ => ?_
  · rw [after_of_is hMark]
    exact sees_finishDefinition _ _
  · refine (sees_putBack_after t).bind fun _ _ _ => (sees_definedType _ _).bind fun type _ _ => ?_
    exact (sees_readDeclarations _ _ _).weaken (by omega)

theorem sees_readBehind (id : EntityId) :
    Sees F 1 (st.readBehind id) (st.readBehind id) s fun _ _ => 0 := by
  unfold readBehind
  refine sees_next.bind fun t _ _ => (sees_attachAfter _ _).bind fun _ _ _ => ?_
  exact sees_readBehindDefinition _ _

end Statement

/-- One token was examined in front of a statement. -/
theorem sees_openStatement (owner : EntityId) :
    Sees F 1 (openStatement owner) (openStatement owner) s fun r u =>
      if r.2.2.isSome then u.lead
      else if (EntityKind.ofKeyword? r.2.1).isNone then after 1 r.2.1 else 2 := by
  unfold openStatement
  refine Sees.entity (sees_commentsBefore.bind fun comments _ _ => sees_next.bind fun first _ _ => ?_)
  refine (sees_readModifiers _ first).bind fun r _ _ => ?_
  refine (sees_definitionKind? r.2).bind fun kind? u _ => .result ?_
  have hLe := after_le 1 r.2
  have hLead := one_le_lead u
  dsimp only
  split
  · omega
  · split <;> omega

/-! ## Content -/

section Content

variable {content content' : EntityId → Parsing Unit}
  (hContent : ∀ {s : Session} {owner : EntityId}, s.Sound → Body s.tree owner →
    Sees F 0 (content owner) (content' owner) s fun _ _ => 1)

include hContent

theorem sees_readBody (hs : s.Sound) {id : EntityId} (hOwner : s.tree.Owner id)
    (hNamed : s.tree.Named id) {kind : EntityKind} (hKind : (s.tree.get id).kind = kind) :
    Sees F 0 (readBody content id kind) (readBody content' id kind) s fun _ _ => 0 := by
  have hBehind : ∀ {s : Session}, Sees F 1 (do
      let t ← next
      if !t.is "\x7d" then failAtToken .closeBraceExpected t
      endAt id t) (do
      let t ← next
      if !t.is "\x7d" then failAtToken .closeBraceExpected t
      endAt id t) s fun _ _ => 0 := by
    intro s
    refine sees_next.bind fun t _ _ => Sees.ite (fun _ => sees_failAtToken_bind _ _ _) fun hBrace => ?_
    rw [after_of_is (by simpa using hBrace)]
    exact sees_endAt _ _
  unfold readBody
  by_cases hEnum : kind = .enum
  · simp only [if_pos hEnum]
    exact (sees_readEnumeration hs hOwner (hKind.trans hEnum) hNamed).bind fun _ _ _ => hBehind
  · simp only [if_neg hEnum]
    exact (hContent hs ⟨hOwner, fun h => hEnum (hKind.symm.trans h)⟩).bind fun _ _ _ => hBehind

theorem sees_readDefinition (hs : s.Sound) {owner : EntityId} (hOwner : s.tree.Owner owner)
    (hOwnerKind : (s.tree.get owner).kind ≠ .enum) {kind : EntityKind}
    (hDefinition : kind.isDefinition = true) (keyword : Token) (isLocal : Bool)
    (comments : List Token) :
    Sees F s.lead (readDefinition content owner kind keyword isLocal comments)
      (readDefinition content' owner kind keyword isLocal comments) s fun _ _ => 1 := by
  rw [readDefinition_eq, readDefinition_eq]
  refine (sees_openDefinition owner kind keyword isLocal comments).bind_grows
    (grows_openDefinition hs hOwner hOwnerKind hDefinition keyword isLocal comments) ?_
  rintro ⟨id, forward⟩ u hu - ⟨hNamed, hOpened⟩
  cases forward with
  | true => exact .pure _
  | false =>
    have hOpened : Opened s.tree u.tree owner id kind := hOpened
    refine (sees_readBody hContent hu hOpened.ready hNamed hOpened.kind).bind fun _ _ _ => ?_
    exact (Sees.pure _).weaken (Nat.zero_le 1)

theorem sees_readStatement (hs : s.Sound) {owner : EntityId} (h : Body s.tree owner) :
    Sees F 1 (readStatement content owner) (readStatement content' owner) s
      fun _ _ => if (s.tree.get owner).kind = .union then 1 else 0 := by
  rw [readStatement_eq, readStatement_eq]
  refine (sees_openStatement owner).bind_grows (grows_openStatement hs h) ?_
  rintro ⟨st, t, kind?⟩ u hu hR ⟨hOwner, hSound, -, hKind⟩
  dsimp only at hOwner hSound hKind ⊢
  subst hOwner
  have hOwnerKind : (s.tree.get st.owner).kind = st.ownerKind :=
    ((hs.extends hR).kind st.owner h.ready.ready.lt).symm.trans hSound.kind
  rw [hOwnerKind]
  cases kind? with
  | none => exact Statement.sees_readMember t (Nat.le_refl _)
  | some kind =>
    unfold Statement.readRest
    dsimp only
    refine Sees.ite (fun _ => sees_failAtToken _ _ _) fun _ => ?_
    refine (sees_readDefinition hContent hu hSound.owner (hSound.kind ▸ hSound.content)
      (hKind kind rfl) t _ _).bind fun id _ _ => ?_
    exact (Statement.sees_readBehind id).weaken (Nat.zero_le _)

end Content

theorem sees_contentWithin {n n' : Nat} (hn : n ≤ n') (hk : k ≤ 1) (hs : s.Sound) {owner : EntityId}
    (h : Body s.tree owner) :
    Sees F k (contentWithin n owner) (contentWithin n' owner) s fun _ _ => 1 := by
  induction n generalizing n' s owner k with
  | zero => exact sees_fail _ _
  | succ n ih =>
    obtain ⟨n', rfl⟩ := Nat.exists_eq_add_of_lt hn
    have hn : n ≤ n + n' := Nat.le_add_right _ _
    unfold contentWithin
    refine (sees_peek 0).bind_grows ((keeps_peek 0).grows (R := Grown owner) hs) ?_
    intro t u hu hR _
    have hMax : max k (0 + 1) = 1 := by omega
    have hBody := h.continues hR.continues
    rw [hMax]
    refine Sees.ite (fun _ => sees_evaluateMembers hu owner) fun _ => Sees.ite (fun _ => ?_) fun _ => ?_
    · exact Sees.ite (fun _ => sees_failAtToken _ _ _) fun _ => sees_evaluateMembers hu owner
    have hGrows : ∀ (s : Session) (owner : EntityId), s.Sound → s.tree.Owner owner →
        (s.tree.get owner).kind ≠ .enum →
        Grows Steps (contentWithin n owner) s fun _ s' => Concludes owner s.tree s'.tree :=
      fun _ _ hs hOwner hKind => grows_contentWithin n hs ⟨hOwner, hKind⟩
    refine (sees_readStatement (fun hs h => ih hn (Nat.zero_le 1) hs h) hu hBody).bind_grows
      (grows_readStatement hGrows hu hBody) ?_
    intro _ v hv hContinues _
    exact ih hn (by split <;> omega) hv (hBody.continues hContinues)

end Parsing

end IdlReader
