import IdlReader.Proofs.Grammar.Content
import IdlReader.Proofs.Mirror.Case

/-!
# Content in mirrored sessions

In mirrored sessions the same statements are read, and mirrored entities are added to the trees.
The members of mirrored entities are evaluated alike, even if different tokens are to come.

* `follows_evaluateMembers`: the members of an entity.
* `follows_readDefinition`: definitions.
* `follows_readBehindDefinition`: what follows a definition in its statement.
* `follows_contentWithin`: the content of an entity.
-/

namespace IdlReader

open IdlReader.Tree

namespace Parsing

variable {M : Mirror} {s s' : Session}

/-! ## Evaluation of members -/

theorem follows_checkLabels (h : s.Mirrors M s') (p p' : Position) (seen cs : List Constant) :
    Follows M (checkCases.checkLabels p seen cs) (checkCases.checkLabels p' seen cs) s s' Eq := by
  induction cs generalizing seen with
  | nil => exact Follows.pure h rfl
  | cons c cs ih =>
    unfold checkCases.checkLabels
    exact Follows.ite (fun _ => follows_failAt _ _ _) fun _ => ih _

theorem follows_checkCases (hasDefault : Bool) (seen : List Constant) (ids : List EntityId)
    (h : s.Mirrors M s') :
    Follows M (checkCases hasDefault seen ids) (checkCases hasDefault seen (ids.map M.entity)) s s'
      fun _ _ => True := by
  induction ids generalizing hasDefault seen s s' with
  | nil => exact Follows.pure h trivial
  | cons id ids ih =>
    rw [List.map_cons]
    unfold checkCases
    refine (followsEvaluation_evaluateDeclaration id h).bind ?_
    intro _ _ u u' _ _ hu
    refine Follows.entity ?_
    cases hd : (u.tree.get id).declaration? with
    | none =>
      rw [(hu.tree.entity id).declaration?_none hd]
      exact ih _ _ hu
    | some d =>
      obtain ⟨d', hd', hMirrors⟩ := (hu.tree.entity id).declaration? hd
      rw [hd']
      dsimp only
      rw [hMirrors.defaultCase, hMirrors.caseValues]
      refine Follows.ite (fun _ => follows_failAt_bind _ _ _) fun _ => ?_
      refine (follows_checkLabels hu _ _ _ _).bind ?_
      rintro labels _ v v' _ rfl hv
      exact ih _ _ hv

theorem follows_childrenOfKinds (h : s.Mirrors M s') (kinds : List EntityKind)
    (ids : List EntityId) :
    Follows M (childrenOfKinds kinds ids) (childrenOfKinds kinds (ids.map M.entity)) s s'
      fun found found' => found' = found.map M.entity :=
  Follows.tree (Follows.pure h (h.tree.filter_kind kinds.contains ids))

theorem follows_evaluateType (h : s.Mirrors M s') (id : EntityId) :
    Follows M (evaluateType id) (evaluateType (M.entity id)) s s' fun _ _ => True := by
  have hEntity := h.tree.entity id
  unfold evaluateType
  refine Follows.entity ?_
  rw [hEntity.kind, hEntity.forward, hEntity.children]
  refine Follows.ite (fun _ => ?_) fun _ => followsEvaluation_evaluateDeclaration id h
  refine Follows.ite (fun _ => Follows.pure h trivial) fun _ => ?_
  refine (follows_childrenOfKinds h _ _).bind ?_
  rintro found _ u u' _ rfl hu
  exact follows_checkCases _ _ _ hu

theorem follows_evaluateWithParameters (h : s.Mirrors M s') (id : EntityId) :
    Follows M (evaluateWithParameters id) (evaluateWithParameters (M.entity id)) s s'
      fun _ _ => True := by
  unfold evaluateWithParameters
  refine (followsEvaluation_evaluateDeclaration id h).bind ?_
  intro _ _ u u' _ _ hu
  refine Follows.tree ?_
  rw [hu.tree.parameters]
  exact Follows.forM (fun id hv => followsEvaluation_evaluateDeclaration id hv) hu

/-- The members of mirrored entities are evaluated alike. -/
theorem follows_evaluateMembers (h : s.Mirrors M s') (owner : EntityId) :
    Follows M (evaluateMembers owner) (evaluateMembers (M.entity owner)) s s'
      fun _ _ => True := by
  unfold evaluateMembers
  refine Follows.entity ?_
  rw [(h.tree.entity owner).children]
  refine (follows_childrenOfKinds h _ _).bind ?_
  rintro types _ u₁ u₁' _ rfl h₁
  refine (Follows.forM (fun id hv => follows_evaluateType hv id) h₁).bind ?_
  intro _ _ u₂ u₂' _ _ h₂
  refine (follows_childrenOfKinds h₂ _ _).bind ?_
  rintro consts _ u₃ u₃' _ rfl h₃
  refine (Follows.forM (fun id hv => followsEvaluation_evaluateDeclaration id hv) h₃).bind ?_
  intro _ _ u₄ u₄' _ _ h₄
  refine (follows_childrenOfKinds h₄ _ _).bind ?_
  rintro operations _ u₅ u₅' _ rfl h₅
  refine (Follows.forM (fun id hv => follows_evaluateWithParameters hv id) h₅).bind ?_
  intro _ _ u₆ u₆' _ _ h₆
  refine (follows_childrenOfKinds h₆ _ _).bind ?_
  rintro fields _ u₇ u₇' _ rfl h₇
  exact Follows.forM (fun id hv => followsEvaluation_evaluateDeclaration id hv) h₇

variable [M.Reading]

/-! ## Heads of definitions -/

theorem follows_takeIfComma (h : s.Mirrors M s') :
    Follows M basesWithin.takeIfComma basesWithin.takeIfComma s s' Eq := by
  unfold basesWithin.takeIfComma
  refine (follows_next h).bind ?_
  intro t t' u u' _ ht hu
  rw [ht.is]
  refine Follows.ite (fun _ => Follows.pure hu rfl) fun _ => ?_
  exact (follows_putBack hu ht).bind fun _ _ v v' _ _ hv => Follows.pure hv rfl

theorem follows_basesWithin (scope : EntityId) (kind : EntityKind) (n : Nat)
    (h : s.Mirrors M s') :
    Follows M (basesWithin scope kind n) (basesWithin (M.entity scope) kind n) s s'
      fun ids ids' => ids' = ids.map M.entity := by
  induction n generalizing s s' with
  | zero => exact follows_fail _ _
  | succ n ih =>
    unfold basesWithin
    refine (follows_next h).bind ?_
    intro first first' u u' _ hFirst hu
    refine (follows_readScopedName hu hFirst).bind ?_
    rintro ⟨_, last⟩ ⟨name, last'⟩ v v' _ rfl hv
    refine Follows.tree ?_
    dsimp only
    rw [hv.reflects.findType]
    cases v.tree.findType scope _ with
    | none => exact follows_failAtToken _ _ _
    | some found =>
      dsimp only [Option.map_some]
      rw [hv.reflects.resolved, (hv.tree.entity _).kind, (hv.tree.entity _).forward]
      refine Follows.ite (fun _ => follows_failAtToken_bind _ _ _) fun _ =>
        Follows.ite (fun _ => follows_failAtToken_bind _ _ _) fun _ => ?_
      refine (follows_takeIfComma hv).bind ?_
      rintro more _ w w' _ rfl hw
      refine Follows.ite (fun _ => ?_) fun _ => Follows.pure hw rfl
      refine (ih hw).bind ?_
      rintro ids _ x x' _ rfl hx
      exact Follows.pure hx rfl

theorem follows_readBases (h : s.Mirrors M s') {id : EntityId} (hOpen : s.tree.Open id)
    (scope : EntityId) {kind : EntityKind} (hKind : (s.tree.get id).kind = kind) :
    Follows M (readBases id scope kind) (readBases (M.entity id) (M.entity scope) kind) s s' Eq := by
  unfold readBases
  refine (follows_next h).bind_grows (keeps_next.grows (R := Quiet) h.sound) ?_
  intro t t' u u' hR₁ _ ht hu
  rw [ht.is]
  refine Follows.ite (fun _ => ?_) fun _ => ?_
  · exact (follows_putBack hu ht).bind fun _ _ v v' _ _ hv => Follows.pure hv rfl
  by_cases hSupports : kind.supportsInheritance = true
  · rw [hSupports]
    refine Follows.tokensLeft hu fun n => ?_
    refine (follows_basesWithin scope kind n hu).bind_grows
      (grows_basesWithin (R := Quiet) scope kind n hu.sound) ?_
    rintro bases _ v v' hR₂ hBases rfl hv
    have hQuiet := hR₁.trans hR₂
    have hKind₂ : (v.tree.get id).kind = kind :=
      ((h.sound.extends hQuiet).kind id hOpen.lt).trans hKind
    have hStep : Step v.tree
        (v.tree.modify id (Entity.mapDefinition fun d => { d with bases })) := by
      refine .inherit (hQuiet.opened id hOpen) ?_ ?_
      · rw [hKind₂]
        exact hSupports
      · rw [hKind₂]
        exact hBases
    refine Follows.bind (follows_modifyEntity hv hStep fun hEntity =>
      hEntity.mapDefinition fun _ => rfl) ?_
    exact fun _ _ w w' _ _ hw => Follows.pure hw rfl
  · rw [Bool.not_eq_true] at hSupports
    rw [hSupports]
    exact follows_failAtToken _ _ _

theorem follows_readSwitch (h : s.Mirrors M s') {id : EntityId} (hOpen : s.tree.Open id)
    (scope : EntityId) (hKind : (s.tree.get id).kind = .union) :
    Follows M (readSwitch id scope) (readSwitch (M.entity id) (M.entity scope)) s s' Eq := by
  unfold readSwitch
  refine (follows_peek 0 h).bind_grows ((keeps_peek 0).grows (R := Quiet) h.sound) ?_
  intro t t' u u' hR₁ _ ht hu
  rw [ht.is]
  refine Follows.ite (fun _ => Follows.pure hu rfl) fun _ => ?_
  refine (follows_expectMark hu _ _).bind_grows
    ((keeps_expectMark _ _).grows (R := Quiet) hu.sound) ?_
  intro _ _ v v' hR₂ _ _ hv
  refine (follows_expectMark hv _ _).bind_grows
    ((keeps_expectMark _ _).grows (R := Quiet) hv.sound) ?_
  intro _ _ w w' hR₃ _ _ hw
  refine (follows_peek 0 hw).bind_grows ((keeps_peek 0).grows (R := Quiet) hw.sound) ?_
  intro p p' x x' hR₄ _ _ hx
  refine (follows_readType hx scope).bind_grows (grows_readType (R := Quiet) hx.sound scope) ?_
  rintro type _ y y' hR₅ hType rfl hy
  dsimp only
  rw [DeclaredType.kind?_renumber]
  by_cases hIntegral : (type.kind?.map Kind.isIntegral).getD false = true
  · rw [hIntegral]
    refine (follows_expectMark hy _ _).bind_grows
      ((keeps_expectMark _ _).grows (R := Quiet) hy.sound) ?_
    intro _ _ z z' hR₆ _ _ hz
    have hQuiet := hR₁.trans (hR₂.trans (hR₃.trans (hR₄.trans (hR₅.trans hR₆))))
    have hStep : Step z.tree (z.tree.modify id
        (Entity.mapDefinition fun d => { d with switchType := some type })) := by
      refine .switch (hQuiet.opened id hOpen) ?_ (hy.sound.declarable hR₆ hType).refers hIntegral
      rw [(h.sound.extends hQuiet).kind id hOpen.lt]
      exact hKind
    refine Follows.bind (follows_modifyEntity hz hStep fun hEntity =>
      hEntity.mapDefinition fun _ => rfl) ?_
    exact fun _ _ r r' _ _ hr => Follows.pure hr rfl
  · rw [Bool.not_eq_true] at hIntegral
    rw [hIntegral]
    exact follows_failAtToken_bind _ _ _

theorem follows_definitionName (h : s.Mirrors M s') (owner : EntityId) (kind : EntityKind) :
    Follows M (definitionName owner kind) (definitionName (M.entity owner) kind) s s' Eq := by
  unfold definitionName
  refine (follows_next h).bind ?_
  intro t t' u u' _ ht hu
  rw [ht.isIdentifier, ht.text]
  refine Follows.ite (fun _ => Follows.pure hu rfl) fun _ =>
    Follows.ite (fun _ => ?_) fun _ => follows_failAtToken _ _ _
  refine Follows.entity ?_
  dsimp only
  rw [(hu.tree.entity owner).kind]
  refine Follows.ite (fun _ => follows_failAtToken_bind _ _ _) fun _ => ?_
  refine (follows_generateName hu _).bind ?_
  rintro name _ v v' _ rfl hv
  exact (follows_putBack hv ht).bind fun _ _ w w' _ _ hw => Follows.pure hw rfl

/-! ## Definitions -/

theorem follows_openDefinition (h : s.Mirrors M s') {owner : EntityId}
    (hOwner : s.tree.Owner owner) {kind : EntityKind} (hDefinition : kind.isDefinition = true)
    {keyword keyword' : Token}
    (hKeyword : keyword.Meets M keyword') (isLocal : Bool) {comments comments' : List Token}
    (hComments : M.exact → comments' = comments) :
    Follows M (openDefinition owner kind keyword isLocal comments)
      (openDefinition (M.entity owner) kind keyword' isLocal comments') s s'
      fun r r' => r'.1 = M.entity r.1 ∧ r'.2 = r.2 := by
  obtain ⟨hNotOperation, hNotParameter⟩ := isDefinition_ne hDefinition
  have hParameter : kind = .parameter ↔ (s.tree.get owner).kind = .operation :=
    ⟨fun h => absurd h hNotParameter, fun h => absurd h hOwner.kind⟩
  have hEntry : kind ≠ .enumEntry := by
    rintro rfl
    cases hDefinition
  have hRefers : ∀ d : Declaration, EntityData.definition { isLocal } = .declaration d →
      s.tree.Refers d.type := by
    rintro d ⟨⟩
  have hAdded := @grows_addEntity s h.sound owner kind keyword.source
    (Span.point keyword.position) _ hOwner.ready (.definition hDefinition isLocal) hParameter
    hRefers fun h => absurd h hEntry
  unfold openDefinition
  refine (follows_addEntity h (fun id u hAdd => (hAdded id u hAdd).1) (.definition _)
    (fun hExact => by rw [hKeyword.exact hExact])
    (fun hExact => by rw [hKeyword.exact hExact])).bind_grows hAdded ?_
  rintro id _ u u' hSteps₁ ⟨hOpen₁, hAdd⟩ rfl hu
  obtain ⟨-, hId, -, -, -, hGet⟩ := add_eq_ok hAdd
  have hOpens₁ : Opens s.tree u.tree owner id kind :=
    ⟨hSteps₁, adds_add hAdd, Nat.le_of_eq hId.symm, hOpen₁, by rw [hGet, if_pos hId],
      by rw [hGet, if_pos hId], by rw [hGet, if_pos hId]; rfl⟩
  refine (follows_definitionName hu owner kind).bind_grows
    (grows_definitionName (R := Heading id) hu.sound owner kind) ?_
  rintro ⟨name, anonymous⟩ _ v v' hR₂ hName rfl hv
  have hOpens₂ := hOpens₁.heading hu.sound.reachable.size_pos hR₂
  dsimp only at hName ⊢
  refine Follows.ite_bind (P := Eq) (fun hUnion => follows_readSwitch hv hOpens₂.unnamed owner
    (hOpens₂.kind.trans hUnion)) (fun _ => follows_readBases hv hOpens₂.unnamed owner hOpens₂.kind)
    ?_
  rintro headed _ w w' hHead rfl hw
  have hR₃ : Heading id v.tree w.tree := by
    split at hHead
    · rename_i hUnion
      exact (grows_readSwitch hv.sound hOpens₂.unnamed owner (hOpens₂.kind.trans hUnion)
        hOpens₂.definition headed w hHead).2.1
    · exact (grows_readBases hv.sound hOpens₂.unnamed owner hOpens₂.kind headed w hHead).2.1
  have hOpens₃ := hOpens₂.heading hv.sound.reachable.size_pos hR₃
  refine (follows_next hw).bind_grows (keeps_next.grows (R := Heading id) hw.sound) ?_
  intro t t' x x' hR₄ _ ht hx
  have hOpens₄ := hOpens₃.heading hw.sound.reachable.size_pos hR₄
  rw [ht.is]
  refine Follows.ite (fun _ => follows_failAtToken_bind _ _ _) fun _ => ?_
  have hForward : (!t.is "\x7b") = true → (x.tree.get id).kind.isDefinition = true := by
    intro _
    rw [hOpens₄.kind]
    exact hDefinition
  have hListed : true = true ↔ (x.tree.get id).kind ≠ .parameter := by
    rw [hOpens₄.kind]
    exact ⟨fun _ => hNotParameter, fun _ => rfl⟩
  have hNaming := @grows_nameEntity x hx.sound id name (!t.is "\x7b") true hOpens₄.unnamed hName
    hForward hListed
  refine (follows_nameEntity hx fun found y hRun => (hNaming found y hRun).1).bind_grows hNaming ?_
  rintro found _ y y' - - rfl hy
  refine Follows.ite (fun _ => ?_) fun hBrace => ?_
  · exact (follows_putBack hy ht).bind fun _ _ z z' _ _ hz => Follows.pure hz ⟨rfl, rfl⟩
  have hAnnotates (e : Entity) : Entity.Annotates e { e with anonymous } := rfl
  refine Follows.bind (follows_annotate hy hAnnotates fun hEntity =>
    { hEntity with anonymous := rfl }) ?_
  intro _ _ z z' _ _ hz
  exact (follows_attachBefore hz found hComments).bind fun _ _ r r' _ _ hr =>
    Follows.pure hr ⟨rfl, rfl⟩

section Definitions

variable {content content' : EntityId → Parsing Unit}
  (hContent : ∀ {s s' : Session} {owner : EntityId}, s.Mirrors M s' → Body s.tree owner →
    Follows M (content owner) (content' (M.entity owner)) s s' fun _ _ => True)

include hContent

theorem follows_readBody (h : s.Mirrors M s') {id : EntityId} (hOwner : s.tree.Owner id)
    {kind : EntityKind} (hNamed : s.tree.Named id) (hKind : (s.tree.get id).kind = kind) :
    Follows M (readBody content id kind) (readBody content' (M.entity id) kind) s s'
      fun _ _ => True := by
  unfold readBody
  refine Follows.ite_bind (P := fun _ _ => True)
    (fun hEnum => follows_readEnumeration h hOwner (hKind.trans hEnum) hNamed)
    (fun hNot => hContent h ⟨hOwner, fun hEnum => hNot (hKind.symm.trans hEnum)⟩) ?_
  intro _ _ u u' _ _ hu
  refine (follows_next hu).bind ?_
  intro t t' v v' _ ht hv
  dsimp only
  rw [ht.is]
  exact Follows.ite (fun _ => follows_failAtToken_bind _ _ _) fun _ => follows_endAt hv id ht

theorem follows_readDefinition (h : s.Mirrors M s') {owner : EntityId}
    (hOwner : s.tree.Owner owner) (hOwnerKind : (s.tree.get owner).kind ≠ .enum) {kind : EntityKind}
    (hDefinition : kind.isDefinition = true)
    {keyword keyword' : Token}
    (hKeyword : keyword.Meets M keyword') (isLocal : Bool) {comments comments' : List Token}
    (hComments : M.exact → comments' = comments) :
    Follows M (readDefinition content owner kind keyword isLocal comments)
      (readDefinition content' (M.entity owner) kind keyword' isLocal comments') s s'
      fun id id' => id' = M.entity id := by
  rw [readDefinition_eq, readDefinition_eq]
  refine (follows_openDefinition h hOwner hDefinition hKeyword isLocal hComments).bind_grows
    (grows_openDefinition h.sound hOwner hOwnerKind hDefinition keyword isLocal comments) ?_
  rintro ⟨id, forward⟩ ⟨_, forward'⟩ u u' _ ⟨hNamed, hOpened⟩ ⟨rfl, hForward⟩ hu
  obtain rfl : forward' = forward := hForward
  cases forward' with
  | true => exact Follows.pure hu rfl
  | false =>
    have hOpened : Opened s.tree u.tree owner id kind := hOpened
    refine (follows_readBody hContent hu hOpened.ready hNamed hOpened.kind).bind ?_
    exact fun _ _ v v' _ _ hv => Follows.pure hv rfl

end Definitions

theorem follows_definitionKind? (h : s.Mirrors M s') {t t' : Token} (ht : t.Meets M t') :
    Follows M (definitionKind? t) (definitionKind? t') s s' Eq := by
  have hKeyword : EntityKind.ofKeyword? t' = EntityKind.ofKeyword? t := by
    unfold EntityKind.ofKeyword?
    rw [ht.isKeyword, ht.text]
  unfold definitionKind?
  rw [hKeyword]
  cases EntityKind.ofKeyword? t with
  | none => exact Follows.pure h rfl
  | some kind =>
    dsimp only
    refine Follows.bind (P := Eq) ?_ ?_
    · unfold startsDefinition
      refine (follows_peek 0 h).bind ?_
      intro first first' u u' _ hFirst hu
      refine (follows_peek 1 hu).bind ?_
      intro second second' v v' _ hSecond hv
      rw [hFirst.isIdentifier, hSecond.isIdentifier]
      exact Follows.pure hv rfl
    · rintro starts _ u u' _ rfl hu
      exact Follows.ite (fun _ => Follows.pure hu rfl) fun _ => Follows.pure hu rfl

/-! ## Heads of statements -/

/-- Whether modifiers and the token behind them stand for others. -/
def MirrorsModifiers (M : Mirror) (r r' : Modifiers × Token) : Prop :=
  r'.1 = r.1 ∧ r.2.Meets M r'.2

theorem follows_readModifiers (h : s.Mirrors M s') (kind : EntityKind) {t t' : Token}
    (ht : t.Meets M t') :
    Follows M (readModifiers kind t) (readModifiers kind t') s s' (MirrorsModifiers M) := by
  have hBehind : ∀ (member : Member) (m : Modifiers), Follows M
      (if !kind.admits member then do
        let _ ← (failAtToken (.keywordUnexpected t.text) t : Parsing Unit)
        let u ← next
        return (m, u)
      else do
        let u ← next
        return (m, u))
      (if !kind.admits member then do
        let _ ← (failAtToken (.keywordUnexpected t'.text) t' : Parsing Unit)
        let u ← next
        return (m, u)
      else do
        let u ← next
        return (m, u)) s s' (MirrorsModifiers M) := by
    intro member m
    refine Follows.ite (fun _ => follows_failAtToken_bind _ _ _) fun _ => ?_
    exact (follows_next h).bind fun u u' v v' _ hu hv => Follows.pure hv ⟨rfl, hu⟩
  unfold readModifiers
  rw [ht.is, ht.is, ht.is, ht.is]
  dsimp only
  refine Follows.ite (fun _ => hBehind _ _) fun _ => Follows.ite (fun _ => hBehind _ _) fun _ =>
    Follows.ite (fun _ => hBehind _ _) fun _ => Follows.ite (fun _ => ?_) fun _ =>
      Follows.pure h ⟨rfl, ht⟩
  refine (hBehind _ _).bind ?_
  rintro ⟨_, u⟩ ⟨m, u'⟩ v v' _ ⟨rfl, hu⟩ hv
  dsimp only at hu ⊢
  rw [hu.is]
  exact Follows.ite (fun _ => follows_failAtToken_bind _ _ _) fun _ => Follows.pure hv ⟨rfl, hu⟩

/-! ## Declarations -/

theorem follows_declaratorsWithin (anonymous : Bool) (n : Nat) (h : s.Mirrors M s')
    {d d' : Declarator} (hd : d.Sound s.tree) (hMirrors : d.Mirrors M d')
    {comments comments' : List Token} (hComments : M.exact → comments' = comments) :
    Follows M (declaratorsWithin anonymous n d comments)
      (declaratorsWithin anonymous n d' comments') s s' fun _ _ => True := by
  induction n generalizing s s' d d' comments comments' with
  | zero => exact follows_fail _ _
  | succ n ih =>
    have hBehind : ∀ {u u' : Session} {t t' : Token}, u.Mirrors M u' → t.Meets M t' →
        d.Sound u.tree → Follows M
        (if t.is "," then
          if d.kind.supportsMultiple then do
            let name ← declarationName
            declaratorsWithin anonymous n { d with name, position := name.position } []
          else failAtToken .multipleUnsupported t
        else if t.is ";" then return
        else failAtToken .declarationUnterminated t)
        (if t'.is "," then
          if d'.kind.supportsMultiple then do
            let name ← declarationName
            declaratorsWithin anonymous n { d' with name, position := name.position } []
          else failAtToken .multipleUnsupported t'
        else if t'.is ";" then return
        else failAtToken .declarationUnterminated t') u u' fun _ _ => True := by
      intro u u' t t' hu ht hd
      rw [ht.is, ht.is, hMirrors.kind]
      refine Follows.ite (fun _ => Follows.ite (fun _ => ?_) fun _ => follows_failAtToken _ _ _)
        fun _ => Follows.ite (fun _ => Follows.pure hu trivial) fun _ => follows_failAtToken _ _ _
      refine (follows_declarationName hu).bind_grows
        (grows_declarationName (R := Grown d.owner) hu.sound) ?_
      intro name name' v v' hR hName hNames hv
      have hd₁ := hd.steps hR.steps hR.calm
      have hNext : Declarator.Sound { d with name, position := name.position } v.tree :=
        ⟨hd₁.owner, hd₁.kind, hd₁.member, hd₁.entry, hd₁.belongs, hd₁.type, hName⟩
      have hMirrorsNext : Declarator.Mirrors M { d with name, position := name.position }
          { d' with kind := d.kind, name := name', position := name'.position } :=
        ⟨hMirrors.owner, rfl, hMirrors.type, hNames, hMirrors.readonly,
          fun hExact => congrArg Token.position (hNames.exact hExact)⟩
      exact ih hv hNext hMirrorsNext fun _ => rfl
    have hAnnotates (e : Entity) : Entity.Annotates e { e with anonymous := true } := rfl
    unfold declaratorsWithin
    refine (follows_readDeclarator h hd hMirrors hComments).bind_grows
      (grows_readDeclarator h.sound hd comments) ?_
    rintro ⟨id, t⟩ ⟨_, t'⟩ u u' hR₁ - ⟨rfl, ht⟩ hu
    have hd₁ := hd.steps hR₁.steps hR₁.calm
    dsimp only at ht ⊢
    refine Follows.ite (fun _ => ?_) fun _ => hBehind hu ht hd₁
    refine Follows.bind_grows (R := Grown d.owner) (follows_annotate hu hAnnotates fun hEntity =>
      { hEntity with anonymous := rfl }) ((keeps_annotate hAnnotates).grows hu.sound) ?_
    exact fun _ _ v v' hR₂ _ _ hv => hBehind hv ht (hd₁.steps hR₂.steps hR₂.calm)

/-- Whether a statement stands for another one. -/
structure Statement.Mirrors (M : Mirror) (st st' : Statement) : Prop where
  owner : st'.owner = M.entity st.owner
  ownerKind : st'.ownerKind = st.ownerKind
  modifiers : st'.modifiers = st.modifiers
  position : M.exact → st'.position = st.position
  comments : M.exact → st'.comments = st.comments

namespace Statement

variable {st st' : Statement}

theorem follows_readDeclarators (h : s.Mirrors M s') (hSound : st.Sound s.tree)
    (hMirrors : st.Mirrors M st') {kind : EntityKind} (hKind : Declares kind)
    {type : DeclaredType} (hType : s.tree.Declarable type) {name name' : Token}
    (hName : IsName name.text) (hNames : name.Meets M name') (anonymous : Bool) :
    Follows M (st.readDeclarators kind type name anonymous)
      (st'.readDeclarators kind (type.renumber M.entity) name' anonymous) s s'
      fun _ _ => True := by
  obtain ⟨hDeclaration, hNotParameter, hNotCase, hNotEntry⟩ := hKind
  have hBelongs : kind.Belongs (s.tree.get st.owner).kind := by
    rw [hSound.kind]
    exact ⟨fun hCase => absurd hCase hNotCase, fun hEntry => absurd hEntry hNotEntry,
      fun hEnum => absurd hEnum hSound.content⟩
  have hDeclarator : Declarator.Mirrors M
      { owner := st.owner, kind, type, name
        readonly := st.modifiers.const || st.modifiers.readonly, position := st.position }
      { owner := st'.owner, kind, type := type.renumber M.entity, name := name'
        readonly := st'.modifiers.const || st'.modifiers.readonly, position := st'.position } :=
    ⟨hMirrors.owner, rfl, rfl, hNames, by rw [hMirrors.modifiers], hMirrors.position⟩
  unfold readDeclarators
  refine Follows.tokensLeft h fun n => ?_
  exact follows_declaratorsWithin anonymous (n + 1) h
    ⟨hSound.owner, hDeclaration, hNotParameter, hNotEntry, hBelongs, hType, hName⟩ hDeclarator
    hMirrors.comments

theorem follows_declarationKind (h : s.Mirrors M s') (hMirrors : st.Mirrors M st')
    (defines : Bool) (name name' : Token) :
    Follows M (st.declarationKind defines name) (st'.declarationKind defines name') s s' Eq := by
  unfold declarationKind
  rw [hMirrors.ownerKind, hMirrors.modifiers]
  refine (follows_peek 0 h).bind ?_
  intro t t' u u' _ ht hu
  rw [ht.is]
  refine Follows.ite (fun _ => ?_) fun _ => ?_
  · exact Follows.ite (fun _ => follows_failAtToken _ _ _) fun _ => Follows.pure hu rfl
  · exact Follows.ite (fun _ => Follows.pure hu rfl) fun _ =>
      Follows.ite (fun _ => Follows.pure hu rfl) fun _ =>
        Follows.ite (fun _ => Follows.pure hu rfl) fun _ => follows_failAtToken _ _ _

theorem follows_readAttributes (h : s.Mirrors M s') (hSound : st.Sound s.tree)
    (hMirrors : st.Mirrors M st') :
    Follows M st.readAttributes st'.readAttributes s s' fun _ _ => True := by
  unfold readAttributes
  rw [hMirrors.owner]
  refine (follows_readType h st.owner).bind_grows
    (grows_readType (R := Grown st.owner) h.sound st.owner) ?_
  rintro type _ u u' hR₁ hType rfl hu
  refine (follows_declarationName hu).bind_grows
    (grows_declarationName (R := Grown st.owner) hu.sound) ?_
  intro name name' v v' hR₂ hName hNames hv
  exact follows_readDeclarators hv ((hSound.grown hR₁).grown hR₂) hMirrors (by decide)
    (hu.sound.declarable hR₂ hType) hName hNames false

theorem follows_readDeclarations (h : s.Mirrors M s') (hSound : st.Sound s.tree)
    (hMirrors : st.Mirrors M st') {type : DeclaredType} (hType : s.tree.Declarable type)
    (defines anonymous : Bool) :
    Follows M (st.readDeclarations type defines anonymous)
      (st'.readDeclarations (type.renumber M.entity) defines anonymous) s s' fun _ _ => True := by
  unfold readDeclarations
  refine (follows_declarationName h).bind_grows
    (grows_declarationName (R := Grown st.owner) h.sound) ?_
  intro name name' u u' hR₁ hName hNames hu
  refine (follows_declarationKind hu hMirrors defines name name').bind_grows
    (grows_declarationKind (R := Grown st.owner) hu.sound defines name) ?_
  rintro kind _ v v' hR₂ hKind rfl hv
  exact follows_readDeclarators hv ((hSound.grown hR₁).grown hR₂) hMirrors hKind
    (h.sound.declarable (hR₁.trans hR₂) hType) hName hNames anonymous

theorem follows_readMember (h : s.Mirrors M s') (hSound : st.Sound s.tree)
    (hMirrors : st.Mirrors M st') {t t' : Token} (ht : t.Meets M t') :
    Follows M (st.readMember t) (st'.readMember t') s s' fun _ _ => True := by
  unfold readMember
  rw [hMirrors.modifiers, hMirrors.ownerKind, hMirrors.owner, ht.is, ht.is, ht.isOneOf]
  dsimp only
  refine Follows.ite (fun _ => follows_failAtToken _ _ _) fun _ =>
    Follows.ite (fun _ => follows_failAtToken _ _ _) fun _ =>
      Follows.ite (fun _ => Follows.ite (fun _ => follows_failAtToken _ _ _) fun hAdmits => ?_)
        fun _ => Follows.ite (fun _ => Follows.ite (fun _ => follows_failAtToken _ _ _) fun _ => ?_)
          fun _ => ?_
  · refine follows_readCase h hSound.owner ?_ ht hMirrors.comments
    rw [hSound.kind]
    rw [Bool.not_eq_true, Bool.or_eq_false_iff, Bool.not_eq_false'] at hAdmits
    exact union_of_admits_case hAdmits.2
  · exact follows_readAttributes h hSound hMirrors
  · refine (follows_putBack h ht).bind_grows
      (grows_putBack (R := Grown st.owner) h.sound ht.lexical) ?_
    intro _ _ u u' hR₁ _ _ hu
    refine (follows_readType hu st.owner).bind_grows
      (grows_readType (R := Grown st.owner) hu.sound st.owner) ?_
    rintro type _ v v' hR₂ hType rfl hv
    exact follows_readDeclarations hv ((hSound.grown hR₁).grown hR₂) hMirrors hType false false

/-! ## Statements with definitions -/

omit [M.Reading] in
theorem follows_definedType (h : s.Mirrors M s') (id : EntityId) (t t' : Token) :
    Follows M (definedType id t) (definedType (M.entity id) t') s s' (MirrorsType M) := by
  have hEntity := h.tree.entity id
  unfold definedType
  refine Follows.entity ?_
  rw [hEntity.kind, hEntity.name]
  cases (s.tree.get id).kind.baseType? with
  | none => exact follows_failAtToken _ _ _
  | some base => exact Follows.pure h rfl

theorem follows_finishDefinition (h : s.Mirrors M s') (hSound : st.Sound s.tree)
    (hMirrors : st.Mirrors M st') {id : EntityId} (hNamed : s.tree.Named id) {t t' : Token}
    (ht : t.Meets M t') :
    Follows M (st.finishDefinition id t) (st'.finishDefinition (M.entity id) t') s s'
      fun _ _ => True := by
  unfold finishDefinition
  rw [hMirrors.modifiers, hMirrors.ownerKind]
  dsimp only
  refine Follows.ite (fun _ => follows_failAtToken_bind _ _ _) fun _ => ?_
  refine (follows_endAt h id ht).bind_grows
    ((keeps_endAt id t).grows (R := Grown st.owner) h.sound) ?_
  intro _ _ u u' hR₁ _ _ hu
  refine Follows.entity ?_
  rw [(hu.tree.entity id).anonymous]
  refine Follows.ite (fun _ => Follows.pure hu trivial) fun _ =>
    Follows.ite (fun _ => follows_failAtToken _ _ _) fun _ => ?_
  refine (follows_putBack hu ht).bind_grows
    (grows_putBack (R := Grown st.owner) hu.sound ht.lexical) ?_
  intro _ _ v v' hR₂ _ _ hv
  refine (follows_generateName hv "var").bind_grows
    (grows_generateName (R := Grown st.owner) hv.sound (by decide)) ?_
  rintro name _ w w' hR₃ hName rfl hw
  have hR := hR₁.trans (hR₂.trans hR₃)
  refine (follows_definedType hw id t t').bind_grows (grows_definedType (R := Grown st.owner)
    hw.sound ((h.sound.extends hR).named hNamed) t) ?_
  rintro type _ x x' hR₄ hType rfl hx
  have hWord : Token.Meets M { t with kind := .identifier, text := name }
      { t' with kind := .identifier, text := name } :=
    ⟨⟨rfl, rfl, fun hExact => by rw [ht.exact hExact]⟩, fun _ => hName⟩
  refine (follows_putBack hx hWord).bind_grows
    (grows_putBack (R := Grown st.owner) hx.sound hWord.lexical) ?_
  intro _ _ y y' hR₅ _ _ hy
  exact follows_readDeclarations hy (hSound.grown (hR.trans (hR₄.trans hR₅))) hMirrors
    (hx.sound.declarable hR₅ hType) true true

theorem follows_readBehindDefinition (h : s.Mirrors M s') (hSound : st.Sound s.tree)
    (hMirrors : st.Mirrors M st') {id : EntityId} (hNamed : s.tree.Named id) {t t' : Token}
    (ht : t.Meets M t') :
    Follows M (st.readBehindDefinition id t) (st'.readBehindDefinition (M.entity id) t') s s'
      fun _ _ => True := by
  unfold readBehindDefinition
  rw [hMirrors.modifiers, ht.is, ht.isFinish, ht.isOneOf, ht.is]
  dsimp only
  refine Follows.ite (fun _ => follows_finishDefinition h hSound hMirrors hNamed ht) fun _ =>
    Follows.ite (fun _ => follows_failAtToken _ _ _) fun _ =>
      Follows.ite (fun _ => follows_failAtToken _ _ _) fun _ =>
        Follows.ite (fun _ => follows_failAtToken _ _ _) fun _ => ?_
  refine (follows_putBack h ht).bind_grows
    (grows_putBack (R := Grown st.owner) h.sound ht.lexical) ?_
  intro _ _ u u' hR₁ _ _ hu
  refine (follows_definedType hu id t t').bind_grows (grows_definedType (R := Grown st.owner)
    hu.sound ((h.sound.extends hR₁).named hNamed) t) ?_
  rintro type _ v v' hR₂ hType rfl hv
  exact follows_readDeclarations hv ((hSound.grown hR₁).grown hR₂) hMirrors hType true false

omit [M.Reading] in
theorem Mirrors.behind (h : st.Mirrors M st') : st.behind.Mirrors M st'.behind := by
  refine ⟨h.owner, h.ownerKind, h.modifiers, h.position, fun hExact => ?_⟩
  unfold Statement.behind
  rw [h.modifiers, h.comments hExact]

theorem follows_readBehind (h : s.Mirrors M s') (hSound : st.Sound s.tree)
    (hMirrors : st.Mirrors M st') {id : EntityId} (hNamed : s.tree.Named id) :
    Follows M (st.readBehind id) (st'.readBehind (M.entity id)) s s' fun _ _ => True := by
  unfold readBehind
  refine (follows_next h).bind_grows (grows_next (R := Grown st.owner) h.sound) ?_
  intro u u' v v' hR₁ _ hu hv
  refine (follows_attachAfter hv id fun hExact =>
    congrArg (fun u : Token => u.position.line) (hu.exact hExact)).bind_grows
    ((keeps_attachAfter id u.position.line).grows (R := Grown st.owner) hv.sound) ?_
  intro _ _ w w' hR₂ _ _ hw
  have hR := hR₁.trans hR₂
  exact follows_readBehindDefinition hw (hSound.grown hR).behind hMirrors.behind
    ((h.sound.extends hR).named hNamed) hu

end Statement

/-! ## Content -/

theorem follows_openStatement (h : s.Mirrors M s') (owner : EntityId) :
    Follows M (openStatement owner) (openStatement (M.entity owner)) s s'
      fun r r' => r.1.Mirrors M r'.1 ∧ r.2.1.Meets M r'.2.1 ∧ r'.2.2 = r.2.2 := by
  unfold openStatement
  refine Follows.entity ?_
  rw [(h.tree.entity owner).kind]
  refine (follows_commentsBefore h).bind ?_
  intro comments comments' s₁ s₁' _ hComments h₁
  refine (follows_next h₁).bind ?_
  intro first first' s₂ s₂' _ hFirst h₂
  refine (follows_readModifiers h₂ _ hFirst).bind ?_
  rintro ⟨_, t⟩ ⟨modifiers, t'⟩ s₃ s₃' _ ⟨rfl, ht⟩ h₃
  refine (follows_definitionKind? h₃ ht).bind ?_
  rintro kind? _ s₄ s₄' _ rfl h₄
  exact Follows.pure h₄ ⟨⟨rfl, rfl, rfl, fun hExact => congrArg Token.position (hFirst.exact hExact),
    hComments⟩, ht, rfl⟩

theorem follows_readStatement {content content' : EntityId → Parsing Unit}
    (hGrows : ∀ (s : Session) (owner : EntityId), s.Sound → s.tree.Owner owner →
      (s.tree.get owner).kind ≠ .enum →
      Grows Steps (content owner) s fun _ s' => Concludes owner s.tree s'.tree)
    (hContent : ∀ {s s' : Session} {owner : EntityId}, s.Mirrors M s' → Body s.tree owner →
      Follows M (content owner) (content' (M.entity owner)) s s' fun _ _ => True)
    (h : s.Mirrors M s') {owner : EntityId} (hBody : Body s.tree owner) :
    Follows M (readStatement content owner) (readStatement content' (M.entity owner)) s s'
      fun _ _ => True := by
  rw [readStatement_eq, readStatement_eq]
  refine (follows_openStatement h owner).bind_grows (grows_openStatement h.sound hBody) ?_
  rintro ⟨st, t, kind?⟩ ⟨st', t', kind?'⟩ u u' - ⟨-, hSound, -, hKind⟩ ⟨hMirrors, ht, hSame⟩ hu
  dsimp only at hSound hKind hMirrors ht hSame ⊢
  subst hSame
  cases kind?' with
  | none => exact Statement.follows_readMember hu hSound hMirrors ht
  | some kind =>
    have hOwnerKind : (u.tree.get st.owner).kind ≠ .enum := hSound.kind ▸ hSound.content
    unfold Statement.readRest
    dsimp only
    rw [hMirrors.owner, hMirrors.ownerKind, hMirrors.modifiers]
    refine Follows.ite (fun _ => follows_failAtToken _ _ _) fun _ => ?_
    refine (follows_readDefinition hContent hu hSound.owner hOwnerKind (hKind kind rfl) ht _
      fun hExact => ?_).bind_grows
      (grows_readDefinition hGrows hu.sound hSound.owner hOwnerKind (hKind kind rfl) t _ _) ?_
    · rw [hMirrors.comments hExact]
    rintro id _ v v' hR hNamed rfl hv
    exact Statement.follows_readBehind hv (hSound.steps (Course.steps hR) hR.calm) hMirrors hNamed

/-- The same content is read in mirrored sessions. -/
theorem follows_contentWithin {n n' : Nat} (hn : n ≤ n') (h : s.Mirrors M s') {owner : EntityId}
    (hBody : Body s.tree owner) :
    Follows M (contentWithin n owner) (contentWithin n' (M.entity owner)) s s'
      fun _ _ => True := by
  induction n generalizing n' s s' owner with
  | zero => exact follows_fail _ _
  | succ n ih =>
    obtain ⟨n', rfl⟩ := Nat.exists_eq_add_of_lt hn
    have hn : n ≤ n + n' := Nat.le_add_right _ _
    unfold contentWithin
    refine (follows_peek 0 h).bind_grows ((keeps_peek 0).grows (R := Grown owner) h.sound) ?_
    intro t t' u u' hR₁ _ ht hu
    have hBody₁ := hBody.continues hR₁.continues
    have hRoot : (M.entity owner = root) = (owner = root) := by
      rw [← M.entity_root, M.entity_injective.eq_iff]
      rw [M.entity_root]
    rw [ht.isFinish, ht.is]
    simp only [hRoot]
    refine Follows.ite (fun _ => follows_evaluateMembers hu owner) fun _ => Follows.ite (fun _ =>
      Follows.ite (fun _ => follows_failAtToken _ _ _) fun _ => follows_evaluateMembers hu owner)
      fun _ => ?_
    have hGrows : ∀ (s : Session) (owner : EntityId), s.Sound → s.tree.Owner owner →
        (s.tree.get owner).kind ≠ .enum →
        Grows Steps (contentWithin n owner) s fun _ s' => Concludes owner s.tree s'.tree :=
      fun _ _ hs hOwner hKind => grows_contentWithin n hs ⟨hOwner, hKind⟩
    refine (follows_readStatement hGrows (fun hv hOwner => ih hn hv hOwner) hu hBody₁).bind_grows
      (grows_readStatement hGrows hu.sound hBody₁) ?_
    exact fun _ _ v v' hR₂ _ _ hv => ih hn hv (hBody₁.continues hR₂)

theorem follows_readRoot (h : s.Mirrors M s') (hBody : Body s.tree root) :
    Follows M readRoot readRoot s s' fun _ _ => True := by
  unfold readRoot
  refine Follows.tokensLeft h fun n => ?_
  have hContent := follows_contentWithin (Nat.le_refl n) h hBody
  rwa [M.entity_root] at hContent

end Parsing

end IdlReader
