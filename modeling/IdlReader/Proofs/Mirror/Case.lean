import IdlReader.Proofs.Grammar.Case
import IdlReader.Proofs.Mirror.Declarator

/-!
# Cases and entries in mirrored sessions

In mirrored sessions the same cases of unions and entries of enumerations are read, and mirrored
declarations are added to the trees.

* `follows_readCase`: a case with its label.
* `follows_readEnumeration`: the entries of an enumeration.
-/

namespace IdlReader

open IdlReader.Tree

namespace Parsing

variable {M : Mirror} [M.Reading] {s s' : Session}

/-! ## Cases -/

theorem follows_labelTokens (isDefault : Bool) (n : Nat) (h : s.Mirrors M s') :
    Follows M (labelTokens isDefault n) (labelTokens isDefault n) s s' M.Tokens := by
  induction n generalizing s s' with
  | zero => exact follows_fail _ _
  | succ n ih =>
    unfold labelTokens
    refine (follows_next h).bind ?_
    intro t t' u u' _ ht hu
    rw [ht.is, ht.is, ht.isFinish]
    refine Follows.ite (fun _ => Follows.pure hu .nil) fun _ =>
      Follows.ite (fun _ => follows_failAtToken _ _ _) fun _ =>
        Follows.ite (fun _ => follows_failAtToken _ _ _) fun _ => ?_
    exact (ih hu).bind fun ts ts' v v' _ hts hv => Follows.pure hv (.cons ht.toMirrors hts)

theorem follows_readLabel (h : s.Mirrors M s') {label label' : Token}
    (hLabel : label.Meets M label') :
    Follows M (readLabel label) (readLabel label') s s' M.Tokens := by
  unfold readLabel
  rw [hLabel.is]
  refine Follows.tokensLeft h fun n => ?_
  refine (follows_labelTokens _ n h).bind ?_
  intro ts ts' u u' _ hts hu
  have hEmpty : ts'.isEmpty = ts.isEmpty := by
    cases hts with
    | nil => rfl
    | cons _ _ => rfl
  dsimp only
  rw [hEmpty]
  exact Follows.ite (fun _ => follows_failAtToken_bind _ _ _) fun _ => Follows.pure hu hts

theorem follows_followsSoon (h : s.Mirrors M s') (text : String) :
    Follows M (followsSoon text) (followsSoon text) s s' Eq := by
  unfold followsSoon
  refine (follows_peek 1 h).bind ?_
  intro t t' u u' _ ht hu
  rw [ht.is]
  refine Follows.ite (fun _ => Follows.pure hu rfl) fun _ => ?_
  refine (follows_peek 2 hu).bind ?_
  exact fun v v' w w' _ hv hw => Follows.pure hw (hv.is text).symm

theorem follows_definesNext (h : s.Mirrors M s') {t t' : Token} (ht : t.Meets M t') :
    Follows M (definesNext t) (definesNext t') s s' Eq := by
  unfold definesNext
  rw [ht.is, ht.is]
  have hUnion : ∀ {u u' : Session} (struct : Bool), u.Mirrors M u' → Follows M
      (if struct then return true else if t.is "union" then followsSoon "switch" else return false)
      (if struct then return true else if t.is "union" then followsSoon "switch" else return false)
      u u' Eq :=
    fun struct hu => Follows.ite (fun _ => Follows.pure hu rfl) fun _ =>
      Follows.ite (fun _ => follows_followsSoon hu _) fun _ => Follows.pure hu rfl
  refine Follows.bind (P := Eq) (Follows.ite (fun _ => follows_followsSoon h _) fun _ =>
    Follows.pure h rfl) ?_
  rintro struct _ u u' _ rfl hu
  exact hUnion struct hu

theorem follows_declareLabel (h : s.Mirrors M s') {owner : EntityId} (hOwner : s.tree.Owner owner)
    {label label' : Token} (hLabel : label.Meets M label') {comments comments' : List Token}
    (hComments : M.exact → comments' = comments) :
    Follows M (declareLabel owner label comments) (declareLabel (M.entity owner) label' comments')
      s s' fun id id' => id' = M.entity id := by
  have hParameter : EntityKind.caseEntry = .parameter ↔ (s.tree.get owner).kind = .operation :=
    ⟨fun h => absurd h (by decide), fun h => absurd h hOwner.kind⟩
  have hRefers : ∀ d : Declaration, EntityData.declaration
      { type := { base := .void, text := "void" } } = .declaration d → s.tree.Refers d.type := by
    rintro d ⟨⟩
    exact (declarable_plain _ _ _ _).refers
  have hAdded := @grows_addEntity s h.sound owner .caseEntry label.source
    (Span.point label.position) _ hOwner.ready (.declaration rfl _ _ _) hParameter hRefers
    fun h => absurd h (by decide)
  unfold declareLabel
  refine (follows_addEntity h (fun id u hAdd => (hAdded id u hAdd).1)
    (.declaration (.added M _ _ _)) (fun hExact => by rw [hLabel.exact hExact])
    (fun hExact => by rw [hLabel.exact hExact])).bind_grows hAdded ?_
  rintro id _ u u' - ⟨hOpen, hAdd⟩ rfl hu
  obtain ⟨-, hId, -, -, -, hGet⟩ := add_eq_ok hAdd
  refine (follows_generateName hu "case").bind_grows
    (grows_generateName (R := Quiet) hu.sound (by decide)) ?_
  rintro name _ v v' hQuiet hName rfl hv
  have hKind : (v.tree.get id).kind = .caseEntry := by
    rw [(hu.sound.extends hQuiet).kind id hOpen.lt, hGet, if_pos hId]
  have hListed : true = true ↔ (v.tree.get id).kind ≠ .parameter := by
    rw [hKind]
    decide
  have hFull : false = true → (v.tree.get id).kind.isDefinition = true := nofun
  refine (follows_nameEntity hv fun found w hRun =>
    (grows_nameEntity hv.sound (hQuiet.opened id hOpen) hName hFull hListed found w hRun).1).bind ?_
  rintro found _ w w' _ rfl hw
  refine (follows_attachBefore hw found hComments).bind ?_
  intro _ _ x x' _ _ hx
  refine (follows_attachAfter hx found fun hExact =>
    congrArg (fun u : Token => u.position.line) (hLabel.exact hExact)).bind ?_
  exact fun _ _ y y' _ _ hy => Follows.pure hy rfl

theorem follows_readLabelled (h : s.Mirrors M s') {owner : EntityId} (hOwner : s.tree.Owner owner)
    (hUnion : (s.tree.get owner).kind = .union) {label label' : Token}
    (hLabel : label.Meets M label') {comments comments' : List Token}
    (hComments : M.exact → comments' = comments) :
    Follows M (readLabelled owner label comments) (readLabelled (M.entity owner) label' comments')
      s s' fun id id' => id' = M.entity id := by
  unfold readLabelled
  refine (follows_readType h owner).bind_grows (grows_readType (R := Quiet) h.sound owner) ?_
  rintro type _ u u' hR₁ hType rfl hu
  refine (follows_declarationName hu).bind_grows (grows_declarationName (R := Quiet) hu.sound) ?_
  intro name name' v v' hR₂ hName hMirrors hv
  have hR := hR₁.trans hR₂
  have hExtends := h.sound.extends hR
  have hOwner₂ := hOwner.extends hExtends (hR.calm hOwner.ready.calm)
  have hUnion₂ := (hExtends.kind owner hOwner.ready.lt).trans hUnion
  have hMember : EntityKind.caseEntry ≠ .parameter := by decide
  have hEntry : EntityKind.caseEntry ≠ .enumEntry := by decide
  have hDeclarator : Declarator.Mirrors M
      { owner, kind := .caseEntry, type, name, readonly := false, position := label.position }
      { owner := M.entity owner, kind := .caseEntry, type := type.renumber M.entity, name := name'
        readonly := false, position := label'.position } :=
    ⟨rfl, rfl, rfl, hMirrors, rfl, fun hExact => congrArg Token.position (hLabel.exact hExact)⟩
  refine (follows_readDeclarator hv ⟨hOwner₂, rfl, hMember, hEntry, belongs_case hUnion₂,
    hu.sound.declarable hR₂ hType, hName⟩ hDeclarator hComments).bind ?_
  rintro ⟨id, t⟩ ⟨_, t'⟩ w w' _ ⟨rfl, ht⟩ hw
  dsimp only at ht ⊢
  rw [ht.is]
  exact Follows.ite (fun _ => Follows.pure hw rfl) fun _ => follows_failAtToken _ _ _

theorem follows_readCase (h : s.Mirrors M s') {owner : EntityId} (hOwner : s.tree.Owner owner)
    (hUnion : (s.tree.get owner).kind = .union) {label label' : Token}
    (hLabel : label.Meets M label') {comments comments' : List Token}
    (hComments : M.exact → comments' = comments) :
    Follows M (readCase owner label comments) (readCase (M.entity owner) label' comments')
      s s' fun _ _ => True := by
  unfold readCase
  refine (follows_readLabel h hLabel).bind_grows ((keeps_readLabel label).grows (R := Quiet) h.sound)
    ?_
  intro tokens tokens' u u' hR₁ _ hTokens hu
  refine (follows_peek 0 hu).bind_grows ((keeps_peek 0).grows (R := Quiet) hu.sound) ?_
  intro t t' v v' hR₂ _ ht hv
  refine (follows_definesNext hv ht).bind_grows
    ((keeps_definesNext t).grows (R := Quiet) hv.sound) ?_
  rintro defines _ w w' hR₃ - rfl hw
  have hR := hR₁.trans (hR₂.trans hR₃)
  have hExtends := h.sound.extends hR
  have hOwner₃ := hOwner.extends hExtends (hR.calm hOwner.ready.calm)
  have hUnion₃ := (hExtends.kind owner hOwner.ready.lt).trans hUnion
  rw [hLabel.is, ht.isOneOf]
  dsimp only
  refine Follows.ite (fun _ => follows_failAtToken_bind _ _ _) fun _ => ?_
  refine Follows.ite_bind (P := fun id id' => id' = M.entity id)
    (fun _ => follows_declareLabel hw hOwner₃ hLabel hComments)
    (fun _ => follows_readLabelled hw hOwner₃ hUnion₃ hLabel hComments) ?_
  rintro id _ x x' _ rfl hx
  refine follows_complete hx (fun _ => rfl) (fun _ _ hy => Or.inl hy) (fun _ _ hy => Or.inl hy)
    fun d d' hd =>
    { hd with defaultCase := rfl, labels := ?_ }
  dsimp only
  split
  · exact hd.labels
  · exact .cons hTokens .nil

/-! ## Enumerations -/

theorem follows_readEntry (h : s.Mirrors M s') {owner : EntityId} {type : DeclaredType}
    (hEntering : Entering s.tree owner type) :
    Follows M (readEntry owner type) (readEntry (M.entity owner) (type.renumber M.entity)) s s'
      (Token.Meets M) := by
  unfold readEntry
  refine (follows_commentsBefore h).bind_grows (keeps_commentsBefore.grows (R := Grown owner) h.sound)
    ?_
  intro comments comments' u u' hR₁ _ hComments hu
  refine (follows_declarationName hu).bind_grows
    (grows_declarationName (R := Grown owner) hu.sound) ?_
  intro name name' v v' hR₂ hName hMirrors hv
  have h₂ := (hEntering.grown hR₁).grown hR₂
  rw [hMirrors.text]
  refine Follows.declare hv h₂.ready.ready rfl ?_ (by decide) h₂.type
    (fun _ => ⟨h₂.kind, h₂.self⟩) hName (fun hExact => by rw [hMirrors.exact hExact])
    (fun hExact => by rw [hMirrors.exact hExact]) ?_
  · exact ⟨fun h => absurd h (by decide), fun h => absurd h h₂.ready.kind⟩
  intro id w w' hw _ _ _
  have hNotes : ∀ {x x' : Session} {t t' : Token}, x.Mirrors M x' → t.Meets M t' → Follows M (do
      attachAfter id t.position.line
      endAt id t
      return t) (do
      attachAfter (M.entity id) t'.position.line
      endAt (M.entity id) t'
      return t') x x' (Token.Meets M) := by
    intro x x' t t' hx ht
    refine (follows_attachAfter hx id fun hExact => by rw [ht.exact hExact]).bind ?_
    intro _ _ y y' _ _ hy
    exact (follows_endAt hy id ht).bind fun _ _ z z' _ _ hz => Follows.pure hz ht
  refine (follows_attachBefore hw id hComments).bind ?_
  intro _ _ x x' _ _ hx
  refine (follows_next hx).bind ?_
  intro t t' y y' _ ht hy
  rw [ht.is]
  dsimp only
  refine Follows.ite (fun _ => ?_) fun _ => hNotes hy ht
  refine (follows_readAssignment hy).bind ?_
  rintro ⟨assignment, t⟩ ⟨assignment', t'⟩ z z' _ ⟨hAssignment, ht⟩ hz
  refine Follows.bind (follows_complete hz (fun _ => rfl) (fun _ _ hx => Or.inl hx)
    (fun _ _ hx => Or.inl hx) fun d d' hd => { hd with assignment := hAssignment }) ?_
  exact fun _ _ _ _ _ _ hLast => hNotes hLast ht

theorem follows_entriesWithin (n : Nat) (h : s.Mirrors M s') {owner : EntityId}
    {type : DeclaredType} (hEntering : Entering s.tree owner type) :
    Follows M (entriesWithin owner type n)
      (entriesWithin (M.entity owner) (type.renumber M.entity) n) s s' fun _ _ => True := by
  induction n generalizing s s' with
  | zero => exact follows_fail _ _
  | succ n ih =>
    unfold entriesWithin
    refine (follows_peek 0 h).bind_grows ((keeps_peek 0).grows (R := Grown owner) h.sound) ?_
    intro t t' u u' hR₁ _ ht hu
    rw [ht.is, ht.isFinish]
    refine Follows.ite (fun _ => Follows.pure hu trivial) fun _ => ?_
    have h₁ := hEntering.grown hR₁
    refine (follows_readEntry hu h₁).bind_grows (grows_readEntry hu.sound h₁) ?_
    intro v v' w w' hR₂ _ hv hw
    rw [hv.is, hv.is]
    exact Follows.ite (fun _ => follows_putBack hw hv) fun _ =>
      Follows.ite (fun _ => ih hw (h₁.grown hR₂)) fun _ => follows_failAtToken _ _ _

omit [M.Reading] in
theorem follows_checkEntries (seen : List Constant) (ids : List EntityId) (h : s.Mirrors M s') :
    Follows M (checkEntries seen ids) (checkEntries seen (ids.map M.entity)) s s'
      fun _ _ => True := by
  induction ids generalizing seen s s' with
  | nil => exact Follows.pure h trivial
  | cons id ids ih =>
    rw [List.map_cons]
    unfold checkEntries
    refine (followsEvaluation_evaluateDeclaration id h).bind ?_
    intro _ _ u u' _ _ hu
    refine Follows.entity ?_
    cases hd : (u.tree.get id).declaration? with
    | none => exact follows_fail _ _
    | some d =>
      obtain ⟨d', hd', hMirrors⟩ := (hu.tree.entity id).declaration? hd
      rw [hd', Option.bind_some, Option.bind_some, hMirrors.value]
      cases d.value.constant? with
      | none => exact follows_fail _ _
      | some c => exact Follows.ite (fun _ => follows_failAt _ _ _) fun _ => ih _ hu

theorem follows_readEnumeration (h : s.Mirrors M s') {owner : EntityId}
    (hOwner : s.tree.Owner owner) (hKind : (s.tree.get owner).kind = .enum)
    (hNamed : s.tree.Named owner) :
    Follows M (readEnumeration owner) (readEnumeration (M.entity owner)) s s' fun _ _ => True := by
  have hBase : (s.tree.get owner).baseType? = some .enum := by
    unfold Entity.baseType?
    rw [hKind]
    rfl
  have hType := declarable_of_baseType? hNamed hBase (s.tree.get owner).name
  unfold readEnumeration
  refine Follows.entity (Follows.tokensLeft h fun n => ?_)
  rw [(h.tree.entity owner).name]
  refine (follows_entriesWithin n h ⟨hOwner, hKind, rfl, hType⟩).bind ?_
  intro _ _ u u' _ _ hu
  refine Follows.entity ?_
  rw [(hu.tree.entity owner).children]
  exact follows_checkEntries [] _ hu

end Parsing

end IdlReader
