import IdlReader.Proofs.Grammar.Declarator
import IdlReader.Proofs.Mirror.DeclaredType

/-!
# Declarators in mirrored sessions

In mirrored sessions the same declarators are read, and mirrored declarations are added to the
trees.

* `Follows.declare`: adding a declaration and naming it at once.
* `follows_readParameters`, `follows_readRaises`: the parts behind the name.
* `follows_readDeclarator`: the declarator as a whole.
-/

namespace IdlReader

open IdlReader.Tree

/-- A type and what else is known of a declaration that is added, for another tree. -/
theorem Declaration.Mirrors.added (M : Mirror) (type : DeclaredType) (readonly : Bool)
    (direction : Option Direction) : Declaration.Mirrors M { type, readonly, direction }
      { type := type.renumber M.entity, readonly, direction } :=
  ⟨rfl, .nil, rfl, .nil, rfl, rfl, rfl, rfl, rfl, rfl, rfl, rfl, .nil, rfl, rfl, rfl⟩

namespace Parsing

variable {M : Mirror} {s s' : Session} {α α' : Type}

/-! ## Adding and naming -/

/-- Mirrored declarations that are named as soon as they are added. -/
theorem Follows.declare (h : s.Mirrors M s') {owner : EntityId} {kind : EntityKind}
    {source source' : SourceId} {span span' : Span} {type : DeclaredType} {readonly : Bool}
    {direction : Option Direction} {name : String} {listed : Bool} {f : EntityId → Parsing α}
    {f' : EntityId → Parsing α'} {Q : α → α' → Prop} (hReady : s.tree.Ready owner)
    (hKind : kind.isDeclaration = true)
    (hParameter : kind = .parameter ↔ (s.tree.get owner).kind = .operation)
    (hListed : listed = true ↔ kind ≠ .parameter) (hType : s.tree.Declarable type)
    (hEntry : kind = .enumEntry →
      (s.tree.get owner).kind = .enum ∧ type.definition = some owner) (hName : IsName name)
    (hSource : M.exact → source' = source) (hSpan : M.exact → span' = span)
    (hf : ∀ id u u', u.Mirrors M u' → Calming s.tree u.tree →
      Introduces s.tree u.tree owner id kind → u.tree.Pending id →
      Follows M (f id) (f' (M.entity id)) u u' Q) :
    Follows M (do
      let id ← addEntity owner kind source span (.declaration { type, readonly, direction })
      let id ← nameEntity id name false listed
      f id) (do
      let id ← addEntity (M.entity owner) kind source' span'
        (.declaration { type := type.renumber M.entity, readonly, direction })
      let id ← nameEntity id name false listed
      f' id) s s' Q := by
  have hBoth : Grows Calming (addEntity owner kind source span
      (.declaration { type, readonly, direction }) >>= fun id =>
      nameEntity id name false listed >>= Pure.pure) s
      fun id s' => Introduces s.tree s'.tree owner id kind ∧ s'.tree.Pending id :=
    Grows.declare h.sound hReady hKind hParameter hListed hType hEntry hName
      fun _ _ hs _ hIntroduces hPending => Grows.pure hs ⟨hIntroduces, hPending⟩
  refine (follows_addEntity h (fun id u hAdd => ?_)
    (.declaration (.added M type readonly direction)) hSource hSpan).bind ?_
  · refine (grows_addEntity h.sound hReady (.declaration hKind type readonly direction) hParameter
      ?_ ?_ id u hAdd).1
    · rintro d ⟨⟩
      exact hType.refers
    · refine fun hEnumEntry => ⟨(hEntry hEnumEntry).1, ?_⟩
      rintro d ⟨⟩
      exact (hEntry hEnumEntry).2
  rintro id _ u u' hAdd rfl hu
  have hRun : ∀ {found v}, nameEntity id name false listed u = .ok found v →
      (addEntity owner kind source span (.declaration { type, readonly, direction }) >>= fun id =>
        nameEntity id name false listed >>= Pure.pure) s = .ok found v :=
    fun hName => bind_eq_ok.mpr ⟨id, u, hAdd, bind_eq_ok.mpr ⟨_, _, hName, rfl⟩⟩
  refine (follows_nameEntity hu fun found v hName => (hBoth found v (hRun hName)).1).bind ?_
  rintro found _ v v' hName rfl hv
  obtain ⟨-, hCalming, hIntroduces, hPending⟩ := hBoth found v (hRun hName)
  exact hf found v v' hv hCalming hIntroduces hPending

variable [M.Reading]

/-! ## Names, dimensions and assignments -/

theorem follows_declarationName (h : s.Mirrors M s') :
    Follows M declarationName declarationName s s' (Token.Meets M) := by
  unfold declarationName
  refine (follows_next h).bind ?_
  intro t t' u u' _ ht hu
  refine Follows.get ?_
  rw [ht.isKeyword, ht.isIdentifier, hu.env]
  refine Follows.ite (fun _ => ?_) fun _ => ?_
  · exact Follows.ite (fun _ => Follows.pure hu ht) fun _ => follows_failAtToken _ _ _
  · exact Follows.ite (fun _ => Follows.pure hu ht) fun _ => follows_failAtToken _ _ _

theorem follows_dimensionTokens (n depth : Nat) (h : s.Mirrors M s') :
    Follows M (dimensionTokens n depth) (dimensionTokens n depth) s s' M.Tokens := by
  induction n generalizing depth s s' with
  | zero => exact follows_fail _ _
  | succ n ih =>
    unfold dimensionTokens
    refine (follows_next h).bind ?_
    intro t t' u u' _ ht hu
    rw [ht.isFinish, ht.is, ht.is, ht.is]
    refine Follows.ite (fun _ => follows_failAtToken _ _ _) fun _ =>
      Follows.ite (fun _ => follows_failAtToken _ _ _) fun _ =>
        Follows.ite (fun _ => Follows.pure hu .nil) fun _ => ?_
    refine (ih _ hu).bind ?_
    exact fun ts ts' v v' _ hts hv => Follows.pure hv (.cons ht.toMirrors hts)

theorem follows_dimensionsWithin (kind : EntityKind) (n : Nat) (further : Bool)
    (h : s.Mirrors M s') :
    Follows M (dimensionsWithin kind n further) (dimensionsWithin kind n further) s s'
      (List.Forall₂ M.Tokens) := by
  induction n generalizing further s s' with
  | zero => exact follows_fail _ _
  | succ n ih =>
    unfold dimensionsWithin
    refine (follows_peek 0 h).bind ?_
    intro t t' u u' _ ht hu
    rw [ht.is]
    refine Follows.ite (fun _ => Follows.pure hu .nil) fun _ => ?_
    refine (follows_next hu).bind ?_
    intro opening opening' v v' _ hOpening hv
    refine Follows.get ?_
    rw [hv.env]
    refine Follows.ite (fun _ => follows_failAtToken _ _ _) fun _ =>
      Follows.ite (fun _ => follows_failAtToken _ _ _) fun _ => Follows.tokensLeft hv fun budget => ?_
    refine (follows_dimensionTokens budget 0 hv).bind ?_
    intro d d' w w' _ hd hw
    refine (ih true hw).bind ?_
    exact fun ds ds' x x' _ hds hx => Follows.pure hx (.cons hd hds)

theorem follows_readDimensions (kind : EntityKind) (h : s.Mirrors M s') :
    Follows M (readDimensions kind) (readDimensions kind) s s' (List.Forall₂ M.Tokens) :=
  Follows.tokensLeft h fun n => follows_dimensionsWithin kind n false h

/-- Whether what was read up to a token stands for what was read up to another one. -/
def MirrorsUpTo (M : Mirror) (r r' : List Token × Token) : Prop :=
  M.Tokens r.1 r'.1 ∧ r.2.Meets M r'.2

theorem follows_assignmentWithin (n depth : Nat) (h : s.Mirrors M s') :
    Follows M (assignmentWithin n depth) (assignmentWithin n depth) s s' (MirrorsUpTo M) := by
  induction n generalizing depth s s' with
  | zero => exact follows_fail _ _
  | succ n ih =>
    unfold assignmentWithin
    refine (follows_next h).bind ?_
    intro t t' u u' _ ht hu
    rw [ht.isFinish, ht.is, ht.isOneOf, ht.is, ht.is]
    refine Follows.ite (fun _ => follows_failAtToken _ _ _) fun _ =>
      Follows.ite (fun _ => Follows.pure hu ⟨.nil, ht⟩) fun _ => ?_
    refine (ih _ hu).bind ?_
    rintro ⟨ts, terminator⟩ ⟨ts', terminator'⟩ v v' _ ⟨hts, hTerminator⟩ hv
    exact Follows.pure hv ⟨.cons ht.toMirrors hts, hTerminator⟩

theorem follows_readAssignment (h : s.Mirrors M s') :
    Follows M readAssignment readAssignment s s' (MirrorsUpTo M) :=
  Follows.tokensLeft h fun n => follows_assignmentWithin n 0 h

theorem follows_readInitializer (h : s.Mirrors M s') (kind : EntityKind) {t t' : Token}
    (ht : t.Meets M t') :
    Follows M (readInitializer kind t) (readInitializer kind t') s s' (MirrorsUpTo M) := by
  unfold readInitializer
  rw [ht.is]
  refine Follows.ite (fun _ => ?_) fun _ => ?_
  · exact Follows.ite (fun _ => follows_readAssignment h) fun _ => follows_failAtToken _ _ _
  · exact Follows.ite (fun _ => follows_failAtToken _ _ _) fun _ => Follows.pure h ⟨.nil, ht⟩

/-! ## Parameters -/

omit [M.Reading] in
theorem mirrors_direction? {t t' : Token} (ht : t.Meets M t') :
    direction? t' = direction? t := by
  unfold Parsing.direction?
  rw [ht.isKeyword, ht.text]

theorem follows_readParameter (h : s.Mirrors M s') {operation : EntityId}
    (hReady : s.tree.Ready operation) (hKind : (s.tree.get operation).kind = .operation) :
    Follows M (readParameter operation) (readParameter (M.entity operation)) s s'
      fun id id' => id' = M.entity id := by
  unfold readParameter
  refine (follows_next h).bind_grows (keeps_next.grows (R := Quiet) h.sound) ?_
  intro t t' u u' hR₁ _ ht hu
  rw [mirrors_direction? ht]
  cases direction? t with
  | none => exact follows_failAtToken _ _ _
  | some direction =>
    refine (follows_readType hu operation).bind_grows (grows_readType (R := Quiet) hu.sound operation) ?_
    rintro type _ v v' hR₂ hType rfl hv
    refine (follows_declarationName hv).bind_grows (grows_declarationName (R := Quiet) hv.sound) ?_
    intro name name' w w' hR₃ hName hMirrors hw
    have hR := hR₁.trans (hR₂.trans hR₃)
    have hExtends := h.sound.extends hR
    dsimp only
    rw [DeclaredType.base_renumber]
    refine Follows.ite (fun _ => follows_failAtToken_bind _ _ _) fun _ => ?_
    rw [hMirrors.text]
    refine Follows.declare hw (hExtends.ready (hR.calm hReady.calm) hReady) rfl ?_ ?_
      (hv.sound.declarable hR₃ hType) (fun h => absurd h (by decide)) hName
      (fun hExact => by rw [hMirrors.exact hExact]) (fun hExact => by rw [ht.exact hExact]) ?_
    · rw [hExtends.kind operation hReady.lt]
      exact ⟨fun _ => hKind, fun _ => rfl⟩
    · exact ⟨nofun, fun h => absurd rfl h⟩
    · intro id x x' hx _ _ _
      refine (follows_readDimensions _ hx).bind ?_
      intro dimensions dimensions' y y' _ hDimensions hy
      refine Follows.bind (follows_complete hy (fun _ => rfl) (fun _ _ hx => Or.inl hx)
        (fun _ _ hx => Or.inl hx) fun d d' hd => { hd with dimensions := hDimensions }) ?_
      exact fun _ _ z z' _ _ hz => Follows.pure hz rfl

theorem follows_parametersWithin (n : Nat) (h : s.Mirrors M s') {operation : EntityId}
    (hReady : s.tree.Ready operation) (hKind : (s.tree.get operation).kind = .operation) :
    Follows M (parametersWithin operation n) (parametersWithin (M.entity operation) n) s s'
      fun ids ids' => ids' = ids.map M.entity := by
  induction n generalizing s s' with
  | zero => exact follows_fail _ _
  | succ n ih =>
    unfold parametersWithin
    refine (follows_readParameter h hReady hKind).bind_grows
      (grows_readParameter h.sound hReady hKind) ?_
    rintro id _ u u' hR₁ - rfl hu
    refine (follows_next hu).bind_grows (grows_next (R := Calming) hu.sound) ?_
    intro t t' v v' hR₂ _ ht hv
    have hR := hR₁.trans hR₂
    have hExtends := h.sound.extends hR
    rw [ht.is, ht.is]
    refine Follows.ite (fun _ => Follows.pure hv rfl) fun _ =>
      Follows.ite (fun _ => ?_) fun _ => follows_failAtToken _ _ _
    refine (ih hv (hExtends.ready (hR.calm hReady.calm) hReady) ?_).bind ?_
    · rw [hExtends.kind operation hReady.lt]
      exact hKind
    · rintro ids _ w w' _ rfl hw
      exact Follows.pure hw rfl

theorem follows_readParameters (h : s.Mirrors M s') {operation : EntityId}
    (hReady : s.tree.Ready operation) (hKind : (s.tree.get operation).kind = .operation) :
    Follows M (readParameters operation) (readParameters (M.entity operation)) s s'
      fun ids ids' => ids' = ids.map M.entity := by
  unfold readParameters
  refine (follows_takeIf h ")").bind_grows ((keeps_takeIf ")").grows (R := Calming) h.sound) ?_
  rintro closed _ u u' hR - rfl hu
  have hExtends := h.sound.extends hR
  refine Follows.ite (fun _ => Follows.pure hu rfl) fun _ => Follows.tokensLeft hu fun n => ?_
  refine follows_parametersWithin n hu (hExtends.ready (hR.calm hReady.calm) hReady) ?_
  rw [hExtends.kind operation hReady.lt]
  exact hKind

/-- Whether a signature stands for another one. -/
structure MirrorsSignature (M : Mirror) (r r' : List EntityId × Bool × Token) : Prop where
  parameters : r'.1 = r.1.map M.entity
  constOperation : r'.2.1 = r.2.1
  token : r.2.2.Meets M r'.2.2

theorem follows_readSignature (h : s.Mirrors M s') {operation : EntityId}
    (hReady : s.tree.Ready operation) (hKind : (s.tree.get operation).kind = .operation) :
    Follows M (readSignature operation) (readSignature (M.entity operation)) s s'
      (MirrorsSignature M) := by
  unfold readSignature
  refine (follows_expectMark h _ _).bind_grows
    ((keeps_expectMark _ _).grows (R := Calming) h.sound) ?_
  intro _ _ u u' hR _ _ hu
  have hExtends := h.sound.extends hR
  refine (follows_readParameters hu (hExtends.ready (hR.calm hReady.calm) hReady) ?_).bind ?_
  · rw [hExtends.kind operation hReady.lt]
    exact hKind
  rintro parameters _ v v' _ rfl hv
  refine (follows_next hv).bind ?_
  intro t t' w w' _ ht hw
  rw [ht.is]
  refine Follows.ite (fun _ => ?_) fun _ => Follows.pure hw ⟨rfl, rfl, ht⟩
  exact (follows_next hw).bind fun _ _ _ _ _ hToken hx => Follows.pure hx ⟨rfl, rfl, hToken⟩

/-! ## Exceptions -/

theorem follows_exceptionsWithin (owner : EntityId) (n : Nat) (h : s.Mirrors M s') :
    Follows M (exceptionsWithin owner n) (exceptionsWithin (M.entity owner) n) s s'
      fun ids ids' => ids' = ids.map M.entity := by
  induction n generalizing s s' with
  | zero => exact follows_fail _ _
  | succ n ih =>
    unfold exceptionsWithin
    refine (follows_next h).bind ?_
    intro first first' u u' _ hFirst hu
    refine (follows_readScopedName hu hFirst).bind ?_
    rintro ⟨_, last⟩ ⟨name, last'⟩ v v' _ rfl hv
    refine Follows.tree ?_
    dsimp only
    rw [hv.reflects.findType]
    cases v.tree.findType owner _ with
    | none => exact follows_failAtToken _ _ _
    | some found =>
      dsimp only [Option.map_some]
      rw [hv.reflects.resolved, (hv.tree.entity _).kind]
      refine Follows.ite (fun _ => follows_failAtToken_bind _ _ _) fun _ => ?_
      refine (follows_next hv).bind ?_
      intro t t' w w' _ ht hw
      rw [ht.is, ht.is]
      refine Follows.ite (fun _ => Follows.pure hw rfl) fun _ =>
        Follows.ite (fun _ => ?_) fun _ => follows_failAtToken _ _ _
      refine (ih hw).bind ?_
      rintro ids _ x x' _ rfl hx
      exact Follows.pure hx rfl

theorem follows_readExceptions (h : s.Mirrors M s') (owner : EntityId) :
    Follows M (readExceptions owner) (readExceptions (M.entity owner)) s s'
      fun ids ids' => ids' = ids.map M.entity := by
  unfold readExceptions
  refine (follows_next h).bind ?_
  intro t t' u u' _ ht hu
  rw [ht.is]
  dsimp only
  refine Follows.ite (fun _ => follows_failAtToken_bind _ _ _) fun _ => ?_
  refine (follows_peek 0 hu).bind ?_
  intro v v' w w' _ hv hw
  rw [hv.is]
  exact Follows.ite (fun _ => follows_failAtToken_bind _ _ _) fun _ =>
    Follows.tokensLeft hw fun n => follows_exceptionsWithin owner n hw

/-- Lists of exceptions with other numbers. -/
def Raises.renumber (f : EntityId → EntityId) (r : Raises) : Raises :=
  ⟨r.raises.map f, r.getRaises.map f, r.setRaises.map f⟩

theorem RaisesList.get_renumber (f : EntityId → EntityId) (l : RaisesList) (r : Raises) :
    l.get (r.renumber f) = (l.get r).map f := by
  cases l <;> rfl

theorem RaisesList.set_renumber (f : EntityId → EntityId) (l : RaisesList) (r : Raises)
    (ids : List EntityId) : l.set (r.renumber f) (ids.map f) = (l.set r ids).renumber f := by
  cases l <;> rfl

/-- Whether lists of exceptions up to a token stand for those up to another one. -/
def MirrorsRaises (M : Mirror) (r r' : Raises × Token) : Prop :=
  r'.1 = r.1.renumber M.entity ∧ r.2.Meets M r'.2

omit [M.Reading] in
theorem mirrors_ofToken? (kind : EntityKind) (readonly : Bool) {t t' : Token}
    (ht : t.Meets M t') :
    RaisesList.ofToken? kind readonly t' = RaisesList.ofToken? kind readonly t := by
  unfold RaisesList.ofToken?
  rw [ht.is, ht.is, ht.isOneOf, ht.text]

theorem follows_raisesWithin (owner : EntityId) (kind : EntityKind) (readonly : Bool) (n : Nat)
    (h : s.Mirrors M s') (r : Raises) {t t' : Token} (ht : t.Meets M t') :
    Follows M (raisesWithin owner kind readonly n r t)
      (raisesWithin (M.entity owner) kind readonly n (r.renumber M.entity) t') s s'
      (MirrorsRaises M) := by
  induction n generalizing s s' r t t' with
  | zero => exact follows_fail _ _
  | succ n ih =>
    unfold raisesWithin
    rw [mirrors_ofToken? kind readonly ht]
    cases RaisesList.ofToken? kind readonly t with
    | error cause => exact follows_failAtToken _ _ _
    | ok l? =>
      cases l? with
      | none => exact Follows.pure h ⟨rfl, ht⟩
      | some l =>
        dsimp only
        rw [RaisesList.get_renumber, List.isEmpty_map]
        refine Follows.ite (fun _ => follows_failAtToken_bind _ _ _) fun _ => ?_
        refine (follows_readExceptions h owner).bind ?_
        rintro ids _ u u' _ rfl hu
        refine (follows_next hu).bind ?_
        intro v v' w w' _ hv hw
        rw [RaisesList.set_renumber]
        exact ih hw _ hv

theorem follows_readRaises (h : s.Mirrors M s') (owner : EntityId) (kind : EntityKind)
    (readonly : Bool) {t t' : Token} (ht : t.Meets M t') :
    Follows M (readRaises owner kind readonly t) (readRaises (M.entity owner) kind readonly t')
      s s' (MirrorsRaises M) := by
  unfold readRaises
  exact Follows.ite
    (fun _ => Follows.tokensLeft h fun n => follows_raisesWithin owner kind readonly (n + 1) h {} ht)
    fun _ => Follows.pure h ⟨rfl, ht⟩

/-! ## Declarators -/

/-- Whether a declarator stands for another one. -/
structure Declarator.Mirrors (M : Mirror) (d d' : Declarator) : Prop where
  owner : d'.owner = M.entity d.owner
  kind : d'.kind = d.kind
  type : d'.type = d.type.renumber M.entity
  name : d.name.Meets M d'.name
  readonly : d'.readonly = d.readonly
  position : M.exact → d'.position = d.position

omit [M.Reading] in
theorem follows_declare (h : s.Mirrors M s') {d d' : Declarator} (hd : d.Sound s.tree)
    (hMirrors : d.Mirrors M d') {comments comments' : List Token}
    (hComments : M.exact → comments' = comments) :
    Follows M (Parsing.declare d comments) (Parsing.declare d' comments') s s'
      fun id id' => id' = M.entity id := by
  unfold Parsing.declare
  rw [hMirrors.type, hMirrors.kind, hMirrors.owner, hMirrors.readonly, hMirrors.name.text,
    DeclaredType.base_renumber]
  dsimp only
  refine Follows.ite (fun _ => follows_failAtToken_bind _ _ _) fun _ =>
    Follows.ite (fun _ => follows_failAtToken_bind _ _ _) fun _ => ?_
  refine Follows.declare h hd.owner.ready hd.kind ?_ ?_ hd.type (fun h => absurd h hd.entry)
    hd.name (fun hExact => by rw [hMirrors.name.exact hExact])
    (fun hExact => by rw [hMirrors.position hExact]) ?_
  · exact ⟨fun h => absurd h hd.member, fun h => absurd h hd.owner.kind⟩
  · exact ⟨fun _ => hd.member, fun _ => rfl⟩
  · intro id u u' hu _ _ _
    refine (follows_attachBefore hu id hComments).bind ?_
    exact fun _ _ v v' _ _ hv => Follows.pure hv rfl

/-- Whether the entity of a declaration and the token behind it stand for those of another
one. -/
def MirrorsDeclared (M : Mirror) (r r' : EntityId × Token) : Prop :=
  r'.1 = M.entity r.1 ∧ r.2.Meets M r'.2

/-- What follows the dimensions and the signature of a declaration. -/
theorem follows_behindDeclarator (d : Declarator) {u u' : Session} (id : EntityId)
    {dimensions dimensions' : List (List Token)} (parameters : List EntityId)
    (constOperation : Bool) {t t' : Token} (hu : u.Mirrors M u')
    (hLt : ∀ i ∈ parameters, i < u.tree.size)
    (hDimensions : List.Forall₂ M.Tokens dimensions dimensions') (ht : t.Meets M t') :
    Follows M (do
        let (r, t) ← readRaises d.owner d.kind d.readonly t
        let (assignment, t) ← readInitializer d.kind t
        modifyDeclaration id fun e =>
          { e with
            dimensions, parameters, constOperation, assignment
            raises := r.raises
            getRaises := r.getRaises
            setRaises := r.setRaises }
        attachAfter id t.position.line
        endAt id t
        return (id, t)) (do
        let (r, t) ← readRaises (M.entity d.owner) d.kind d.readonly t'
        let (assignment, t) ← readInitializer d.kind t
        modifyDeclaration (M.entity id) fun e =>
          { e with
            dimensions := dimensions', parameters := parameters.map M.entity, constOperation
            assignment
            raises := r.raises
            getRaises := r.getRaises
            setRaises := r.setRaises }
        attachAfter (M.entity id) t.position.line
        endAt (M.entity id) t
        return (M.entity id, t)) u u' (MirrorsDeclared M) := by
  refine (follows_readRaises hu d.owner d.kind d.readonly ht).bind_grows
    (grows_readRaises (R := Quiet) hu.sound _ _ _ _) ?_
  rintro ⟨r, t⟩ ⟨_, t'⟩ v v' hRaises hRaising ⟨rfl, ht⟩ hv
  refine (follows_readInitializer hv d.kind ht).bind_grows
    ((keeps_readInitializer d.kind t).grows (R := Quiet) hv.sound) ?_
  rintro ⟨assignment, t⟩ ⟨assignment', t'⟩ w w' hR - ⟨hAssignment, ht⟩ hw
  have hRaising' := hRaising.extends (hv.sound.extends hR)
  have hSize := (hu.sound.extends (hRaises.trans hR)).size
  refine Follows.bind (follows_complete hw (fun _ => rfl) (fun _ y hy => Or.inr (hRaising' y hy))
    (fun _ i hi => Or.inr (Nat.lt_of_lt_of_le (hLt i hi) hSize)) fun e e' he =>
      { he with
        dimensions := hDimensions, parameters := rfl, constOperation := rfl
        assignment := hAssignment, raises := rfl, getRaises := rfl, setRaises := rfl }) ?_
  intro _ _ x x' _ _ hx
  refine (follows_attachAfter hx id fun hExact =>
    congrArg (fun u : Token => u.position.line) (ht.exact hExact)).bind ?_
  intro _ _ y y' _ _ hy
  exact (follows_endAt hy id ht).bind fun _ _ z z' _ _ hz => Follows.pure hz ⟨rfl, ht⟩

theorem follows_readDeclarator (h : s.Mirrors M s') {d d' : Declarator} (hd : d.Sound s.tree)
    (hMirrors : d.Mirrors M d') {comments comments' : List Token}
    (hComments : M.exact → comments' = comments) :
    Follows M (readDeclarator d comments) (readDeclarator d' comments') s s'
      (MirrorsDeclared M) := by
  unfold readDeclarator
  rw [hMirrors.kind, hMirrors.owner, hMirrors.readonly]
  refine (follows_declare h hd hMirrors hComments).bind_grows (grows_declare h.sound hd comments) ?_
  rintro id _ u u' hR ⟨hIntroduces, -⟩ rfl hu
  by_cases hOperation : d.kind = .operation
  · have hReady : u.tree.Ready id :=
      ⟨hR.calm hd.owner.ready.calm, hIntroduces.named.1, hIntroduces.full⟩
    simp only [if_pos hOperation]
    have hSignature := hIntroduces.kind.trans hOperation
    refine (follows_readSignature hu hReady hSignature).bind_grows
      (grows_readSignature hu.sound hReady hSignature) ?_
    rintro ⟨parameters, constOperation, t⟩ ⟨parameters', constOperation', t'⟩ v v' - ⟨-, hLt⟩
      ⟨hParameters, hConst, ht⟩ hv
    dsimp only at hParameters hConst ht ⊢
    rw [hParameters, hConst]
    exact follows_behindDeclarator d id parameters constOperation hv hLt .nil ht
  · simp only [if_neg hOperation]
    refine (follows_readDimensions d.kind hu).bind ?_
    intro dimensions dimensions' v v' _ hDimensions hv
    refine (follows_next hv).bind ?_
    intro t t' w w' _ ht hw
    exact follows_behindDeclarator d id [] false hw (List.forall_mem_nil _) hDimensions ht

end Parsing

end IdlReader
