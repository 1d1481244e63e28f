import IdlReader.Proofs.Grammar.Case
import IdlReader.Proofs.Suited.Tree

/-!
# Declarators and what their kinds have

What is read behind the name of a declaration suits its kind: only some kinds have dimensions, only
operations have exceptions without an accessor, and only parameters have directions. A case gets its
label when it was read.

* `Grows.introduced`: a declaration is added and named.
* `fitsBut_readDeclarator`: a declarator.
* `fits_readCase`: a case with its label.
-/

namespace IdlReader

open IdlReader.Tree

namespace Parsing

variable {α : Type} {R : Tree → Tree → Prop} [Growth R] {s : Session}

/-! ## Adding and naming -/

omit [Growth R] in
/-- A declaration that was added and named. -/
theorem declaration?_introduced {s₁ s₂ : Session} {owner added id : EntityId} {kind : EntityKind}
    {source : SourceId} {span : Span} {d : Declaration} {name : String} {listed : Bool}
    (hAdd : addEntity owner kind source span (.declaration d) s = .ok added s₁)
    (hName : nameEntity added name false listed s₁ = .ok id s₂) :
    (s₂.tree.get id).declaration? = some d := by
  obtain ⟨-, hId, hSize, -, -, hGet⟩ := add_eq_ok (addEntity_eq_ok.mp hAdd).1
  have hSet := (nameEntity_eq_ok.mp hName).1
  have hLt : added < s₁.tree.size := by
    rw [hSize, hId]
    exact Nat.lt_succ_self _
  have hNaming := naming_of_setName hLt hSet
  have hFound : id = added := by cases hNaming <;> rfl
  rw [hFound, (adds_setName hLt hSet).declaration? added hLt, hGet, if_pos hId]
  rfl

/-- A declaration that is named as soon as it is added suits its kind. -/
theorem Grows.introduced (hs : s.Sound) {owner : EntityId} {kind : EntityKind} {source : SourceId}
    {span : Span} {type : DeclaredType} {readonly : Bool} {direction : Option Direction}
    {name : String} {listed : Bool} {f : EntityId → Parsing α} {Q : α → Session → Prop}
    (hReady : s.tree.Ready owner) (hKind : kind.isDeclaration = true)
    (hParameter : kind = .parameter ↔ (s.tree.get owner).kind = .operation)
    (hListed : listed = true ↔ kind ≠ .parameter) (hType : s.tree.Declarable type)
    (hEntry : kind = .enumEntry →
      (s.tree.get owner).kind = .enum ∧ type.definition = some owner) (hName : IsName name)
    (hSuits : Declaration.Suits kind { type, readonly, direction })
    (hStands : kind.StandsIn (s.tree.get owner).kind)
    (hf : ∀ id s', s'.Sound → Calming s.tree s'.tree → Introduces s.tree s'.tree owner id kind →
      s'.tree.Pending id → FitsBut id s.tree s'.tree → Grows Calming (f id) s' Q) :
    Grows Calming (do
      let id ← addEntity owner kind source span (.declaration { type, readonly, direction })
      let id ← nameEntity id name false listed
      f id) s Q := by
  intro a s' hRun
  obtain ⟨added, s₁, hAddRun, hRest⟩ := bind_eq_ok.mp hRun
  obtain ⟨id, s₂, hNameRun, hBehind⟩ := bind_eq_ok.mp hRest
  have hDeclared : Grows Calming
      (addEntity owner kind source span (.declaration { type, readonly, direction }) >>= fun id =>
        nameEntity id name false listed >>= Pure.pure) s fun id s' =>
          Introduces s.tree s'.tree owner id kind ∧ s'.tree.Pending id :=
    Grows.declare hs hReady hKind hParameter hListed hType hEntry hName
      fun id s' hs' _ hIntroduces hPending => Grows.pure hs' ⟨hIntroduces, hPending⟩
  obtain ⟨hs₂, hCalming, hIntroduces, hPending⟩ := hDeclared id s₂
    (bind_eq_ok.mpr ⟨added, s₁, hAddRun, bind_eq_ok.mpr ⟨id, s₂, hNameRun, rfl⟩⟩)
  have hBut : FitsBut id s.tree s₂.tree := fun hSuited =>
    hSuited.introduces hIntroduces (declaration?_introduced hAddRun hNameRun) hSuits rfl rfl
      hs₂.reachable hReady.lt hStands
  obtain ⟨hs', hCalming', hQ⟩ := hf id s₂ hs₂ hCalming hIntroduces hPending hBut a s' hBehind
  exact ⟨hs', hCalming.trans hCalming', hQ⟩

/-! ## Dimensions and exceptions -/

/-- What has no array dimensions gets none. -/
theorem grows_readDimensions_of_scalar (hs : s.Sound) {kind : EntityKind}
    (hKind : kind.supportsArrays = false) :
    Grows R (readDimensions kind) s fun dimensions _ => dimensions = [] := by
  refine Grows.tokensLeft fun n => ?_
  cases n with
  | zero => exact grows_fail _
  | succ n =>
    unfold dimensionsWithin
    refine ((keeps_peek 0).grows hs).bind ?_
    intro t s₁ hs₁ _ _
    split
    · exact Grows.pure hs₁ rfl
    · refine (keeps_next.grows hs₁).bind ?_
      intro opening s₂ hs₂ _ _
      refine Grows.get ?_
      rw [hKind]
      exact grows_failAtToken _ _

theorem grows_readDimensions (hs : s.Sound) (kind : EntityKind) :
    Grows R (readDimensions kind) s fun dimensions s' =>
      Noted s.tree s'.tree ∧ (kind.supportsArrays = false → dimensions = []) := by
  by_cases hKind : kind.supportsArrays = false
  · exact (grows_readDimensions_of_scalar hs hKind).noted.mono
      fun _ _ _ _ hQ => ⟨hQ.1, fun _ => hQ.2⟩
  · exact ((keeps_readDimensions kind).grows hs).mono
      fun _ _ _ _ hNoted => ⟨hNoted, fun hNot => absurd hNot hKind⟩

theorem ofToken?_attr {readonly : Bool} {t : Token} {l : RaisesList}
    (h : RaisesList.ofToken? .attr readonly t = .ok (some l)) : l ≠ .raises := by
  unfold RaisesList.ofToken? at h
  rintro rfl
  repeat' split at h
  all_goals contradiction

/-- Attributes have exceptions for each accessor only. -/
theorem grows_raisesWithin_attr (owner : EntityId) (readonly : Bool) (n : Nat) (hs : s.Sound)
    {r : Raises} (hr : r.raises = []) (t : Token) :
    Grows R (raisesWithin owner .attr readonly n r t) s fun x _ => x.1.raises = [] := by
  induction n generalizing s r t with
  | zero => exact grows_fail _
  | succ n ih =>
    unfold raisesWithin
    split
    · exact grows_failAtToken _ _
    · exact Grows.pure hs hr
    · rename_i l hList
      dsimp only
      split
      · exact grows_failAtToken_bind _ _
      · refine (grows_readExceptions hs owner).bind ?_
        intro ids s₁ hs₁ _ _
        refine (keeps_next.grows hs₁).bind ?_
        intro u s₂ hs₂ _ _
        refine ih hs₂ ?_ u
        cases l with
        | raises => exact absurd rfl (ofToken?_attr hList)
        | getRaises => exact hr
        | setRaises => exact hr

/-- Only operations have exceptions without an accessor. -/
theorem grows_readRaises_none (hs : s.Sound) (owner : EntityId) {kind : EntityKind}
    (hKind : kind ≠ .operation) (readonly : Bool) (t : Token) :
    Grows R (readRaises owner kind readonly t) s fun x _ => x.1.raises = [] := by
  unfold readRaises
  split
  · rename_i hEither
    rw [hEither.resolve_left hKind]
    exact Grows.tokensLeft fun n => grows_raisesWithin_attr owner readonly (n + 1) hs rfl t
  · exact Grows.pure hs rfl

/-! ## Parameters -/

omit [Growth R] in
/-- An action that leaves names to all entities and keeps declarations as their kinds have them. -/
theorem Grows.fits {x : Parsing α} {Q : α → Session → Prop}
    (h : Grows Calming x s fun a s' => (s.tree.Suited none → s'.tree.Suited none) ∧ Q a s') :
    Grows Tree.Fits x s Q := by
  intro a s' hRun
  obtain ⟨hs', hCalming, hSuited, hQ⟩ := h a s' hRun
  exact ⟨hs', ⟨hCalming, hSuited⟩, hQ⟩

theorem fits_readParameter (hs : s.Sound) {operation : EntityId}
    (hReady : s.tree.Ready operation) (hKind : (s.tree.get operation).kind = .operation) :
    Grows Tree.Fits (readParameter operation) s fun id s' => s'.tree.ParameterOf operation id := by
  refine Grows.fits ?_
  unfold readParameter
  refine (keeps_next.grows hs).bind ?_
  intro t s₁ hs₁ hR₁ hNoted₁
  split
  · exact grows_failAtToken _ _
  · refine (grows_readType hs₁ operation).noted.bind ?_
    rintro type s₂ hs₂ hR₂ ⟨hNoted₂, hType⟩
    refine (grows_declarationName hs₂).noted.bind ?_
    rintro name s₃ hs₃ hR₃ ⟨hNoted₃, hName⟩
    have hNoted : Noted s.tree s₃.tree := hNoted₁.trans (hNoted₂.trans hNoted₃)
    have hExtends := hs.extends hNoted
    have hCalm := hNoted.quiet.calm hReady.calm
    dsimp only
    split
    · exact grows_failAtToken_bind _ _
    · refine Grows.introduced hs₃ (hExtends.ready hCalm hReady) rfl ?_ ?_
        (hs₂.declarable hR₃ hType) (fun h => absurd h (by decide)) hName ?_ ?_ ?_
      · rw [hExtends.kind operation hReady.lt]
        exact ⟨fun _ => hKind, fun _ => rfl⟩
      · exact iff_of_false Bool.false_ne_true fun h => absurd rfl h
      · exact ⟨fun _ => iff_of_false Bool.false_ne_true (by decide), iff_of_true rfl rfl,
          fun _ => rfl, fun _ => rfl, fun _ => ⟨rfl, rfl⟩⟩
      · rw [hExtends.kind operation hReady.lt, hKind]
        exact EntityKind.standsIn_of_ne (by decide) (by decide)
      · intro id s₄ hs₄ _ hIntroduces₄ _ hBut₄
        refine (grows_readDimensions hs₄ _).bind ?_
        rintro dimensions s₅ hs₅ hR₅ ⟨hNoted₅, -⟩
        have hParameter : s₅.tree.ParameterOf operation id :=
          ParameterOf.extends ⟨hIntroduces₄.parent, hIntroduces₄.kind⟩ (hs₄.extends hNoted₅)
        have hCompletes (d : Declaration) : Declaration.Completes d { d with dimensions } := rfl
        refine (grows_complete hs₅ id hCompletes (fun _ _ hx => Or.inl hx)
          fun _ _ hx => Or.inl hx).bind ?_
        rintro _ s₆ hs₆ hR₆ ⟨-, hTree⟩
        have hBut₅ := (hBut₄.after hNoted.fits).noted hNoted₅
        have hNotCase : (s₅.tree.get id).kind ≠ .caseEntry := by
          rw [hParameter.2]
          decide
        refine Grows.pure hs₆ ⟨fun hSuited => ?_, hParameter.extends (hs₅.extends hR₆)⟩
        rw [hTree]
        refine ((suited_iff hNotCase).mp (hBut₅ hSuited)).modify (fun d hd => ?_)
          (fun _ hCase => absurd hCase hNotCase) (fun _ _ => Iff.rfl) fun _ _ hp => Or.inl hp
        rw [hParameter.2] at hd ⊢
        exact ⟨hd.readonly, hd.direction, fun hNot => absurd hNot (by decide), hd.raises, hd.labels⟩

theorem fits_parametersWithin (n : Nat) (hs : s.Sound) {operation : EntityId}
    (hReady : s.tree.Ready operation) (hKind : (s.tree.get operation).kind = .operation) :
    Grows Tree.Fits (parametersWithin operation n) s fun ids s' =>
      ∀ p ∈ ids, s'.tree.ParameterOf operation p := by
  induction n generalizing s with
  | zero => exact grows_fail _
  | succ n ih =>
    unfold parametersWithin
    refine (fits_readParameter hs hReady hKind).bind ?_
    intro id s₁ hs₁ hR₁ hParameter₁
    refine (keeps_next.grows hs₁).bind ?_
    intro t s₂ hs₂ hR₂ _
    have hParameter₂ := hParameter₁.extends (hs₁.extends hR₂)
    have hR := hR₁.trans hR₂
    have hExtends := hs.extends hR
    split
    · exact Grows.pure hs₂ fun p hp => List.mem_singleton.mp hp ▸ hParameter₂
    · split
      · refine (ih hs₂ (hExtends.ready (hR.calm hReady.calm) hReady) ?_).bind ?_
        · rw [hExtends.kind operation hReady.lt]
          exact hKind
        · intro ids s₃ hs₃ hR₃ hIds
          exact Grows.pure hs₃ (List.forall_mem_cons.mpr
            ⟨hParameter₂.extends (hs₂.extends hR₃), hIds⟩)
      · exact grows_failAtToken _ _

theorem fits_readParameters (hs : s.Sound) {operation : EntityId}
    (hReady : s.tree.Ready operation) (hKind : (s.tree.get operation).kind = .operation) :
    Grows Tree.Fits (readParameters operation) s fun ids s' =>
      ∀ p ∈ ids, s'.tree.ParameterOf operation p := by
  unfold readParameters
  refine ((keeps_takeIf ")").grows hs).bind ?_
  intro closed s₁ hs₁ hR _
  split
  · exact Grows.pure hs₁ (List.forall_mem_nil _)
  · have hExtends := hs.extends hR
    refine Grows.tokensLeft fun n => fits_parametersWithin n hs₁
      (hExtends.ready (hR.calm hReady.calm) hReady) ?_
    rw [hExtends.kind operation hReady.lt]
    exact hKind

theorem fits_readSignature (hs : s.Sound) {operation : EntityId}
    (hReady : s.tree.Ready operation) (hKind : (s.tree.get operation).kind = .operation) :
    Grows Tree.Fits (readSignature operation) s fun x s' =>
      ∀ p ∈ x.1, s'.tree.ParameterOf operation p := by
  unfold readSignature
  refine ((keeps_expectMark _ _).grows hs).bind ?_
  intro _ s₁ hs₁ hR₁ _
  have hExtends := hs.extends hR₁
  refine (fits_readParameters hs₁ (hExtends.ready (hR₁.calm hReady.calm) hReady) ?_).bind ?_
  · rw [hExtends.kind operation hReady.lt]
    exact hKind
  · intro parameters s₂ hs₂ _ hParameters
    refine (keeps_next.grows hs₂).bind ?_
    intro t s₃ hs₃ hR₃ _
    have hParameters₃ := fun p hp => (hParameters p hp).extends (hs₂.extends hR₃)
    split
    · refine (keeps_next.grows hs₃).bind ?_
      intro u s₄ hs₄ hR₄ _
      exact Grows.pure hs₄ fun p hp => (hParameters₃ p hp).extends (hs₃.extends hR₄)
    · exact Grows.pure hs₃ hParameters₃

/-! ## Declarators -/

/-- Whether a declarator is marked as readonly if its kind demands it. -/
def Declarator.Marked (d : Declarator) : Prop := d.kind ≠ .attr → (d.readonly = true ↔ d.kind = .const)

theorem fitsBut_declare (hs : s.Sound) {d : Declarator} (hd : d.Sound s.tree) (hMarked : d.Marked)
    (hStands : d.kind.StandsIn (s.tree.get d.owner).kind) (comments : List Token) :
    Grows Calming (declare d comments) s fun id s' => Introduces s.tree s'.tree d.owner id d.kind ∧ FitsBut id s.tree s'.tree := by
  unfold declare
  dsimp only
  split
  · exact grows_failAtToken_bind _ _
  · split
    · exact grows_failAtToken_bind _ _
    · refine Grows.introduced hs hd.owner.ready hd.kind ?_ ?_ hd.type (fun h => absurd h hd.entry)
        hd.name ?_ hStands ?_
      · exact ⟨fun h => absurd h hd.member, fun h => absurd h hd.owner.kind⟩
      · exact ⟨fun _ => hd.member, fun _ => rfl⟩
      · exact ⟨hMarked, iff_of_false Bool.false_ne_true hd.member, fun _ => rfl, fun _ => rfl,
          fun _ => ⟨rfl, rfl⟩⟩
      · intro id s₁ hs₁ _ hIntroduces _ hBut
        refine ((keeps_attachBefore id comments).grows hs₁).bind ?_
        intro _ s₂ hs₂ _ hNoted
        exact Grows.pure hs₂ ⟨hIntroduces.noted hs₁.reachable.size_pos hNoted, hBut.noted hNoted⟩

/-- A declarator suits its kind, but for the label of a case. -/
theorem fitsBut_readDeclarator (hs : s.Sound) {d : Declarator} (hd : d.Sound s.tree)
    (hMarked : d.Marked) (hStands : d.kind.StandsIn (s.tree.get d.owner).kind)
    (comments : List Token) :
    Grows Calming (readDeclarator d comments) s fun r s' =>
      (s'.tree.get r.1).kind = d.kind ∧ FitsBut r.1 s.tree s'.tree := by
  unfold readDeclarator
  refine (fitsBut_declare hs hd hMarked hStands comments).bind ?_
  rintro id s₁ hs₁ hR₁ ⟨hIntroduces, hBut₁⟩
  refine Grows.ite_bind (P := fun dimensions s' => Noted s₁.tree s'.tree ∧
    (d.kind.supportsArrays = false → dimensions = [])) (fun _ => ?_)
    (fun _ => grows_readDimensions hs₁ _) ?_
  · exact Grows.pure hs₁ ⟨.refl, fun _ => rfl⟩
  rintro dimensions s₂ hs₂ hR₂ ⟨hNoted₂, hDimensions⟩
  have hCalm₂ := hR₂.calm (hR₁.calm hd.owner.ready.calm)
  have hExtends₂ := hs₁.extends hR₂
  refine Grows.ite_bind_assoc (P := fun x s' => Calming s₂.tree s'.tree ∧
    (s₂.tree.Suited (some id) → s'.tree.Suited (some id)) ∧ ∀ p ∈ x.1, s'.tree.ParameterOf id p)
    (fun hOperation => ?_) (fun _ => ?_) ?_
  · have hReady : s₂.tree.Ready id :=
      hExtends₂.ready hCalm₂ ⟨hR₁.calm hd.owner.ready.calm, hIntroduces.named.1, hIntroduces.full⟩
    have hKind : (s₂.tree.get id).kind = .operation := by
      rw [hExtends₂.kind id hIntroduces.named.1, hIntroduces.kind, hOperation]
    refine ((fits_readSignature hs₂ hReady hKind).within Tree.Fits.toCalming).mono ?_
    rintro x s₃ _ hR₃ ⟨hFits₃, hParameters₃⟩
    refine ⟨hR₃, fun hSuited => ?_, hParameters₃⟩
    have hNotCase : (s₂.tree.get id).kind ≠ .caseEntry := by
      rw [hKind]
      decide
    refine (suited_iff ?_).mpr (hFits₃.suited ((suited_iff hNotCase).mp hSuited))
    rw [(hs₂.extends hR₃).kind id hReady.lt]
    exact hNotCase
  · refine (keeps_next.grows hs₂).bind ?_
    intro t s₃ hs₃ hR₃ hNoted₃
    exact Grows.pure hs₃ ⟨hR₃, fun hSuited => hSuited.noted hNoted₃, List.forall_mem_nil _⟩
  rintro ⟨parameters, constOperation, t⟩ s₃ hs₃ _ ⟨hR₃, hSuited₃, hParameters₃⟩
  dsimp only at hParameters₃
  have hRaises : Grows Noted (readRaises d.owner d.kind d.readonly t) s₃ fun x s' =>
      s'.tree.Raising x.1 ∧ (d.kind ≠ .operation → x.1.raises = []) := by
    by_cases hOperation : d.kind = .operation
    · exact (grows_readRaises hs₃ _ _ _ t).mono
        fun _ _ _ _ hQ => ⟨hQ, fun hNot => absurd hOperation hNot⟩
    · exact ((grows_readRaises hs₃ _ _ _ t).and (grows_readRaises_none (R := Noted) hs₃ d.owner
        hOperation d.readonly t)).mono fun _ _ _ _ hQ => ⟨hQ.1, fun _ => hQ.2⟩
  refine hRaises.noted.bind ?_
  rintro ⟨r, t⟩ s₄ hs₄ _ ⟨hNoted₄, hRaising, hNone⟩
  dsimp only at hNone
  refine ((keeps_readInitializer d.kind t).grows hs₄).bind ?_
  rintro ⟨assignment, t⟩ s₅ hs₅ hR₅ hNoted₅
  have hNoted : Noted s₃.tree s₅.tree := hNoted₄.trans hNoted₅
  have hRaising₅ := hRaising.extends (hs₄.extends hR₅)
  have hParameters₅ := fun p hp => (hParameters₃ p hp).extends (hs₃.extends hNoted)
  have hExtends₅ := hs₁.extends (hR₂.trans (hR₃.trans hNoted.fits.toCalming))
  have hLt₅ : id < s₅.tree.size := Nat.lt_of_lt_of_le hIntroduces.named.1 hExtends₅.size
  have hKind₅ : (s₅.tree.get id).kind = d.kind :=
    (hExtends₅.kind id hIntroduces.named.1).trans hIntroduces.kind
  refine Grows.bind (grows_complete hs₅ id (fun _ => rfl)
    (fun _ y hy => Or.inr (hRaising₅ y hy))
    fun _ i hi => Or.inr (lt_size_of_parent (hParameters₅ i hi).1)) ?_
  rintro _ s₆ hs₆ hR₆ ⟨-, hTree⟩
  have hBut₆ : FitsBut id s.tree s₆.tree := by
    intro hSuited
    rw [hTree]
    have hSuited₅ := (hSuited₃ ((hBut₁ hSuited).noted hNoted₂)).noted hNoted
    refine hSuited₅.modify (fun e he => ?_) (fun _ _ hLabelled hWaiting => ⟨hLabelled, hWaiting⟩)
      (fun _ _ => Iff.rfl) fun _ p hp => Or.inr (hParameters₅ p hp)
    rw [hKind₅] at he ⊢
    exact ⟨he.readonly, he.direction, hDimensions, hNone, he.labels⟩
  have hExtends₆ := hs₅.extends hR₆
  have hKind₆ := (hExtends₆.kind id hLt₅).trans hKind₅
  refine ((keeps_attachAfter id t.position.line).grows hs₆).bind ?_
  intro _ s₇ hs₇ _ hNoted₇
  refine ((keeps_endAt id t).grows hs₇).bind ?_
  intro _ s₈ hs₈ _ hNoted₈
  have hNoted₆ : Noted s₆.tree s₈.tree := hNoted₇.trans hNoted₈
  have hLt₆ := Nat.lt_of_lt_of_le hLt₅ hExtends₆.size
  exact Grows.pure hs₈ ⟨(hNoted₆.adds.kind id hLt₆).trans hKind₆, hBut₆.noted hNoted₆⟩

/-! ## Cases -/

theorem fitsBut_declareLabel (hs : s.Sound) {owner : EntityId} (hOwner : s.tree.Owner owner)
    (label : Token) (comments : List Token) :
    Grows Calming (declareLabel owner label comments) s fun id s' =>
      (s'.tree.get id).kind = .caseEntry ∧ FitsBut id s.tree s'.tree := by
  refine (introduces_declareLabel hs hOwner label comments).mono ?_
  rintro id s' hs' _ ⟨hIntroduces, -, hd⟩
  refine ⟨hIntroduces.kind, fun hSuited => ?_⟩
  refine hSuited.introduces hIntroduces hd ?_ rfl rfl hs'.reachable hOwner.ready.lt
    (EntityKind.standsIn_caseEntry _)
  exact ⟨fun _ => iff_of_false Bool.false_ne_true (by decide),
    iff_of_false Bool.false_ne_true (by decide), fun _ => rfl, fun _ => rfl, fun _ => ⟨rfl, rfl⟩⟩

theorem fitsBut_readLabelled (hs : s.Sound) {owner : EntityId} (hOwner : s.tree.Owner owner)
    (hUnion : (s.tree.get owner).kind = .union) (label : Token) (comments : List Token) :
    Grows Calming (readLabelled owner label comments) s fun id s' =>
      (s'.tree.get id).kind = .caseEntry ∧ FitsBut id s.tree s'.tree := by
  unfold readLabelled
  refine (grows_readType hs owner).noted.bind ?_
  rintro type s₁ hs₁ hR₁ ⟨hNoted₁, hType⟩
  refine (grows_declarationName hs₁).noted.bind ?_
  rintro name s₂ hs₂ hR₂ ⟨hNoted₂, hName⟩
  have hNoted : Noted s.tree s₂.tree := hNoted₁.trans hNoted₂
  have hExtends := hs.extends hNoted
  have hOwner₂ : s₂.tree.Owner owner :=
    hOwner.extends hExtends (hNoted.quiet.calm hOwner.ready.calm)
  have hUnion₂ := (hExtends.kind owner hOwner.ready.lt).trans hUnion
  have hMember : EntityKind.caseEntry ≠ .parameter := by decide
  have hEntry : EntityKind.caseEntry ≠ .enumEntry := by decide
  have hNotConst : EntityKind.caseEntry ≠ .const := by decide
  refine (fitsBut_readDeclarator hs₂ ⟨hOwner₂, rfl, hMember, hEntry, belongs_case hUnion₂,
    hs₁.declarable hR₂ hType, hName⟩
    (fun _ => iff_of_false Bool.false_ne_true hNotConst) (EntityKind.standsIn_caseEntry _)
    comments).bind ?_
  rintro ⟨id, t⟩ s₃ hs₃ _ ⟨hKind, hBut⟩
  dsimp only at hKind hBut ⊢
  split
  · exact Grows.pure hs₃ ⟨hKind, hBut.after hNoted.fits⟩
  · exact grows_failAtToken _ _

/-- A case gets its label when it was read. -/
theorem fits_readCase (hs : s.Sound) {owner : EntityId} (hOwner : s.tree.Owner owner)
    (hUnion : (s.tree.get owner).kind = .union) (label : Token) (comments : List Token) :
    Grows Tree.Fits (readCase owner label comments) s fun _ _ => True := by
  unfold readCase
  refine ((keeps_readLabel label).grows hs).bind ?_
  intro tokens s₁ hs₁ hR₁ _
  refine ((keeps_peek 0).grows hs₁).bind ?_
  intro t s₂ hs₂ hR₂ _
  refine ((keeps_definesNext t).grows hs₂).bind ?_
  intro defines s₃ hs₃ hR₃ _
  have hR := hR₁.trans (hR₂.trans hR₃)
  have hExtends := hs.extends hR
  have hOwner₃ := hOwner.extends hExtends (hR.calm hOwner.ready.calm)
  have hUnion₃ := (hExtends.kind owner hOwner.ready.lt).trans hUnion
  dsimp only
  split
  · exact grows_failAtToken_bind _ _
  · have hLabel : ∀ {x : Parsing EntityId}, Grows Calming x s₃ (fun id s' =>
        (s'.tree.get id).kind = .caseEntry ∧ FitsBut id s₃.tree s'.tree) →
        Grows Tree.Fits (x >>= fun id => modifyDeclaration id fun d =>
          { d with
            defaultCase := label.is "default"
            labels := if label.is "default" then d.labels else [tokens] }) s₃ fun _ _ => True := by
      intro x hx
      have hCompletes (d : Declaration) : Declaration.Completes d
          { d with
            defaultCase := label.is "default"
            labels := if label.is "default" then d.labels else [tokens] } := rfl
      refine Grows.fits (hx.bind ?_)
      rintro id s₄ hs₄ _ ⟨hKind, hBut⟩
      refine (grows_complete hs₄ id hCompletes (fun _ _ hx => Or.inl hx)
        fun _ _ hx => Or.inl hx).mono ?_
      rintro _ s₅ _ _ ⟨-, hTree⟩
      refine ⟨fun hSuited => ?_, trivial⟩
      rw [hTree]
      refine (hBut hSuited).modify (fun d hd => ?_)
        (fun d _ _ hWaiting => ⟨fun _ => ?_, fun hNone => absurd hNone.symm (Option.some_ne_none id)⟩)
        (fun i hi => iff_of_false (Option.some_ne_none i).symm
          fun hId => hi (Option.some.inj hId).symm) fun _ _ hp => Or.inl hp
      · rw [hKind] at hd ⊢
        exact ⟨hd.readonly, hd.direction, hd.dimensions, hd.raises, fun hNot => absurd rfl hNot⟩
      · cases hDefault : label.is "default" with
        | true => exact Or.inl ⟨hWaiting rfl, rfl⟩
        | false => exact Or.inr ⟨tokens, rfl, rfl⟩
    split
    · exact hLabel (fitsBut_declareLabel hs₃ hOwner₃ label comments)
    · exact hLabel (fitsBut_readLabelled hs₃ hOwner₃ hUnion₃ label comments)

end Parsing

end IdlReader
