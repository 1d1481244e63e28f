import IdlReader.Grammar.Declarator
import IdlReader.Proofs.Grammar.DeclaredType

/-!
# Declarators and the tree

A declarator adds one entity and names it. Everything that is read behind the name completes
the declaration: parameters are entities of their own below an operation, and the lists of
exceptions hold exceptions.

* `Grows.declare`: adding an entity and naming it at once.
* `grows_readParameters`, `grows_readRaises`: the parts behind the name.
* `grows_readDeclarator`: the declarator as a whole.
-/

namespace IdlReader

open IdlReader.Tree

namespace Tree

/-- Whether an entity can be the parent of declarations other than parameters. -/
structure Owner (t : Tree) (id : EntityId) : Prop where
  ready : t.Ready id
  kind : (t.get id).kind ≠ .operation

variable {t t' : Tree}

theorem Owner.extends {id : EntityId} (h : t.Owner id) (hExtends : t.Extends t')
    (hCalm : t'.Calm) : t'.Owner id where
  ready := hExtends.ready hCalm h.ready
  kind := by
    rw [hExtends.kind id h.ready.lt]
    exact h.kind

/-- Whether the lists of exceptions hold exceptions. -/
def Raising (t : Tree) (r : Parsing.Raises) : Prop :=
  ∀ x ∈ r.raises ++ r.getRaises ++ r.setRaises, t.IsException x

theorem Raising.extends {r : Parsing.Raises} (h : t.Raising r) (hExtends : t.Extends t') :
    t'.Raising r := fun x hx => hExtends.isException (h x hx)

theorem raising_empty (t : Tree) : t.Raising {} := nofun

theorem raising_set {r : Parsing.Raises} (h : t.Raising r) (l : Parsing.RaisesList)
    {ids : List EntityId} (hIds : ∀ x ∈ ids, t.IsException x) : t.Raising (l.set r ids) := by
  intro x hx
  have hOld := h x
  simp only [List.mem_append] at hx hOld
  cases l with
  | raises =>
    rcases hx with (hx | hx) | hx
    · exact hIds x hx
    · exact hOld (Or.inl (Or.inr hx))
    · exact hOld (Or.inr hx)
  | getRaises =>
    rcases hx with (hx | hx) | hx
    · exact hOld (Or.inl (Or.inl hx))
    · exact hIds x hx
    · exact hOld (Or.inr hx)
  | setRaises =>
    rcases hx with (hx | hx) | hx
    · exact hOld (Or.inl (Or.inl hx))
    · exact hOld (Or.inl (Or.inr hx))
    · exact hIds x hx

end Tree

namespace Parsing

variable {α : Type} {R : Tree → Tree → Prop} [Growth R] {s : Session}

/-! ## Adding and naming -/

/-- A declaration that is named as soon as it is added. -/
theorem Grows.declare (hs : s.Sound) {owner : EntityId} {kind : EntityKind} {source : SourceId}
    {span : Span} {type : DeclaredType} {readonly : Bool} {direction : Option Direction}
    {name : String} {listed : Bool} {f : EntityId → Parsing α} {Q : α → Session → Prop}
    (hReady : s.tree.Ready owner) (hKind : kind.isDeclaration = true)
    (hParameter : kind = .parameter ↔ (s.tree.get owner).kind = .operation)
    (hListed : listed = true ↔ kind ≠ .parameter) (hType : s.tree.Declarable type)
    (hEntry : kind = .enumEntry →
      (s.tree.get owner).kind = .enum ∧ type.definition = some owner) (hName : IsName name)
    (hf : ∀ id s', s'.Sound → Calming s.tree s'.tree → Introduces s.tree s'.tree owner id kind →
      s'.tree.Pending id → Grows Calming (f id) s' Q) :
    Grows Calming (do
      let id ← addEntity owner kind source span (.declaration { type, readonly, direction })
      let id ← nameEntity id name false listed
      f id) s Q := by
  refine Grows.calming ?_
  refine (grows_addEntity hs hReady (.declaration hKind type readonly direction) hParameter
    ?_ ?_).bind ?_
  · intro d hd
    cases hd
    exact hType.refers
  · intro hEnumEntry
    obtain ⟨hEnum, hSelf⟩ := hEntry hEnumEntry
    refine ⟨hEnum, fun d hd => ?_⟩
    cases hd
    exact hSelf
  · rintro id s₁ hs₁ hSteps₁ ⟨hOpen, hAdd⟩
    obtain ⟨-, hId, -, -, -, hGet⟩ := add_eq_ok hAdd
    have hNew : (s₁.tree.get id).kind = kind := by rw [hGet, if_pos hId]
    have hParent : (s₁.tree.get id).parent = some owner := by rw [hGet, if_pos hId]
    have hPending : s₁.tree.Pending id :=
      pending_add hs.reachable.size_pos hSteps₁ rfl hType.lettered hAdd
    have hNoForward : false = true → (s₁.tree.get id).kind.isDefinition = true := nofun
    have hListed₁ : listed = true ↔ (s₁.tree.get id).kind ≠ .parameter := by
      rw [hNew]
      exact hListed
    refine (grows_nameEntity hs₁ hOpen hName hNoForward hListed₁).bind ?_
    rintro found s₂ hs₂ hSteps₂ ⟨⟨hCalm, -⟩, hSet⟩
    obtain ⟨rfl, hIntroduces⟩ := introduces_setName (adds_add hAdd) (Nat.le_of_eq hId.symm)
      hs₁.reachable hOpen hParent hName hSet
    rw [hNew] at hIntroduces
    refine (hf _ s₂ hs₂ ⟨hSteps₁.trans hSteps₂, fun _ => hCalm⟩ hIntroduces ?_).calmed hCalm
    exact hPending.adds hOpen.lt (adds_setName hOpen.lt hSet) hSteps₂

/-! ## Names, dimensions and assignments -/

theorem grows_declarationName (hs : s.Sound) :
    Grows R declarationName s fun t _ => IsName t.text := by
  unfold declarationName
  refine (grows_next hs).bind ?_
  intro t s₁ hs₁ _ ht
  refine Grows.get ?_
  split
  · rename_i hKeyword
    split
    · exact Grows.pure hs₁ (ht (by rw [Token.isWord, hKeyword, Bool.or_true]))
    · exact grows_failAtToken _ _
  · split
    · rename_i hIdentifier
      exact Grows.pure hs₁ (ht (by rw [Token.isWord, hIdentifier, Bool.true_or]))
    · exact grows_failAtToken _ _

theorem keeps_dimensionTokens (n depth : Nat) : Keeps (dimensionTokens n depth) := by
  induction n generalizing depth with
  | zero => exact keeps_fail _
  | succ n ih =>
    unfold dimensionTokens
    refine keeps_next.bind ?_
    intro t
    split
    · exact keeps_failAtToken _ _
    · split
      · exact keeps_failAtToken _ _
      · split
        · exact Keeps.pure _
        · exact (ih _).bind fun _ => Keeps.pure _

theorem keeps_dimensionsWithin (kind : EntityKind) (n : Nat) (further : Bool) :
    Keeps (dimensionsWithin kind n further) := by
  induction n generalizing further with
  | zero => exact keeps_fail _
  | succ n ih =>
    unfold dimensionsWithin
    refine (keeps_peek 0).bind ?_
    intro t
    split
    · exact Keeps.pure _
    · refine keeps_next.bind ?_
      intro opening
      refine keeps_get_bind ?_
      intro s
      split
      · exact keeps_failAtToken _ _
      · split
        · exact keeps_failAtToken _ _
        · refine keeps_tokensLeft_bind fun budget => ?_
          refine (keeps_dimensionTokens budget 0).bind ?_
          intro d
          exact (ih true).bind fun ds => Keeps.pure _

theorem keeps_readDimensions (kind : EntityKind) : Keeps (readDimensions kind) :=
  keeps_tokensLeft_bind fun n => keeps_dimensionsWithin kind n false

theorem grows_assignmentWithin (n depth : Nat) (hs : s.Sound) :
    Grows R (assignmentWithin n depth) s fun r _ => r.2.Lexical := by
  induction n generalizing depth s with
  | zero => exact grows_fail _
  | succ n ih =>
    unfold assignmentWithin
    refine (grows_next hs).bind ?_
    intro t s₁ hs₁ _ ht
    split
    · exact grows_failAtToken _ _
    · split
      · exact Grows.pure hs₁ ht
      · refine (ih _ hs₁).bind ?_
        rintro ⟨ts, terminator⟩ s₂ hs₂ _ hTerminator
        exact Grows.pure hs₂ hTerminator

theorem grows_readAssignment (hs : s.Sound) :
    Grows R readAssignment s fun r _ => r.2.Lexical :=
  Grows.tokensLeft fun n => grows_assignmentWithin n 0 hs

theorem keeps_readInitializer (kind : EntityKind) (t : Token) : Keeps (readInitializer kind t) := by
  unfold readInitializer
  split
  · split
    · exact fun s hs => (grows_readAssignment hs).mono fun _ _ _ _ _ => trivial
    · exact keeps_failAtToken _ _
  · split
    · exact keeps_failAtToken _ _
    · exact Keeps.pure _

/-! ## Parameters -/

/-- Completing a declaration with what holds exceptions only. -/
theorem grows_complete (hs : s.Sound) (id : EntityId) {f : Declaration → Declaration}
    (hf : ∀ d, Declaration.Completes d (f d))
    (hExceptions : ∀ d, ∀ x ∈ (f d).exceptions, x ∈ d.exceptions ∨ s.tree.IsException x)
    (hParameters : ∀ d, ∀ x ∈ (f d).parameters, x ∈ d.parameters ∨ x < s.tree.size) :
    Grows Calming (modifyDeclaration id f) s fun _ s' => Step s.tree s'.tree ∧
      s'.tree = s.tree.modify id (Entity.mapDeclaration f) := by
  have hStep : Step s.tree (s.tree.modify id (Entity.mapDeclaration f)) :=
    .complete hf hExceptions hParameters
  refine (grows_modifyDeclaration hs hStep).mono fun _ s' _ _ hTree => ⟨?_, hTree⟩
  rw [hTree]
  exact hStep

theorem grows_readParameter (hs : s.Sound) {operation : EntityId}
    (hReady : s.tree.Ready operation) (hKind : (s.tree.get operation).kind = .operation) :
    Grows Calming (readParameter operation) s fun id s' =>
      (Adds s.tree s'.tree fun i => i = id ∧ s'.tree.Parameter operation i) ∧
        id < s'.tree.size := by
  unfold readParameter
  refine (keeps_next.grows hs).bind ?_
  intro t s₁ hs₁ hR₁ hNoted₁
  split
  · exact grows_failAtToken _ _
  · refine (grows_readType hs₁ operation).noted.bind ?_
    rintro type s₂ hs₂ hR₂ ⟨hNoted₂, hType⟩
    refine (grows_declarationName hs₂).noted.bind ?_
    rintro name s₃ hs₃ hR₃ ⟨hNoted₃, hName⟩
    have hExtends := hs.extends (hR₁.trans (hR₂.trans hR₃))
    have hCalm := hR₃.calm (hR₂.calm (hR₁.calm hReady.calm))
    dsimp only
    split
    · exact grows_failAtToken_bind _ _
    · refine Grows.declare hs₃ (hExtends.ready hCalm hReady) rfl ?_ ?_
        (hs₂.declarable hR₃ hType) (fun h => absurd h (by decide)) hName ?_
      · rw [hExtends.kind operation hReady.lt]
        exact ⟨fun _ => hKind, fun _ => rfl⟩
      · exact ⟨nofun, fun h => absurd rfl h⟩
      · intro id s₄ hs₄ _ hIntroduces₄ hPending₄
        refine ((keeps_readDimensions _).grows hs₄).bind ?_
        intro dimensions s₅ hs₅ hR₅ hNoted₅
        have hIntroduces₅ := hIntroduces₄.noted hs₄.reachable.size_pos hNoted₅
        have hPending₅ := hPending₄.adds hIntroduces₄.named.1 hNoted₅.adds hR₅.steps
        have hCompletes (d : Declaration) : Declaration.Completes d { d with dimensions } := rfl
        refine (grows_complete hs₅ id hCompletes (fun _ _ hx => Or.inl hx)
          fun _ _ hx => Or.inl hx).bind ?_
        rintro _ s₆ hs₆ _ ⟨hStep, hTree⟩
        have hIntroduces₆ : Introduces s₃.tree s₆.tree operation id .parameter := by
          rw [hTree]
          exact hIntroduces₅.modify fun e => Entity.alike_mapDeclaration _ e
        have hPending₆ : s₆.tree.Pending id := by
          rw [hTree] at hStep ⊢
          exact hPending₅.complete hCompletes hStep
        refine Grows.pure hs₆ ⟨?_, hIntroduces₆.named.1⟩
        have hNoted : Noted s.tree s₃.tree := hNoted₁.trans (hNoted₂.trans hNoted₃)
        refine (hNoted.adds.trans hIntroduces₆.adds).mono fun i _ _ hi => ?_
        rcases hi with hFalse | rfl
        · exact hFalse.elim
        · exact ⟨rfl, hIntroduces₆.parent, hIntroduces₆.kind, hPending₆⟩

theorem grows_parametersWithin (n : Nat) (hs : s.Sound) {operation : EntityId}
    (hReady : s.tree.Ready operation) (hKind : (s.tree.get operation).kind = .operation) :
    Grows Calming (parametersWithin operation n) s fun ids s' =>
      (Adds s.tree s'.tree fun i => i ∈ ids ∧ s'.tree.Parameter operation i) ∧
        ∀ i ∈ ids, i < s'.tree.size := by
  induction n generalizing s with
  | zero => exact grows_fail _
  | succ n ih =>
    unfold parametersWithin
    refine (grows_readParameter hs hReady hKind).bind ?_
    rintro id s₁ hs₁ hR₁ ⟨hAdds₁, hLt₁⟩
    refine (keeps_next.grows hs₁).bind ?_
    intro t s₂ hs₂ hR₂ hNoted₂
    have hExtends := hs.extends (hR₁.trans hR₂)
    have hLt₂ := Nat.lt_of_lt_of_le hLt₁ hNoted₂.adds.size
    have hAdds₂ : Adds s.tree s₂.tree fun i => i = id ∧ s₂.tree.Parameter operation i := by
      refine (hAdds₁.trans hNoted₂.adds).mono fun i _ _ hi => ?_
      rcases hi with ⟨hEq, hParameter⟩ | hFalse
      · exact ⟨hEq, hParameter.adds (lt_size_of_parent hParameter.parent) hNoted₂.adds hR₂.steps⟩
      · exact hFalse.elim
    split
    · refine Grows.pure hs₂ ⟨hAdds₂.mono fun i _ _ hi => ?_, fun i hi => ?_⟩
      · exact ⟨List.mem_singleton.mpr hi.1, hi.2⟩
      · exact List.mem_singleton.mp hi ▸ hLt₂
    · split
      · refine (ih hs₂ (hExtends.ready (hR₂.calm (hR₁.calm hReady.calm)) hReady) ?_).bind ?_
        · rw [hExtends.kind operation hReady.lt]
          exact hKind
        · rintro ids s₃ hs₃ hR₃ ⟨hAdds₃, hLt₃⟩
          refine Grows.pure hs₃ ⟨(hAdds₂.trans hAdds₃).mono fun i _ _ hi => ?_, fun i hi => ?_⟩
          · rcases hi with ⟨hEq, hParameter⟩ | ⟨hMem, hParameter⟩
            · refine ⟨hEq ▸ List.mem_cons_self, ?_⟩
              exact hParameter.adds (lt_size_of_parent hParameter.parent) hAdds₃ hR₃.steps
            · exact ⟨List.mem_cons_of_mem _ hMem, hParameter⟩
          · rcases List.mem_cons.mp hi with rfl | hMem
            · exact Nat.lt_of_lt_of_le hLt₂ hAdds₃.size
            · exact hLt₃ i hMem
      · exact grows_failAtToken _ _

theorem grows_readParameters (hs : s.Sound) {operation : EntityId}
    (hReady : s.tree.Ready operation) (hKind : (s.tree.get operation).kind = .operation) :
    Grows Calming (readParameters operation) s fun ids s' =>
      (Adds s.tree s'.tree fun i => i ∈ ids ∧ s'.tree.Parameter operation i) ∧
        ∀ i ∈ ids, i < s'.tree.size := by
  unfold readParameters
  refine ((keeps_takeIf ")").grows hs).bind ?_
  intro closed s₁ hs₁ hR hNoted
  split
  · exact Grows.pure hs₁ ⟨hNoted.adds.mono fun _ _ _ hFalse => hFalse.elim,
      List.forall_mem_nil _⟩
  · have hExtends := hs.extends hR
    refine Grows.tokensLeft fun n => ?_
    refine (grows_parametersWithin n hs₁ (hExtends.ready (hR.calm hReady.calm) hReady) ?_).mono ?_
    · rw [hExtends.kind operation hReady.lt]
      exact hKind
    · rintro ids s₂ _ _ ⟨hAdds, hLt⟩
      refine ⟨(hNoted.adds.trans hAdds).mono fun _ _ _ hi => ?_, hLt⟩
      exact hi.elim False.elim fun hNew => hNew

theorem grows_readSignature (hs : s.Sound) {operation : EntityId}
    (hReady : s.tree.Ready operation) (hKind : (s.tree.get operation).kind = .operation) :
    Grows Calming (readSignature operation) s fun x s' =>
      (Adds s.tree s'.tree fun i => i ∈ x.1 ∧ s'.tree.Parameter operation i) ∧
        ∀ i ∈ x.1, i < s'.tree.size := by
  unfold readSignature
  refine ((keeps_expectMark _ _).grows hs).bind ?_
  intro _ s₁ hs₁ hR₁ hNoted₁
  have hExtends := hs.extends hR₁
  refine (grows_readParameters hs₁ (hExtends.ready (hR₁.calm hReady.calm) hReady) ?_).bind ?_
  · rw [hExtends.kind operation hReady.lt]
    exact hKind
  · rintro parameters s₂ hs₂ hR₂ ⟨hAdds₂, hLt₂⟩
    have hBehind : ∀ s₃ : Session, Noted s₂.tree s₃.tree → (Adds s.tree s₃.tree fun i =>
        i ∈ parameters ∧ s₃.tree.Parameter operation i) ∧ ∀ i ∈ parameters, i < s₃.tree.size := by
      intro s₃ hNoted₃
      refine ⟨?_, fun i hi => Nat.lt_of_lt_of_le (hLt₂ i hi) hNoted₃.adds.size⟩
      have hBefore := hNoted₁.adds.trans hAdds₂
      refine (hBefore.trans hNoted₃.adds).mono fun i _ _ hi => ?_
      rcases hi with (hFalse | ⟨hMem, hParameter⟩) | hFalse
      · exact hFalse.elim
      · exact ⟨hMem, hParameter.adds (lt_size_of_parent hParameter.parent) hNoted₃.adds
          hNoted₃.quiet.steps⟩
      · exact hFalse.elim
    refine (keeps_next.grows hs₂).bind ?_
    intro t s₃ hs₃ _ hNoted₃
    split
    · refine (keeps_next.grows hs₃).bind ?_
      intro u s₄ hs₄ _ hNoted₄
      exact Grows.pure hs₄ (hBehind s₄ (hNoted₃.trans hNoted₄))
    · exact Grows.pure hs₃ (hBehind s₃ hNoted₃)

/-! ## Exceptions -/

theorem grows_exceptionsWithin (owner : EntityId) (n : Nat) (hs : s.Sound) :
    Grows R (exceptionsWithin owner n) s fun ids s' => ∀ x ∈ ids, s'.tree.IsException x := by
  induction n generalizing s with
  | zero => exact grows_fail _
  | succ n ih =>
    unfold exceptionsWithin
    refine (keeps_next.grows hs).bind ?_
    intro first s₁ hs₁ _ _
    refine ((keeps_readScopedName first).grows hs₁).bind ?_
    rintro ⟨name, last⟩ s₂ hs₂ _ -
    refine Grows.tree ?_
    dsimp only
    split
    · exact grows_failAtToken _ _
    · rename_i found hFind
      split
      · exact grows_failAtToken_bind _ _
      · rename_i hKind
        have hFound := (wellFormed_of_reachable hs₂.reachable).findType_found hFind
        have hException : s₂.tree.IsException (s₂.tree.resolved found) :=
          ⟨(hs₂.reachable.found_resolved hFound).1, Decidable.not_not.mp hKind⟩
        refine (keeps_next.grows hs₂).bind ?_
        intro u s₃ hs₃ hR₃ _
        have hException₃ := (hs₂.extends hR₃).isException hException
        split
        · refine Grows.pure hs₃ ?_
          intro x hx
          rw [List.mem_singleton.mp hx]
          exact hException₃
        · split
          · refine (ih hs₃).bind ?_
            intro ids s₄ hs₄ hR₄ hIds
            refine Grows.pure hs₄ ?_
            intro x hx
            rcases List.mem_cons.mp hx with rfl | hx
            · exact (hs₃.extends hR₄).isException hException₃
            · exact hIds x hx
          · exact grows_failAtToken _ _

theorem grows_readExceptions (hs : s.Sound) (owner : EntityId) :
    Grows R (readExceptions owner) s fun ids s' => ∀ x ∈ ids, s'.tree.IsException x := by
  unfold readExceptions
  refine (keeps_next.grows hs).bind ?_
  intro t s₁ hs₁ _ _
  dsimp only
  split
  · exact grows_failAtToken_bind _ _
  · refine ((keeps_peek 0).grows hs₁).bind ?_
    intro u s₂ hs₂ _ _
    split
    · exact grows_failAtToken_bind _ _
    · exact Grows.tokensLeft fun n => grows_exceptionsWithin owner n hs₂

theorem grows_raisesWithin (owner : EntityId) (kind : EntityKind) (readonly : Bool) (n : Nat)
    (hs : s.Sound) {r : Raises} (hr : s.tree.Raising r) (t : Token) :
    Grows R (raisesWithin owner kind readonly n r t) s fun x s' => s'.tree.Raising x.1 := by
  induction n generalizing s r t with
  | zero => exact grows_fail _
  | succ n ih =>
    unfold raisesWithin
    split
    · exact grows_failAtToken _ _
    · exact Grows.pure hs hr
    · rename_i l _
      dsimp only
      split
      · exact grows_failAtToken_bind _ _
      · refine (grows_readExceptions hs owner).bind ?_
        intro ids s₁ hs₁ hR₁ hIds
        refine (keeps_next.grows hs₁).bind ?_
        intro u s₂ hs₂ hR₂ _
        have hExtends := hs₁.extends hR₂
        refine ih hs₂ (raising_set ?_ l ?_) u
        · exact (hr.extends (hs.extends hR₁)).extends hExtends
        · exact fun x hx => hExtends.isException (hIds x hx)

theorem grows_readRaises (hs : s.Sound) (owner : EntityId) (kind : EntityKind) (readonly : Bool)
    (t : Token) : Grows R (readRaises owner kind readonly t) s fun x s' => s'.tree.Raising x.1 := by
  unfold readRaises
  split
  · exact Grows.tokensLeft fun n =>
      grows_raisesWithin owner kind readonly (n + 1) hs (raising_empty _) t
  · exact Grows.pure hs (raising_empty _)

/-! ## Declarators -/

/-- An action after which everything new is a member. -/
theorem Grows.grown {o : EntityId} {x : Parsing α} {Q : α → Session → Prop}
    (h : Grows Calming x s fun a s' => Adds s.tree s'.tree (s'.tree.Fresh o) ∧ Q a s') :
    Grows (Grown o) x s Q := by
  intro a s' hx
  obtain ⟨hs', hCalming, hAdds, hQ⟩ := h a s' hx
  exact ⟨hs', ⟨hCalming.steps, hCalming.calm, hAdds⟩, hQ⟩

/-- Whether a declarator may be declared in a tree. -/
structure Declarator.Sound (d : Declarator) (t : Tree) : Prop where
  owner : t.Owner d.owner
  kind : d.kind.isDeclaration = true
  member : d.kind ≠ .parameter
  entry : d.kind ≠ .enumEntry
  belongs : d.kind.Belongs (t.get d.owner).kind
  type : t.Declarable d.type
  name : IsName d.name.text

theorem Declarator.Sound.steps {d : Declarator} {t t' : Tree} (h : d.Sound t)
    (hSteps : Steps t t') (hCalm : t.Calm → t'.Calm) : d.Sound t' := by
  have hPos := Nat.zero_lt_of_lt h.owner.ready.lt
  have hExtends := hSteps.extends hPos
  refine ⟨h.owner.extends hExtends (hCalm h.owner.ready.calm), h.kind, h.member, h.entry,
    ?_, h.type.steps hPos hSteps, h.name⟩
  rw [hExtends.kind d.owner h.owner.ready.lt]
  exact h.belongs

theorem grows_declare (hs : s.Sound) {d : Declarator} (hd : d.Sound s.tree)
    (comments : List Token) : Grows Calming (declare d comments) s fun id s' =>
      Introduces s.tree s'.tree d.owner id d.kind ∧ s'.tree.Pending id := by
  unfold declare
  dsimp only
  split
  · exact grows_failAtToken_bind _ _
  · split
    · exact grows_failAtToken_bind _ _
    · refine Grows.declare hs hd.owner.ready hd.kind ?_ ?_ hd.type (fun h => absurd h hd.entry)
        hd.name ?_
      · exact ⟨fun h => absurd h hd.member, fun h => absurd h hd.owner.kind⟩
      · exact ⟨fun _ => hd.member, fun _ => rfl⟩
      · intro id s₁ hs₁ _ hIntroduces hPending
        refine ((keeps_attachBefore id comments).grows hs₁).bind ?_
        intro _ s₂ hs₂ hR₂ hNoted
        refine Grows.pure hs₂ ⟨hIntroduces.noted hs₁.reachable.size_pos hNoted, ?_⟩
        exact hPending.adds hIntroduces.named.1 hNoted.adds hR₂.steps

theorem grows_readDeclarator (hs : s.Sound) {d : Declarator} (hd : d.Sound s.tree)
    (comments : List Token) : Grows (Grown d.owner) (readDeclarator d comments) s
      fun x _ => s.tree.size ≤ x.1 := by
  refine Grows.grown ?_
  unfold readDeclarator
  refine (grows_declare hs hd comments).bind ?_
  rintro id s₁ hs₁ hR₁ ⟨hIntroduces, hPending⟩
  refine Grows.ite_bind (P := fun _ s' => Noted s₁.tree s'.tree) (fun _ => ?_)
    (fun _ => (keeps_readDimensions _).grows hs₁) ?_
  · exact Grows.pure hs₁ .refl
  intro dimensions s₂ hs₂ hR₂ hNoted₂
  have hCalm₂ := hR₂.calm (hR₁.calm hd.owner.ready.calm)
  have hExtends₂ := hs₁.extends hR₂
  refine Grows.ite_bind_assoc (P := fun x s' => Declares s.tree s'.tree d.owner id d.kind x.1 ∧
    ∀ i ∈ x.1, i < s'.tree.size) (fun hOperation => ?_) (fun _ => ?_) ?_
  · have hReady : s₂.tree.Ready id :=
      hExtends₂.ready hCalm₂ ⟨hR₁.calm hd.owner.ready.calm, hIntroduces.named.1, hIntroduces.full⟩
    have hKind : (s₂.tree.get id).kind = .operation := by
      rw [hExtends₂.kind id hIntroduces.named.1, hIntroduces.kind, hOperation]
    refine (grows_readSignature hs₂ hReady hKind).mono ?_
    rintro x s₃ _ hR₃ ⟨hAdds, hLt⟩
    refine ⟨((Declares.of_introduces hIntroduces hPending).noted hNoted₂).trans ?_ hR₃.steps, hLt⟩
    exact hAdds.mono fun _ _ _ hi => ⟨hOperation, hi⟩
  · refine (keeps_next.grows hs₂).bind ?_
    intro t s₃ hs₃ _ hNoted₃
    exact Grows.pure hs₃ ⟨((Declares.of_introduces hIntroduces hPending).noted hNoted₂).noted
      hNoted₃, List.forall_mem_nil _⟩
  rintro ⟨parameters, constOperation, t⟩ s₃ hs₃ _ ⟨hDeclares₃, hLt₃⟩
  dsimp only at hDeclares₃ hLt₃
  refine (grows_readRaises hs₃ d.owner d.kind d.readonly t).noted.bind ?_
  rintro ⟨r, t⟩ s₄ hs₄ _ ⟨hNoted₄, hRaising⟩
  refine ((keeps_readInitializer d.kind t).grows hs₄).bind ?_
  rintro ⟨assignment, t⟩ s₅ hs₅ hR₅ hNoted₅
  have hRaising₅ := hRaising.extends (hs₄.extends hR₅)
  have hDeclares₅ := (hDeclares₃.noted hNoted₄).noted hNoted₅
  have hSize : s₃.tree.size ≤ s₅.tree.size := Nat.le_trans hNoted₄.adds.size hNoted₅.adds.size
  refine Grows.bind (grows_complete hs₅ id (fun _ => rfl)
    (fun _ y hy => Or.inr (hRaising₅ y hy))
    fun _ i hi => Or.inr (Nat.lt_of_lt_of_le (hLt₃ i hi) hSize)) ?_
  rintro _ s₆ hs₆ hR₆ ⟨hStep, hTree⟩
  refine ((keeps_attachAfter id t.position.line).grows hs₆).bind ?_
  intro _ s₇ hs₇ hR₇ hNoted₇
  refine ((keeps_endAt id t).grows hs₇).bind ?_
  intro _ s₈ hs₈ hR₈ hNoted₈
  refine Grows.pure hs₈ ?_
  have hNoted : Noted s₆.tree s₈.tree := hNoted₇.trans hNoted₈
  have hListed : s₆.tree.parameters id = parameters := by
    rw [hTree]
    refine parameters_complete hs₅.reachable hDeclares₅.lt ?_ fun _ => rfl
    rw [hDeclares₅.kind]
    exact hd.kind
  have hDeclares₆ : Declares s.tree s₆.tree d.owner id d.kind parameters := by
    rw [hTree] at hStep ⊢
    exact hDeclares₅.complete (fun _ => rfl) hStep
  have hListed₈ : s₈.tree.parameters id = parameters :=
    (hNoted.adds.parameters hDeclares₆.lt).trans hListed
  exact ⟨(hDeclares₆.noted hNoted).fresh hd.owner.ready.lt hd.member hd.belongs
    fun _ => hListed₈, hIntroduces.new⟩

/-- A member that is completed as soon as it was read. -/
theorem Grows.completed {o : EntityId} {x : Parsing EntityId} {f : Declaration → Declaration}
    (h : Grows (Grown o) x s fun id _ => s.tree.size ≤ id)
    (hf : ∀ d, Declaration.Completes d (f d)) (hParameters : ∀ d, (f d).parameters = d.parameters)
    (hExceptions : ∀ d, (f d).exceptions = d.exceptions) :
    Grows (Grown o) (x >>= fun id => modifyDeclaration id f) s fun _ _ => True := by
  intro _ s' hRun
  obtain ⟨id, s₁, hx, hModify⟩ := bind_eq_ok.mp hRun
  obtain ⟨hs₁, hGrown, hNew⟩ := h id s₁ hx
  obtain ⟨hs', -, hStep, hTree⟩ := grows_complete hs₁ id hf
    (fun d y hy => Or.inl (hExceptions d ▸ hy)) (fun d y hy => Or.inl (hParameters d ▸ hy)) _ s'
    hModify
  refine ⟨hs', ?_, trivial⟩
  rw [hTree] at hStep ⊢
  exact hGrown.complete hNew hf hParameters hStep

end Parsing

end IdlReader
