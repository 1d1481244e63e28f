import IdlReader.Proofs.Grammar.OnDemand

/-!
# Reading modules of constants

Where the tokens of a module of constants come next and nothing else, all of it is read and
evaluated, or its constants cannot be evaluated in an order.

* `ends_constants`: the constants of a module.
* `ends_readModule`: its statement.
* `ends_readRoot`: everything.
-/

namespace IdlReader

open IdlReader.Tree

/-- Whether a module was written with certain constants. -/
structure PlacedModule.Places {env : Environment} (p : PlacedModule env) (m : WrittenModule env) :
    Prop where
  name : p.name = m.name.text
  constants : p.placed.map PlacedConstant.constant = m.constants

theorem PlacedModule.Places.body {env : Environment} {p : PlacedModule env}
    {m : WrittenModule env} (h : p.Places m) : p.body = m.body := by
  unfold PlacedModule.body WrittenModule.body
  rw [← h.constants, List.map_map]
  rfl

namespace Parsing

variable {env : Environment} {m : WrittenModule env} {ts : List Token} {s : Session}
  {E : Fault → Prop} {I : Tree → Prop}

/-! ## The content of a module -/

/-- Constants are read one after the other, and evaluated behind the last one. -/
theorem ends_constants {owner : EntityId} {cs : List (WrittenConstant env)}
    {ps : List (PlacedConstant env)} (hSplit : ps.map PlacedConstant.constant ++ cs = m.constants)
    (hNames : ∀ c ∈ m.constants, ∀ t ∈ c.expression.operands, IsName t.text)
    (hOwner : owner ≠ root) {n : Nat} (hBudget : cs.length < n)
    (h : s.Awaits env (cs.flatMap WrittenConstant.tokens ++ m.closing :: ts)
      (InModule env owner m.name.text (ps.map (·.member {})))) :
    Ends (contentWithin n owner) s (fun _ s' => ∃ (p : PlacedModule env) (a : Agenda),
      p.owner = owner ∧ p.Places m ∧ s'.Completes p (m.closing :: ts) a)
      (Assigned.Refuted env.fold m.body) := by
  induction cs generalizing ps s n with
  | nil =>
    obtain ⟨n, rfl⟩ : ∃ k, n = k + 1 := ⟨n - 1, by simp at hBudget; omega⟩
    rw [List.append_nil] at hSplit
    have hMem : ∀ x ∈ ps, x.constant ∈ m.constants := fun x hx =>
      hSplit ▸ List.mem_map.mpr ⟨x, hx, rfl⟩
    have hDistinct := m.distinct
    rw [← hSplit, List.map_map] at hDistinct
    let p : PlacedModule env :=
      { owner, name := m.name.text, placed := ps
        distinct := hDistinct
        names := fun x hx => hNames x.constant (hMem x hx)
        closed := by
          intro x hx t ht
          obtain ⟨b, hb, hKey⟩ := m.closed x.constant (hMem x hx) t ht
          rw [← hSplit] at hb
          obtain ⟨y, hy, rfl⟩ := List.mem_map.mp hb
          exact ⟨y, hy, hKey⟩ }
    have hPlaces : p.Places m := ⟨rfl, hSplit⟩
    unfold contentWithin
    refine (ends_peek h Holds.lasting rfl).bind ?_
    rintro t s₁ ⟨rfl, h₁⟩
    rw [if_neg (by rw [Token.not_isFinish_of_is m.hClosing]; decide), if_pos m.hClosing,
      if_neg hOwner]
    have hMembers := ends_evaluateMembers (m := p) (a := {}) ⟨h₁, .empty _ _⟩ rfl
    rw [PlacedModule.Refuses, hPlaces.body] at hMembers
    exact hMembers.mono fun _ _ ⟨a, hCompletes⟩ => ⟨p, a, rfl, hPlaces, hCompletes⟩
  | cons c cs ih =>
    obtain ⟨n, rfl⟩ : ∃ k, n = k + 1 := ⟨n - 1, by simp at hBudget; omega⟩
    have hMem : c ∈ m.constants := hSplit ▸ List.mem_append_right _ List.mem_cons_self
    have hNew : ∀ x ∈ ps.map (·.member {}), env.fold x.name ≠ env.fold c.name.text := by
      intro x hx hKey
      obtain ⟨y, hy, rfl⟩ := List.mem_map.mp hx
      have hDistinct := m.distinct
      rw [← hSplit, List.map_append, List.nodup_append] at hDistinct
      refine hDistinct.2.2 y.key ?_ c.assigned.key List.mem_cons_self hKey
      exact List.mem_map.mpr ⟨_, List.mem_map.mpr ⟨y, hy, rfl⟩, rfl⟩
    rw [List.flatMap_cons, List.append_assoc] at h
    unfold contentWithin
    refine (ends_peek (t := c.keyword) h Holds.lasting rfl).bind ?_
    rintro t s₁ ⟨rfl, h₁⟩
    rw [if_neg (by rw [Token.not_isFinish_of_is c.hKeyword]; decide),
      if_neg (by rw [Token.not_is_of_is c.hKeyword (by decide)]; decide)]
    have hAllowed : (c.statement (hNames c hMem)).Allowed := Or.inl (Nat.zero_le 1)
    refine (ends_readConstant (c.statement (hNames c hMem)) (fun _ hNot => absurd hAllowed hNot)
      (InModule.accepts hNew) h₁).bind ?_
    rintro _ s₂ ⟨-, id, h₂⟩
    have hPlaced : (ps ++ [(⟨c, id⟩ : PlacedConstant env)]).map PlacedConstant.constant ++ cs =
        m.constants := by
      rw [← hSplit]
      simp
    refine ih hPlaced (by simpa using hBudget) ?_
    rw [List.map_append]
    exact h₂

/-! ## The statement of a module -/

/-- The module gets its entity and its name in front of its content. -/
theorem ends_readDefinition {content : EntityId → Parsing Unit} {front : List Token}
    (hContent : ∀ id s, id ≠ root →
      s.Awaits env (front ++ m.closing :: ts) (InModule env id m.name.text []) →
      Ends (content id) s (fun _ s' => ∃ (p : PlacedModule env) (a : Agenda),
        p.owner = id ∧ p.Places m ∧ s'.Completes p (m.closing :: ts) a)
        (Assigned.Refuted env.fold m.body))
    (h : s.Awaits env (m.name :: m.opening :: (front ++ m.closing :: ts))
      fun t => t.Blank (env.enables .caseSensitiveNames) #[{}]) (comments : List Token) :
    Ends (readDefinition content root .module m.keyword false comments) s
      (fun id s' => ∃ (p : PlacedModule env) (a : Agenda),
        p.owner = id ∧ p.Places m ∧ s'.Completes p ts a)
      (Assigned.Refuted env.fold m.body) := by
  have hOpening : m.opening.isFinish = false := h.unfinished m.opening (by simp)
  obtain ⟨id, t₁, hAdd, hUnnamed⟩ :=
    h.tree.addModule m.keyword.source (Span.point m.keyword.position)
  have hAddEntity : Ends (addEntity root .module m.keyword.source (Span.point m.keyword.position)
      (.definition {})) s (fun x s' => x = id ∧
        s'.Awaits env (m.name :: m.opening :: (front ++ m.closing :: ts))
          fun t => t.Unnamed (env.enables .caseSensitiveNames) id)
      (Assigned.Refuted env.fold m.body) := by
    unfold addEntity
    refine Ends.tree ?_
    rw [hAdd]
    exact ⟨rfl, h.env, h.tokens, h.unfinished, h.ending, hUnnamed.pos, hUnnamed⟩
  unfold readDefinition
  refine hAddEntity.bind ?_
  rintro x s₁ ⟨rfl, h₁⟩
  have hName : Ends (definitionName root .module) s₁ (fun r s' => r = (m.name.text, false) ∧
      s'.Awaits env (m.opening :: (front ++ m.closing :: ts))
        fun t => t.Unnamed (env.enables .caseSensitiveNames) x)
      (Assigned.Refuted env.fold m.body) := by
    unfold definitionName
    refine (ends_next h₁ Unnamed.lasting).bind ?_
    rintro t s' ⟨rfl, h'⟩
    rw [m.hName]
    exact Ends.pure ⟨rfl, h'⟩
  refine hName.bind ?_
  rintro r s₂ ⟨rfl, h₂⟩
  have hBases : Ends (readBases x root .module) s₂ (fun headed s' => headed = false ∧
      s'.Awaits env (m.opening :: (front ++ m.closing :: ts))
        fun t => t.Unnamed (env.enables .caseSensitiveNames) x)
      (Assigned.Refuted env.fold m.body) := by
    unfold readBases
    refine (ends_next h₂ Unnamed.lasting).bind ?_
    rintro t s' ⟨rfl, h'⟩
    rw [Token.not_is_of_is m.hOpening.1 (by decide)]
    exact (ends_putBack h' hOpening).bind fun _ _ h'' => Ends.pure ⟨rfl, h''⟩
  dsimp only
  rw [if_neg (by decide)]
  refine hBases.bind ?_
  rintro headed s₃ ⟨rfl, h₃⟩
  refine (ends_next h₃ Unnamed.lasting).bind ?_
  rintro t s₄ ⟨rfl, h₄⟩
  rw [m.hOpening.1]
  obtain ⟨t₂, hSet, hHolds⟩ := Holds.ofUnnamed h₄.tree m.name.text
  have hNameEntity : Ends (nameEntity x m.name.text false true) s₄ (fun y s' => y = x ∧
      s'.Awaits env (front ++ m.closing :: ts) (InModule env x m.name.text []))
      (Assigned.Refuted env.fold m.body) := by
    have hRun : nameEntity x m.name.text false true s₄ = .ok x { s₄ with tree := t₂ } :=
      nameEntity_eq_ok.mpr ⟨hSet, rfl⟩
    unfold Ends
    rw [hRun]
    exact ⟨rfl, h₄.env, h₄.tokens, h₄.unfinished, h₄.ending,
      Nat.lt_of_le_of_lt (Nat.zero_le _) hHolds.lt, hHolds⟩
  refine hNameEntity.bind ?_
  rintro y s₅ ⟨rfl, h₅⟩
  -- The name was not generated before either.
  have hAnonymous : Ends (modifyEntity y fun e => { e with anonymous := false }) s₅
      (fun _ s' => s'.Awaits env (front ++ m.closing :: ts) (InModule env y m.name.text []))
      (Assigned.Refuted env.fold m.body) := by
    refine ends_modifyEntity h₅ fun hTree => Holds.lasting _ _ (records_modify ?_) hTree
    exact ⟨rfl, rfl, rfl, rfl, rfl, rfl, hTree.anonymous.symm, rfl, rfl⟩
  refine hAnonymous.bind fun _ s₆ h₆ => ?_
  refine (ends_attachBefore h₆ Holds.lasting y comments).bind fun _ s₇ h₇ => ?_
  unfold readBody
  rw [if_neg (by decide)]
  simp only [bind_assoc]
  refine (hContent y s₇ h₇.tree.ne_root h₇).bind ?_
  rintro _ s₈ ⟨p, a, rfl, hPlaces, hCompletes⟩
  refine (ends_next hCompletes.awaits Holds.lasting).bind ?_
  rintro u s₉ ⟨rfl, h₉⟩
  rw [m.hClosing]
  refine (ends_endAt h₉ Holds.lasting p.owner _).bind fun _ s' h' => Ends.pure ?_
  exact ⟨p, a, rfl, hPlaces, ⟨h', hCompletes.sound⟩, hCompletes.started, hCompletes.all⟩

/-- The statement of a module is read with its content. -/
theorem ends_readModule {n : Nat} (hBudget : m.constants.length < n)
    (hNames : ∀ c ∈ m.constants, ∀ t ∈ c.expression.operands, IsName t.text)
    (h : s.Awaits env m.tokens fun t => t.Blank (env.enables .caseSensitiveNames) #[{}]) :
    Ends (readStatement (contentWithin n) root) s (fun _ s' => ∃ (p : PlacedModule env)
      (a : Agenda), p.Places m ∧ s'.Completes p [] a) (Assigned.Refuted env.fold m.body) := by
  have hTokens : m.tokens = m.keyword :: m.name :: m.opening ::
      (m.constants.flatMap WrittenConstant.tokens ++ m.closing :: [m.terminator]) := rfl
  rw [hTokens] at h
  have hKind := h.tree.rootKind
  have hOther : ∀ text, "module" ≠ text → m.keyword.is text = false := fun text hNe =>
    Token.not_is_of_text_ne (m.hKeyword.2 ▸ hNe)
  unfold readStatement
  refine Ends.entity ?_
  refine (ends_commentsBefore h Blank.lasting).bind fun comments s₁ h₁ => ?_
  refine (ends_next h₁ Blank.lasting).bind ?_
  rintro t s₂ ⟨rfl, h₂⟩
  have hModifiers : readModifiers (s.tree.get root).kind m.keyword = pure ({}, m.keyword) := by
    unfold readModifiers
    rw [hOther "const" (by decide), hOther "readonly" (by decide), hOther "typedef" (by decide),
      hOther "local" (by decide)]
    rfl
  rw [hModifiers, pure_bind]
  dsimp only
  have hDefinition : Ends (definitionKind? m.keyword) s₂ (fun k s' => k = some .module ∧
      s'.Awaits env (m.name :: m.opening ::
        (m.constants.flatMap WrittenConstant.tokens ++ m.closing :: [m.terminator]))
        fun t => t.Blank (env.enables .caseSensitiveNames) #[{}])
      (Assigned.Refuted env.fold m.body) := by
    have hKeyword : EntityKind.ofKeyword? m.keyword = some .module := by
      unfold EntityKind.ofKeyword?
      rw [m.hKeyword.1, m.hKeyword.2]
      rfl
    unfold definitionKind? startsDefinition
    rw [hKeyword]
    simp only [bind_assoc, pure_bind]
    refine (ends_peek h₂ Blank.lasting rfl).bind ?_
    rintro u s' ⟨rfl, h'⟩
    refine (ends_peek h' Blank.lasting rfl).bind ?_
    rintro v s'' ⟨rfl, h''⟩
    rw [m.hOpening.2, Bool.and_false]
    exact Ends.pure ⟨rfl, h''⟩
  refine hDefinition.bind ?_
  rintro k s₃ ⟨rfl, h₃⟩
  dsimp only
  rw [hKind, if_neg (by decide)]
  have hStart : ([] : List (PlacedConstant env)).map PlacedConstant.constant ++ m.constants =
      m.constants := rfl
  refine (ends_readDefinition (fun id s hId h => ends_constants hStart hNames hId hBudget h)
    h₃ _).bind ?_
  rintro id s₄ ⟨p, a, rfl, hPlaces, h₄⟩
  refine (ends_next h₄.awaits Holds.lasting).bind ?_
  rintro u s₅ ⟨rfl, h₅⟩
  refine (ends_attachAfter h₅ Holds.lasting p.owner _).bind fun _ s₆ h₆ => ?_
  unfold Statement.readBehindDefinition
  dsimp only
  rw [m.hTerminator, if_pos rfl]
  unfold Statement.finishDefinition
  refine (ends_endAt h₆ Holds.lasting p.owner _).bind fun _ s₇ h₇ => ?_
  refine Ends.entity ?_
  rw [h₇.tree.anonymous]
  exact Ends.pure ⟨p, a, hPlaces, ⟨h₇, h₄.sound⟩, h₄.started, h₄.all⟩

/-- All of a module of constants is read and evaluated, or its constants cannot be evaluated in an
order. -/
theorem ends_readRoot (hNames : ∀ c ∈ m.constants, ∀ t ∈ c.expression.operands, IsName t.text)
    (h : s.Awaits env m.tokens fun t => t.Blank (env.enables .caseSensitiveNames) #[{}]) :
    Ends readRoot s (fun _ s' => ∃ (p : PlacedModule env) (a : Agenda),
      p.Places m ∧ s'.Completes p [] a) (Assigned.Refuted env.fold m.body) := by
  -- Each constant has tokens of its own.
  have hBudget : m.constants.length < m.tokens.length + 1 := by
    have hPos : ∀ c : WrittenConstant env, 0 < c.tokens.length := fun c => Nat.succ_pos _
    have hConstants := length_le_flatMap hPos m.constants
    unfold WrittenModule.tokens
    simp only [List.length_cons, List.length_append]
    omega
  have hKeyword : m.keyword.is "\x7d" = false :=
    Token.not_is_of_text_ne (by rw [m.hKeyword.2]; decide)
  unfold readRoot
  refine Ends.tokensLeft h ?_
  unfold contentWithin
  refine (ends_peek (t := m.keyword) h Blank.lasting rfl).bind ?_
  rintro t s₁ ⟨rfl, h₁⟩
  have hFinish : m.keyword.isFinish = false := h.unfinished m.keyword List.mem_cons_self
  rw [hFinish, hKeyword]
  refine (ends_readModule hBudget hNames h₁).bind ?_
  rintro _ s₂ ⟨p, a, hPlaces, h₂⟩
  unfold contentWithin
  refine (ends_peek_finish h₂.awaits Holds.lasting).bind ?_
  rintro u s₃ ⟨hEnd, h₃⟩
  rw [hEnd, if_pos rfl]
  -- The root has no member that is evaluated.
  have hNone : ∀ kinds : List EntityKind, kinds.contains .module = false →
      Ends (childrenOfKinds kinds [p.owner]) s₃ (fun ids s' => ids = [] ∧ s' = s₃)
        (Assigned.Refuted env.fold m.body) := by
    intro kinds hKinds
    refine Ends.tree (Ends.pure ⟨?_, rfl⟩)
    rw [List.filter_cons, h₃.tree.kind, hKinds]
    rfl
  unfold evaluateMembers
  refine Ends.entity ?_
  rw [h₃.tree.rootChildren]
  refine (hNone _ rfl).bind ?_
  rintro types s₄ ⟨rfl, rfl⟩
  rw [List.forM, pure_bind]
  refine (hNone _ rfl).bind ?_
  rintro consts s₅ ⟨rfl, rfl⟩
  rw [List.forM, pure_bind]
  refine (hNone _ rfl).bind ?_
  rintro operations s₅ ⟨rfl, rfl⟩
  rw [List.forM, pure_bind]
  refine (hNone _ rfl).bind ?_
  rintro fields s₅ ⟨rfl, rfl⟩
  rw [List.forM]
  exact Ends.pure ⟨p, a, hPlaces, ⟨h₃, h₂.sound⟩, h₂.started, h₂.all⟩

end Parsing

end IdlReader
