import IdlReader.Grammar.DeclaredType
import IdlReader.Proofs.Grammar.Session

/-!
# Names and types

Reading a name or a type only grows the tree by recorded directives. The name of a type leads
to something with a name, and a type that was read names nothing but types.

* `grows_readTypeName`: the names of types.
* `grows_readType`: types.
-/

namespace IdlReader

open IdlReader.Tree

namespace Tree

variable {t : Tree}

/-- What has values of a base type may be named as a type. -/
theorem isType_of_baseType? {id : EntityId} (h : t.Named id) {base : BaseType}
    (hBase : (t.get id).baseType? = some base) : t.IsType id := by
  refine ⟨h, ?_⟩
  unfold Entity.baseType? at hBase
  split at hBase
  · rename_i hTypedef
    rw [hTypedef]
    rfl
  · revert hBase
    cases (t.get id).kind <;> simp [EntityKind.baseType?, EntityKind.isType,
      EntityKind.isDefinition]

theorem declarable_plain (base : BaseType) (text : String) (length decimals : Nat) :
    t.Declarable { base, text, length, decimals } := by
  refine ⟨?_, nofun⟩
  intro id hId
  cases hId

theorem refers_named {base : BaseType} {text : String} {id : EntityId} (h : t.IsType id) :
    t.Refers { base, text, definition := some id } := by
  intro x hx
  rw [List.mem_singleton.mp hx]
  exact h

theorem isCharacter_of_baseType? {kind : EntityKind} {base : BaseType}
    (h : kind.baseType? = some base) : base.isCharacter = false := by
  cases kind <;> cases h <;> rfl

/-- The type that the name of an entity stands for. -/
theorem declarable_of_baseType? {id : EntityId} (h : t.Named id) {base : BaseType}
    (hBase : (t.get id).baseType? = some base) (text : String) :
    t.Declarable { base, text, definition := some id } := by
  refine ⟨refers_named (isType_of_baseType? h hBase), ?_⟩
  intro hCharacter x hx
  cases hx
  unfold Entity.baseType? at hBase
  split at hBase
  · rename_i hTypedef
    obtain ⟨d, hd, rfl⟩ := Option.map_eq_some_iff.mp hBase
    exact ⟨hTypedef, d, hd, hCharacter⟩
  · rw [isCharacter_of_baseType? hBase] at hCharacter
    cases hCharacter

theorem declarable_parts {base : BaseType} {text : String} {length : Nat}
    {key value : Option DeclaredType} (hKey : ∀ k ∈ key, t.Refers k)
    (hValue : ∀ v ∈ value, t.Refers v) : t.Declarable { base, text, length, key, value } := by
  refine ⟨?_, nofun⟩
  intro id hId
  rw [DeclaredType.references] at hId
  rcases List.mem_append.mp hId with hId | hId
  · cases key with
    | none => cases hId
    | some k => exact hKey k rfl id hId
  · cases value with
    | none => cases hId
    | some v => exact hValue v rfl id hId

end Tree

namespace Parsing

variable {R : Tree → Tree → Prop} [Growth R] {s : Session}

/-! ## Names -/

theorem keeps_putBackNext {α : Type} {f : Token → Parsing α}
    (h : ∀ (s : Session) (t : Token), s.Sound → t.Lexical → Grows Noted (f t) s fun _ _ => True) :
    Keeps (next >>= f) := by
  intro s hs
  refine (grows_next hs).bind ?_
  intro t s₁ hs₁ _ ht
  exact h s₁ t hs₁ ht

/-- The separator behind a name, which the name may end with already. -/
theorem keeps_separator {c : Prop} [Decidable c] {α β : Type} {x y z : α} {f : α → Parsing β}
    (hf : ∀ a, Keeps (f a)) :
    Keeps (if c then pure x >>= f
      else next >>= fun t => if t.is "::" then pure y >>= f else putBack t >>= fun _ =>
        pure z >>= f) := by
  split
  · exact (Keeps.pure x).bind hf
  · refine keeps_putBackNext ?_
    intro s t hs ht
    split
    · exact (Keeps.pure y).bind hf s hs
    · refine (grows_putBack hs ht).bind ?_
      intro _ s₁ hs₁ _ _
      exact (Keeps.pure z).bind hf s₁ hs₁

theorem keeps_scopedNameRest (n : Nat) (name : String) (last : Token) :
    Keeps (scopedNameRest n name last) := by
  induction n generalizing name last with
  | zero => exact keeps_fail _
  | succ n ih =>
    unfold scopedNameRest
    refine keeps_separator ?_
    intro continued
    dsimp only
    split
    · exact Keeps.pure _
    · refine keeps_next.bind ?_
      intro t
      split
      · exact ih _ _
      · exact keeps_failAtToken _ _

theorem keeps_readScopedName (first : Token) : Keeps (readScopedName first) :=
  fun _ hs => Grows.tokensLeft fun n => keeps_scopedNameRest n _ _ _ hs

theorem grows_readTypeName (hs : s.Sound) (scope : EntityId) (first : Token) :
    Grows R (readTypeName scope first) s fun r s' => s'.tree.Found r.2 := by
  unfold readTypeName
  refine ((keeps_readScopedName first).grows hs).bind ?_
  rintro ⟨name, last⟩ s₁ hs₁ _ -
  refine Grows.tree ?_
  split
  · rename_i id hFind
    exact Grows.pure hs₁ ((wellFormed_of_reachable hs₁.reachable).findType_found hFind)
  · exact grows_failAtToken _ _

theorem keeps_expectMark (text : String) (cause : Cause) : Keeps (expectMark text cause) := by
  refine keeps_next.bind ?_
  intro t
  split
  · exact Keeps.pure _
  · exact keeps_failAtToken _ _

/-! ## Parameters of types -/

theorem keeps_templateNumber (least : Nat) (cause : Cause) :
    Keeps (templateNumber least cause) := by
  refine keeps_next.bind ?_
  intro t
  split
  · refine (keeps_orThrow _).bind ?_
    intro c
    split
    · exact keeps_failAtToken _ _
    · split
      · split
        · exact Keeps.pure _
        · exact keeps_failAtToken _ _
      · exact keeps_failAtToken _ _
  · exact keeps_failAtToken _ _

/-- What is left of a mark is no word. -/
theorem isWord_half {t : Token} (ht : t.Lexical) (h : t.is ">>" = true) {span : Span} :
    ({ t with text := ">", span := span } : Token).isWord = false := by
  change t.isWord = false
  cases hWord : t.isWord with
  | false => rfl
  | true =>
    have hName := ht hWord
    rw [Token.is, Bool.and_eq_true, beq_iff_eq] at h
    rw [h.2] at hName
    cases hName

theorem keeps_closeTemplate (cause : Cause) : Keeps (closeTemplate cause) := by
  refine keeps_putBackNext ?_
  intro s t hs ht
  split
  · rename_i hDouble
    exact grows_putBack hs (lexical_of_not_isWord (isWord_half ht hDouble))
  · split
    · exact Grows.pure hs trivial
    · exact grows_failAtToken _ _

theorem keeps_takeIf (text : String) : Keeps (takeIf text) := by
  refine (keeps_peek 0).bind ?_
  intro t
  split
  · exact keeps_next.bind fun _ => Keeps.pure _
  · exact Keeps.pure _

theorem keeps_fixedBounds : Keeps fixedBounds := by
  refine (keeps_templateNumber 1 _).bind ?_
  intro length
  refine (keeps_expectMark _ _).bind ?_
  intro _
  refine (keeps_peek 0).bind ?_
  intro t
  refine (keeps_templateNumber 0 _).bind ?_
  intro decimals
  dsimp only
  split
  · exact keeps_failAtToken_bind _ _
  · exact (keeps_closeTemplate _).bind fun _ => Keeps.pure _

section Sections

variable {element : Parsing DeclaredType}
  (hElement : ∀ s : Session, s.Sound → Grows R element s fun type s' => s'.tree.Declarable type)

include hElement

theorem grows_bitfieldSection (hs : s.Sound) (base : BaseType) (text : String) :
    Grows R (bitfieldSection element { base, text }) s fun type s' => s'.tree.Declarable type := by
  have hClose : ∀ (s : Session) (bits : Nat) (value : Option DeclaredType), s.Sound →
      (∀ v ∈ value, s.tree.Refers v) →
      Grows R (do
        closeTemplate .templateClose
        return ({ base, text, length := bits, value } : DeclaredType)) s
        fun type s' => s'.tree.Declarable type := by
    intro s bits value hs hValue
    refine ((keeps_closeTemplate _).grows hs).bind ?_
    intro _ s₁ hs₁ hR _
    exact Grows.pure hs₁
      (declarable_parts nofun fun v hv => (hs.extends hR).refers (hValue v hv))
  unfold bitfieldSection
  refine ((keeps_expectMark _ _).grows hs).bind ?_
  intro _ s₁ hs₁ _ _
  refine ((keeps_peek 0).grows hs₁).bind ?_
  intro t s₂ hs₂ _ _
  refine ((keeps_templateNumber 1 _).grows hs₂).bind ?_
  intro bits s₃ hs₃ _ _
  dsimp only
  split
  · exact grows_failAtToken_bind _ _
  · refine ((keeps_takeIf ",").grows hs₃).bind ?_
    intro more s₄ hs₄ _ _
    split
    · refine (hElement s₄ hs₄).bind ?_
      intro value s₅ hs₅ _ hValue
      split
      · exact hClose s₅ bits (some value) hs₅ fun v hv => Option.some.inj hv ▸ hValue.refers
      · exact grows_failAtToken_bind _ _
    · exact hClose s₄ bits none hs₄ nofun

theorem grows_containerSection (hs : s.Sound) (base : BaseType) (text : String) :
    Grows R (containerSection element { base, text }) s fun type s' => s'.tree.Declarable type := by
  have hClose : ∀ (s : Session) (length : Nat) (key : Option DeclaredType) (value : DeclaredType),
      s.Sound → (∀ k ∈ key, s.tree.Refers k) → s.tree.Refers value →
      Grows R (do
        closeTemplate .templateClose
        return ({ base, text, length, key, value := some value } : DeclaredType)) s
        fun type s' => s'.tree.Declarable type := by
    intro s length key value hs hKey hValue
    refine ((keeps_closeTemplate _).grows hs).bind ?_
    intro _ s₁ hs₁ hR _
    have hExtends := hs.extends hR
    refine Grows.pure hs₁ (declarable_parts (fun k hk => hExtends.refers (hKey k hk)) ?_)
    intro v hv
    cases hv
    exact hExtends.refers hValue
  have hValue : ∀ (s : Session) (key : Option DeclaredType), s.Sound →
      (∀ k ∈ key, s.tree.Refers k) →
      Grows R (do
        let value ← element
        if ← takeIf "," then
          let length ← templateNumber 1 .sizeNumber
          closeTemplate .templateClose
          return ({ base, text, length, key, value := some value } : DeclaredType)
        else
          let length ← pure 0
          closeTemplate .templateClose
          return ({ base, text, length, key, value := some value } : DeclaredType)) s
        fun type s' => s'.tree.Declarable type := by
    intro s key hs hKey
    refine (hElement s hs).bind ?_
    intro value s₁ hs₁ hR₁ hValue
    have hKey₁ := fun k hk => (hs.extends hR₁).refers (hKey k hk)
    refine ((keeps_takeIf ",").grows hs₁).bind ?_
    intro more s₂ hs₂ hR₂ _
    have hKey₂ := fun k hk => (hs₁.extends hR₂).refers (hKey₁ k hk)
    have hValue₂ := (hs₁.extends hR₂).refers hValue.refers
    split
    · refine ((keeps_templateNumber 1 _).grows hs₂).bind ?_
      intro length s₃ hs₃ hR₃ _
      have hExtends := hs₂.extends hR₃
      exact hClose s₃ length key value hs₃ (fun k hk => hExtends.refers (hKey₂ k hk))
        (hExtends.refers hValue₂)
    · exact hClose s₂ 0 key value hs₂ hKey₂ hValue₂
  unfold containerSection
  refine ((keeps_expectMark _ _).grows hs).bind ?_
  intro _ s₁ hs₁ _ _
  dsimp only
  split
  · refine (hElement s₁ hs₁).bind ?_
    intro key s₂ hs₂ _ hKey
    refine ((keeps_expectMark _ _).grows hs₂).bind ?_
    intro _ s₃ hs₃ hR₃ _
    refine hValue s₃ (some key) hs₃ ?_
    intro k hk
    cases hk
    exact (hs₂.extends hR₃).refers hKey.refers
  · exact hValue s₁ none hs₁ nofun

end Sections

/-! ## Types -/

theorem keeps_takeWord (text : String) : Keeps (baseTypeText.takeWord text) := by
  refine keeps_putBackNext ?_
  intro s t hs ht
  split
  · exact Grows.pure hs trivial
  · exact (grows_putBack hs ht).bind fun _ s₁ hs₁ _ _ => Grows.pure hs₁ trivial

theorem keeps_baseTypeText (t : Token) : Keeps (baseTypeText t) := by
  unfold baseTypeText
  split
  · refine keeps_putBackNext ?_
    intro s u hs hu
    split
    · exact Grows.pure hs trivial
    · exact (grows_putBack hs hu).bind fun _ s₁ hs₁ _ _ => Grows.pure hs₁ trivial
  · split
    · refine keeps_next.bind ?_
      intro u
      split
      · exact Keeps.pure _
      · split
        · refine (keeps_takeWord "long").bind ?_
          intro more
          split <;> exact Keeps.pure _
        · exact keeps_failAtToken _ _
    · exact Keeps.pure _

theorem isType_of_elaborates? {base : BaseType} {kind : EntityKind}
    (h : base.elaborates? = some kind) : kind.isType = true ∧ kind ≠ .typedef := by
  cases base <;> cases h <;> decide

theorem isCharacter_of_elaborates? {base : BaseType} {kind : EntityKind}
    (h : base.elaborates? = some kind) : base.isCharacter = false := by
  cases base <;> cases h <;> rfl

theorem grows_elaboratedType (hs : s.Sound) (scope : EntityId) {base : BaseType}
    {kind : EntityKind} (hKind : base.elaborates? = some kind) (keyword : Token) :
    Grows R (elaboratedType scope base kind keyword) s fun type s' => s'.tree.Declarable type := by
  unfold elaboratedType
  refine ((keeps_next).grows hs).bind ?_
  intro first s₁ hs₁ _ _
  refine (grows_readTypeName hs₁ scope first).bind ?_
  rintro ⟨name, id⟩ s₂ hs₂ _ hFound
  refine Grows.tree ?_
  dsimp only
  split
  · exact grows_failAtToken_bind _ _
  · rename_i hResolved
    have hResolved : (s₂.tree.get (s₂.tree.resolved id)).kind = kind :=
      Decidable.not_not.mp hResolved
    have hLettered : s₂.tree.Lettered { base, text := name, definition := some id } := by
      intro hCharacter
      rw [isCharacter_of_elaborates? hKind] at hCharacter
      cases hCharacter
    refine Grows.pure hs₂ ⟨refers_named ⟨hFound.1, ?_⟩, hLettered⟩
    by_cases hTypedef : (s₂.tree.get id).kind = .typedef
    · rw [hTypedef]
      rfl
    · rw [← (wellFormed_of_reachable hs₂.reachable).kind_resolved hFound hTypedef, hResolved]
      exact (isType_of_elaborates? hKind).1

theorem grows_namedType (hs : s.Sound) (scope : EntityId) (first : Token) :
    Grows R (namedType scope first) s fun type s' => s'.tree.Declarable type := by
  unfold namedType
  refine (grows_readTypeName hs scope first).bind ?_
  rintro ⟨name, id⟩ s₁ hs₁ _ hFound
  refine Grows.entity ?_
  split
  · rename_i base hBase
    exact Grows.pure hs₁ (declarable_of_baseType? hFound.1 hBase name)
  · exact grows_failAtToken _ _

theorem grows_baseType {element : Parsing DeclaredType}
    (hElement : ∀ s : Session, s.Sound → Grows R element s fun type s' => s'.tree.Declarable type)
    (hs : s.Sound) (scope : EntityId) (keyword : Token) (base : BaseType) (text : String) :
    Grows R (baseType element scope keyword base text) s fun type s' => s'.tree.Declarable type := by
  have hPlain : ∀ s₁ : Session, s₁.Sound → ∀ length decimals : Nat,
      Grows R (pure ({ base, text, length, decimals } : DeclaredType)) s₁
        fun type s' => s'.tree.Declarable type :=
    fun s₁ hs₁ length decimals => Grows.pure hs₁ (declarable_plain base text length decimals)
  unfold baseType
  dsimp only
  split
  · rename_i kind hKind
    exact grows_elaboratedType hs scope hKind keyword
  · split
    · refine ((keeps_takeIf "<").grows hs).bind ?_
      intro bounded s₁ hs₁ _ _
      split
      · refine (keeps_fixedBounds.grows hs₁).bind ?_
        rintro ⟨length, decimals⟩ s₂ hs₂ _ -
        exact hPlain s₂ hs₂ length decimals
      · exact hPlain s₁ hs₁ 0 0
    · split
      · refine ((keeps_takeIf "<").grows hs).bind ?_
        intro bounded s₁ hs₁ _ _
        split
        · refine ((keeps_templateNumber 1 _).grows hs₁).bind ?_
          intro length s₂ hs₂ _ _
          refine ((keeps_closeTemplate _).grows hs₂).bind ?_
          intro _ s₃ hs₃ _ _
          exact hPlain s₃ hs₃ length 0
        · exact hPlain s₁ hs₁ 0 0
      · split
        · exact grows_bitfieldSection hElement hs base text
        · split
          · exact grows_containerSection hElement hs base text
          · exact hPlain s hs 0 0

theorem grows_typeWithin (scope : EntityId) (n : Nat) (hs : s.Sound) :
    Grows R (typeWithin scope n) s fun type s' => s'.tree.Declarable type := by
  induction n generalizing s with
  | zero => exact grows_fail _
  | succ n ih =>
    unfold typeWithin
    refine (keeps_next.grows hs).bind ?_
    intro t s₁ hs₁ _ _
    dsimp only
    split
    · exact grows_failAtToken_bind _ _
    · refine ((keeps_baseTypeText t).grows hs₁).bind ?_
      intro text s₂ hs₂ _ _
      refine Grows.get ?_
      split
      · exact grows_baseType (fun s hs => ih hs) hs₂ scope t _ text
      · exact grows_namedType hs₂ scope t

theorem grows_readType (hs : s.Sound) (scope : EntityId) :
    Grows R (readType scope) s fun type s' => s'.tree.Declarable type :=
  Grows.tokensLeft fun n => grows_typeWithin scope n hs

end Parsing

end IdlReader
