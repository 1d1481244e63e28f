import IdlReader.Grammar.Enumeration
import IdlReader.Grammar.Case
import IdlReader.Proofs.Fork.Session

/-!
# Declarators in front of a place

How many tokens types, declarators and entries of enumerations leave examined. A name or a type is
read up to a token that does not belong to it, which stays examined; a declarator is read up to the
token behind it, which is taken.

* `sees_readType`: types.
* `sees_readDeclarator`: declarators.
* `sees_readCase`: cases of unions.
* `sees_entriesWithin`: entries of enumerations.
-/

namespace IdlReader.Parsing

open IdlReader.Tree

variable {F : Fork} {s u : Session} {k : Nat}

/-! ## Names -/

theorem sees_scopedNameRest {n n' : Nat} (hn : n ≤ n') (name : String) (last : Token) :
    Sees F k (scopedNameRest n name last) (scopedNameRest n' name last) s fun _ _ => max k 1 := by
  induction n generalizing n' name last s k with
  | zero => exact sees_fail _ _
  | succ n ih =>
    obtain ⟨n', rfl⟩ := Nat.exists_eq_add_of_lt hn
    have hn : n ≤ n + n' := Nat.le_add_right _ _
    unfold scopedNameRest
    have hSegment : ∀ {s : Session} {k : Nat} (name : String), Sees F k (do
        let t ← next
        if t.isIdentifier then scopedNameRest n (name ++ t.text) t
        else failAtToken .identifierExpected t : Parsing (String × Token)) (do
        let t ← next
        if t.isIdentifier then scopedNameRest (n + n') (name ++ t.text) t
        else failAtToken .identifierExpected t) s fun _ _ => max k 1 := by
      intro s k name
      refine sees_next.bind fun t u _ => Sees.ite (fun _ => ?_) fun _ => sees_failAtToken _ _ _
      refine (ih hn _ _).weaken ?_
      unfold after
      split <;> omega
    refine Sees.ite (fun _ => hSegment name) fun _ => ?_
    refine sees_next.bind fun t u _ => Sees.ite (fun hMark => ?_) fun _ => ?_
    · rw [after_of_is hMark]
      exact (hSegment _).weaken (by omega)
    · exact (sees_putBack_after t).bind fun _ _ _ => .pure _

theorem sees_readScopedName (first : Token) :
    Sees F k (readScopedName first) (readScopedName first) s fun _ _ => max k 1 :=
  Sees.tokensLeft fun _ _ hn => sees_scopedNameRest hn _ _

theorem sees_readTypeName (scope : EntityId) (first : Token) :
    Sees F k (readTypeName scope first) (readTypeName scope first) s fun _ _ => max k 1 := by
  unfold readTypeName
  refine (sees_readScopedName first).bind fun r u _ => Sees.tree ?_
  split
  · exact .pure _
  · exact sees_failAtToken _ _ _

theorem sees_expectMark (text : String) (cause : Cause) :
    Sees F k (expectMark text cause) (expectMark text cause) s fun _ _ => k - 1 := by
  unfold expectMark
  refine sees_next.bind fun t u _ => Sees.ite (fun hMark => ?_) fun _ => sees_failAtToken _ _ _
  rw [after_of_is hMark]
  exact .pure _

/-! ## Parameters of types -/

theorem sees_templateNumber (least : Nat) (cause : Cause) :
    Sees F k (templateNumber least cause) (templateNumber least cause) s fun _ _ => k - 1 := by
  unfold templateNumber
  refine sees_next.bind fun t u _ => ?_
  cases hKind : t.kind with
  | literal _ =>
    rw [after_of_not_isFinish (Token.not_isFinish_of_kind hKind nofun)]
    dsimp only
    refine (sees_orThrow _).bind fun c _ _ => Sees.ite (fun _ => sees_failAtToken _ _ _) fun _ => ?_
    split
    · exact Sees.ite (fun _ => .pure _) fun _ => sees_failAtToken _ _ _
    · exact sees_failAtToken _ _ _
  | _ => exact sees_failAtToken _ _ _

theorem sees_closeTemplate (cause : Cause) :
    Sees F k (closeTemplate cause) (closeTemplate cause) s fun _ _ => max k 1 := by
  unfold closeTemplate
  refine sees_next.bind fun t u _ => Sees.ite (fun hMark => ?_) fun _ =>
    Sees.ite (fun hMark => ?_) fun _ => sees_failAtToken _ _ _
  · rw [after_of_is hMark]
    refine (sees_putBack _).weaken ?_
    split <;> omega
  · rw [after_of_is hMark]
    exact (Sees.pure _).weaken (by omega)

theorem after_le (k : Nat) (t : Token) : after k t ≤ max k 1 := by
  unfold after
  split <;> omega

theorem sees_takeIf (text : String) : Sees F k (takeIf text) (takeIf text) s fun _ _ => max k 1 := by
  unfold takeIf
  refine (sees_peek 0).bind fun t u _ => Sees.ite (fun _ => ?_) fun _ => .pure _
  refine sees_next.bind fun v _ _ => (Sees.pure _).weaken ?_
  have hLe := after_le (max k (0 + 1)) v
  omega

theorem sees_fixedBounds : Sees F k fixedBounds fixedBounds s fun _ _ => max k 1 := by
  unfold fixedBounds
  refine (sees_templateNumber _ _).bind fun length _ _ => (sees_expectMark _ _).bind fun _ _ _ => ?_
  refine (sees_peek 0).bind fun t _ _ => (sees_templateNumber _ _).bind fun decimals _ _ => ?_
  refine Sees.ite (fun _ => sees_failAtToken_bind _ _ _) fun _ => ?_
  exact (sees_closeTemplate _).bind fun _ _ _ => (Sees.pure _).weaken (by omega)

/-- Whether a type is read up to a token that stays examined. -/
def SeesType (F : Fork) (x x' : Parsing DeclaredType) : Prop :=
  ∀ {k : Nat} {s : Session}, Sees F k x x' s fun _ _ => max (k - 1) 1

theorem sees_bitfieldSection {element element' : Parsing DeclaredType} (h : SeesType F element element')
    (type : DeclaredType) :
    Sees F k (bitfieldSection element type) (bitfieldSection element' type) s fun _ _ => max k 1 := by
  unfold bitfieldSection
  refine (sees_expectMark _ _).bind fun _ _ _ => (sees_peek 0).bind fun t _ _ => ?_
  refine (sees_templateNumber _ _).bind fun bits _ _ => ?_
  refine Sees.ite (fun _ => sees_failAtToken_bind _ _ _) fun _ => ?_
  have hClose : ∀ {s : Session} {j : Nat} (value : Option DeclaredType), j ≤ max k 1 →
      Sees F j (do
        closeTemplate .templateClose
        return ({ type with length := bits, value } : DeclaredType)) (do
        closeTemplate .templateClose
        return ({ type with length := bits, value } : DeclaredType)) s fun _ _ => max k 1 :=
    fun value hj => (sees_closeTemplate _).bind fun _ _ _ => (Sees.pure _).weaken (by omega)
  refine (sees_takeIf ",").bind fun more _ _ => Sees.ite (fun _ => ?_) fun _ => hClose none (by omega)
  refine h.bind fun value _ _ => Sees.ite (fun _ => ?_) fun _ => sees_failAtToken_bind _ _ _
  exact hClose (some value) (by omega)

theorem sees_containerSection {element element' : Parsing DeclaredType} (h : SeesType F element element')
    (type : DeclaredType) :
    Sees F k (containerSection element type) (containerSection element' type) s fun _ _ => max k 1 := by
  have hBehind : ∀ {s : Session} {j : Nat} (key : Option DeclaredType), j ≤ max k 1 →
      Sees F j (do
        let value ← element
        let length ← if ← takeIf "," then templateNumber 1 .sizeNumber else Pure.pure 0
        closeTemplate .templateClose
        return ({ type with length, key, value := some value } : DeclaredType)) (do
        let value ← element'
        let length ← if ← takeIf "," then templateNumber 1 .sizeNumber else Pure.pure 0
        closeTemplate .templateClose
        return ({ type with length, key, value := some value } : DeclaredType)) s
        fun _ _ => max k 1 := by
    intro s j key hj
    refine h.bind fun value _ _ => (sees_takeIf ",").bind fun more _ _ => ?_
    have hClose : ∀ {s : Session} {i : Nat} (length : Nat), i ≤ max k 1 → Sees F i (do
          closeTemplate .templateClose
          return ({ type with length, key, value := some value } : DeclaredType)) (do
          closeTemplate .templateClose
          return ({ type with length, key, value := some value } : DeclaredType)) s
          fun _ _ => max k 1 :=
      fun length hi => (sees_closeTemplate _).bind fun _ _ _ => (Sees.pure _).weaken (by omega)
    refine Sees.ite (fun _ => ?_) fun _ => hClose 0 (by omega)
    exact (sees_templateNumber _ _).bind fun length _ _ => hClose length (by omega)
  unfold containerSection
  refine (sees_expectMark _ _).bind fun _ _ _ => Sees.ite (fun _ => ?_) fun _ => hBehind none (by omega)
  refine h.bind fun key _ _ => (sees_expectMark _ _).bind fun _ _ _ => hBehind (some key) (by omega)

/-! ## Types -/

theorem sees_takeWord (text : String) :
    Sees F k (baseTypeText.takeWord text) (baseTypeText.takeWord text) s fun _ _ => max k 1 := by
  unfold baseTypeText.takeWord
  refine sees_next.bind fun t _ _ => Sees.ite (fun _ => (Sees.pure _).weaken (after_le k t)) fun _ => ?_
  exact (sees_putBack_after t).bind fun _ _ _ => .pure _

theorem sees_baseTypeText (t : Token) :
    Sees F k (baseTypeText t) (baseTypeText t) s fun _ _ => max k 1 := by
  unfold baseTypeText
  refine Sees.ite (fun _ => ?_) fun _ => Sees.ite (fun _ => ?_) fun _ =>
    (Sees.pure _).weaken (Nat.le_max_left k 1)
  · refine sees_next.bind fun v _ _ => Sees.ite (fun _ => (Sees.pure _).weaken (after_le k v)) fun _ => ?_
    exact (sees_putBack_after v).bind fun _ _ _ => .pure _
  · refine sees_next.bind fun v _ _ => Sees.ite (fun _ => (Sees.pure _).weaken (after_le k v)) fun _ =>
      Sees.ite (fun _ => ?_) fun _ => sees_failAtToken _ _ _
    have hLe := after_le k v
    exact (sees_takeWord "long").bind fun _ _ _ =>
      Sees.ite (fun _ => (Sees.pure _).weaken (by omega)) fun _ => (Sees.pure _).weaken (by omega)

theorem sees_elaboratedType (scope : EntityId) (base : BaseType) (kind : EntityKind) (keyword : Token) :
    Sees F k (elaboratedType scope base kind keyword) (elaboratedType scope base kind keyword) s
      fun _ _ => max k 1 := by
  unfold elaboratedType
  refine sees_next.bind fun first _ _ => (sees_readTypeName _ _).bind fun r _ _ => Sees.tree ?_
  have hLe := after_le k first
  exact Sees.ite (fun _ => sees_failAtToken_bind _ _ _) fun _ => (Sees.pure _).weaken (by omega)

theorem sees_namedType (scope : EntityId) (first : Token) :
    Sees F k (namedType scope first) (namedType scope first) s fun _ _ => max k 1 := by
  unfold namedType
  refine (sees_readTypeName _ _).bind fun r _ _ => Sees.entity ?_
  split
  · exact .pure _
  · exact sees_failAtToken _ _ _

theorem sees_baseType {element element' : Parsing DeclaredType} (h : SeesType F element element')
    (scope : EntityId) (keyword : Token) (base : BaseType) (text : String) :
    Sees F k (baseType element scope keyword base text) (baseType element' scope keyword base text) s
      fun _ _ => max k 1 := by
  have hPlain : ∀ {s : Session} {j : Nat} (type : DeclaredType), j ≤ max k 1 →
      Sees F j (Pure.pure type) (Pure.pure type) s fun _ _ => max k 1 :=
    fun type hj => (Sees.pure _).weaken hj
  unfold baseType
  split
  · exact sees_elaboratedType _ _ _ _
  · refine Sees.ite (fun _ => ?_) fun _ => Sees.ite (fun _ => ?_) fun _ =>
      Sees.ite (fun _ => sees_bitfieldSection h _) fun _ =>
        Sees.ite (fun _ => sees_containerSection h _) fun _ => hPlain _ (Nat.le_max_left k 1)
    · refine (sees_takeIf "<").bind fun bounded _ _ =>
        Sees.ite (fun _ => ?_) fun _ => hPlain _ (Nat.le_refl _)
      exact sees_fixedBounds.bind fun r _ _ => hPlain _ (by omega)
    · refine (sees_takeIf "<").bind fun bounded _ _ =>
        Sees.ite (fun _ => ?_) fun _ => hPlain _ (Nat.le_refl _)
      refine (sees_templateNumber _ _).bind fun length _ _ => ?_
      exact (sees_closeTemplate _).bind fun _ _ _ => hPlain _ (by omega)

theorem sees_typeWithin (scope : EntityId) {n n' : Nat} (hn : n ≤ n') :
    SeesType F (typeWithin scope n) (typeWithin scope n') := by
  induction n generalizing n' with
  | zero => exact sees_fail _ _
  | succ n ih =>
    obtain ⟨n', rfl⟩ := Nat.exists_eq_add_of_lt hn
    intro k s
    unfold typeWithin
    refine sees_next.bind fun t u _ => ?_
    refine Sees.ite (fun _ => sees_failAtToken_bind _ _ _) fun hType => ?_
    have hFinish : t.isFinish = false := by
      cases hWord : t.isWord with
      | true => exact Token.not_isFinish_of_isWord hWord
      | false =>
        rw [hWord, Bool.false_or, Bool.not_eq_true', Bool.not_eq_false] at hType
        exact Token.not_isFinish_of_is hType
    rw [after_of_not_isFinish hFinish]
    refine (sees_baseTypeText t).bind fun text v _ => Sees.get fun s₁ s₂ hEnv hEnv' => ?_
    rw [hEnv, hEnv']
    split
    · exact (sees_baseType (ih (Nat.le_add_right _ _)) _ _ _ _).weaken (by omega)
    · exact (sees_namedType _ _).weaken (by omega)

/-- A type takes a token at least. -/
theorem sees_readType (scope : EntityId) :
    Sees F k (readType scope) (readType scope) s fun _ _ => max (k - 1) 1 :=
  Sees.tokensLeft fun _ _ hn => sees_typeWithin scope hn

/-! ## Parts of declarators -/

theorem sees_declarationName : Sees F k declarationName declarationName s fun _ _ => k - 1 := by
  unfold declarationName
  refine sees_next.bind fun t u _ => Sees.get fun s₁ s₂ hEnv hEnv' => ?_
  rw [hEnv, hEnv']
  refine Sees.ite (fun hWord => ?_) fun _ => Sees.ite (fun hWord => ?_) fun _ => sees_failAtToken _ _ _
  · rw [after_of_not_isFinish (Token.not_isFinish_of_isKeyword hWord)]
    exact Sees.ite (fun _ => .pure _) fun _ => sees_failAtToken _ _ _
  · rw [after_of_not_isFinish (Token.not_isFinish_of_isWord (Bool.or_eq_true_iff.mpr (Or.inl hWord)))]
    exact .pure _

theorem sees_dimensionTokens {n n' : Nat} (hn : n ≤ n') (depth : Nat) :
    Sees F k (dimensionTokens n depth) (dimensionTokens n' depth) s fun _ _ => k - 1 := by
  induction n generalizing n' depth s k with
  | zero => exact sees_fail _ _
  | succ n ih =>
    obtain ⟨n', rfl⟩ := Nat.exists_eq_add_of_lt hn
    unfold dimensionTokens
    refine sees_next.bind fun t u _ => Sees.ite (fun _ => sees_failAtToken _ _ _) fun hFinish =>
      Sees.ite (fun _ => sees_failAtToken _ _ _) fun _ => ?_
    rw [after_of_not_isFinish (Bool.eq_false_iff.mpr hFinish)]
    refine Sees.ite (fun _ => .pure _) fun _ => ?_
    exact (ih (Nat.le_add_right _ _) _).bind fun ts _ _ => (Sees.pure _).weaken (by omega)

theorem sees_dimensionsWithin (kind : EntityKind) {n n' : Nat} (hn : n ≤ n') (further : Bool) :
    Sees F k (dimensionsWithin kind n further) (dimensionsWithin kind n' further) s
      fun _ _ => max k 1 := by
  induction n generalizing n' further s k with
  | zero => exact sees_fail _ _
  | succ n ih =>
    obtain ⟨n', rfl⟩ := Nat.exists_eq_add_of_lt hn
    unfold dimensionsWithin
    refine (sees_peek 0).bind fun t u _ => Sees.ite (fun _ => .pure _) fun _ => ?_
    refine sees_next.bind fun opening v _ => Sees.get fun s₁ s₂ hEnv hEnv' => ?_
    rw [hEnv, hEnv']
    refine Sees.ite (fun _ => sees_failAtToken _ _ _) fun _ =>
      Sees.ite (fun _ => sees_failAtToken _ _ _) fun _ => Sees.tokensLeft fun _ _ hBudget => ?_
    refine (sees_dimensionTokens hBudget 0).bind fun d _ _ => ?_
    have hLe := after_le (max k (0 + 1)) opening
    exact (ih (Nat.le_add_right _ _) true).bind fun ds _ _ => (Sees.pure _).weaken (by omega)

theorem sees_readDimensions (kind : EntityKind) :
    Sees F k (readDimensions kind) (readDimensions kind) s fun _ _ => max k 1 :=
  Sees.tokensLeft fun _ _ hn => sees_dimensionsWithin kind hn false

/-- The token behind an assignment was taken. -/
theorem sees_assignmentWithin {n n' : Nat} (hn : n ≤ n') (depth : Nat) :
    Sees F k (assignmentWithin n depth) (assignmentWithin n' depth) s fun _ _ => k - 1 := by
  induction n generalizing n' depth s k with
  | zero => exact sees_fail _ _
  | succ n ih =>
    obtain ⟨n', rfl⟩ := Nat.exists_eq_add_of_lt hn
    unfold assignmentWithin
    refine sees_next.bind fun t u _ => Sees.ite (fun _ => sees_failAtToken _ _ _) fun hFinish => ?_
    rw [after_of_not_isFinish (Bool.eq_false_iff.mpr hFinish)]
    refine Sees.ite (fun _ => .pure _) fun _ => ?_
    exact (ih (Nat.le_add_right _ _) _).bind fun r _ _ => (Sees.pure _).weaken (by omega)

theorem sees_readAssignment : Sees F k readAssignment readAssignment s fun _ _ => k - 1 :=
  Sees.tokensLeft fun _ _ hn => sees_assignmentWithin hn 0

theorem sees_readParameter (operation : EntityId) :
    Sees F k (readParameter operation) (readParameter operation) s fun _ _ => max k 1 := by
  unfold readParameter
  refine sees_next.bind fun t _ _ => ?_
  have hLe := after_le k t
  split
  · exact sees_failAtToken _ _ _
  · refine (sees_readType operation).bind fun type _ _ => sees_declarationName.bind fun name _ _ => ?_
    refine Sees.ite (fun _ => sees_failAtToken_bind _ _ _) fun _ => ?_
    refine (sees_addEntity _ _ _ _ _).bind fun id _ _ => (sees_nameEntity _ _ _ _).bind fun id _ _ => ?_
    refine (sees_readDimensions _).bind fun ds _ _ => ?_
    exact (sees_modifyDeclaration _ _).bind fun _ _ _ => (Sees.pure _).weaken (by omega)

theorem sees_parametersWithin (operation : EntityId) {n n' : Nat} (hn : n ≤ n') :
    Sees F k (parametersWithin operation n) (parametersWithin operation n') s fun _ _ => k - 1 := by
  induction n generalizing n' s k with
  | zero => exact sees_fail _ _
  | succ n ih =>
    obtain ⟨n', rfl⟩ := Nat.exists_eq_add_of_lt hn
    unfold parametersWithin
    refine (sees_readParameter operation).bind fun id _ _ => sees_next.bind fun t _ _ => ?_
    refine Sees.ite (fun hMark => ?_) fun _ => Sees.ite (fun hMark => ?_) fun _ => sees_failAtToken _ _ _
    · rw [after_of_is hMark]
      exact (Sees.pure _).weaken (by omega)
    · rw [after_of_is hMark]
      exact (ih (Nat.le_add_right _ _)).bind fun ids _ _ => (Sees.pure _).weaken (by omega)

theorem sees_readParameters (operation : EntityId) :
    Sees F k (readParameters operation) (readParameters operation) s fun _ _ => max k 1 := by
  unfold readParameters
  refine (sees_takeIf ")").bind fun closed _ _ => Sees.ite (fun _ => .pure _) fun _ => ?_
  exact Sees.tokensLeft fun _ _ hn => (sees_parametersWithin operation hn).weaken (by omega)

theorem sees_exceptionsWithin (owner : EntityId) {n n' : Nat} (hn : n ≤ n') :
    Sees F k (exceptionsWithin owner n) (exceptionsWithin owner n') s fun _ _ => k - 1 := by
  induction n generalizing n' s k with
  | zero => exact sees_fail _ _
  | succ n ih =>
    obtain ⟨n', rfl⟩ := Nat.exists_eq_add_of_lt hn
    unfold exceptionsWithin
    refine sees_next.bind fun first _ _ => (sees_readScopedName first).bind fun r _ _ => Sees.tree ?_
    have hLe := after_le k first
    split
    · exact sees_failAtToken _ _ _
    · refine Sees.ite (fun _ => sees_failAtToken_bind _ _ _) fun _ => sees_next.bind fun t _ _ => ?_
      refine Sees.ite (fun hMark => ?_) fun _ => Sees.ite (fun hMark => ?_) fun _ =>
        sees_failAtToken _ _ _
      · rw [after_of_is hMark]
        exact (Sees.pure _).weaken (by omega)
      · rw [after_of_is hMark]
        exact (ih (Nat.le_add_right _ _)).bind fun ids _ _ => (Sees.pure _).weaken (by omega)

theorem sees_readExceptions (owner : EntityId) :
    Sees F k (readExceptions owner) (readExceptions owner) s fun _ _ => k - 1 := by
  unfold readExceptions
  refine sees_next.bind fun t _ _ => Sees.ite (fun _ => sees_failAtToken_bind _ _ _) fun hMark => ?_
  rw [after_of_is (by simpa using hMark)]
  refine (sees_peek 0).bind fun t _ _ => Sees.ite (fun _ => sees_failAtToken_bind _ _ _) fun _ => ?_
  exact Sees.tokensLeft fun _ _ hn => (sees_exceptionsWithin owner hn).weaken (by omega)

/-- The token behind lists of exceptions was taken, as the one in front of them. -/
theorem sees_raisesWithin (owner : EntityId) (kind : EntityKind) (readonly : Bool) {n n' : Nat}
    (hn : n ≤ n') (r : Raises) (t : Token) :
    Sees F (after k t) (raisesWithin owner kind readonly n r t) (raisesWithin owner kind readonly n' r t)
      s fun r _ => after k r.2 := by
  induction n generalizing n' r t s k with
  | zero => exact sees_fail _ _
  | succ n ih =>
    obtain ⟨n', rfl⟩ := Nat.exists_eq_add_of_lt hn
    unfold raisesWithin
    split
    · exact sees_failAtToken _ _ _
    · exact .result (Nat.le_refl _)
    · refine Sees.ite (fun _ => sees_failAtToken_bind _ _ _) fun _ => ?_
      refine (sees_readExceptions owner).bind fun ids _ _ => sees_next.bind fun v _ _ => ?_
      have hLe := after_le k t
      exact (ih (Nat.le_add_right _ _) _ v).mono (Nat.le_refl _) fun r _ _ => after_mono (by omega) r.2

theorem sees_readRaises (owner : EntityId) (kind : EntityKind) (readonly : Bool) (t : Token) :
    Sees F (after k t) (readRaises owner kind readonly t) (readRaises owner kind readonly t) s
      fun r _ => after k r.2 := by
  unfold readRaises
  refine Sees.ite (fun _ => ?_) fun _ => .result (Nat.le_refl _)
  exact Sees.tokensLeft fun _ _ hn => sees_raisesWithin owner kind readonly (Nat.succ_le_succ hn) _ t

/-- Behind parameters another token is taken. -/
theorem sees_readSignature (operation : EntityId) :
    Sees F k (readSignature operation) (readSignature operation) s
      fun r _ => after (max k 1) r.2.2 := by
  unfold readSignature
  refine (sees_expectMark _ _).bind fun _ _ _ => (sees_readParameters operation).bind fun ids _ _ => ?_
  refine sees_next.bind fun t _ _ => Sees.ite (fun _ => sees_next.bind fun v _ _ => ?_) fun _ => ?_
  · have hLe := after_le (max (k - 1) 1) t
    exact .result (after_mono (by omega) v)
  · exact .result (after_mono (by omega) t)

theorem sees_readInitializer (kind : EntityKind) (t : Token) :
    Sees F (after k t) (readInitializer kind t) (readInitializer kind t) s fun r _ => after k r.2 := by
  unfold readInitializer
  refine Sees.ite (fun _ => Sees.ite (fun _ => ?_) fun _ => sees_failAtToken _ _ _) fun _ =>
    Sees.ite (fun _ => sees_failAtToken _ _ _) fun _ => .result (Nat.le_refl _)
  refine sees_readAssignment.mono (Nat.le_refl _) fun r _ _ => ?_
  have hLe := after_le k t
  have hAfter := le_after k r.2
  omega

/-! ## Declarators -/

theorem sees_declare (d : Declarator) (comments : List Token) :
    Sees F k (declare d comments) (declare d comments) s fun _ _ => k := by
  unfold declare
  refine Sees.ite (fun _ => sees_failAtToken_bind _ _ _) fun _ =>
    Sees.ite (fun _ => sees_failAtToken_bind _ _ _) fun _ => ?_
  refine (sees_addEntity _ _ _ _ _).bind fun id _ _ => (sees_nameEntity _ _ _ _).bind fun id _ _ => ?_
  exact (sees_attachBefore _ _).bind fun _ _ _ => .pure _

theorem sees_behindDeclarator (d : Declarator) (id : EntityId) (dimensions : List (List Token))
    (parameters : List EntityId) (constOperation : Bool) (t : Token) :
    Sees F (after (max k 1) t) (do
      let (r, t) ← readRaises d.owner d.kind d.readonly t
      let (assignment, t) ← readInitializer d.kind t
      modifyDeclaration id fun e =>
        { e with
          dimensions, parameters, constOperation, assignment
          raises := r.raises
          getRaises := r.getRaises
          setRaises := r.setRaises }
      attachAfter id t.position.line
      endAt id t
      return (id, t)) (do
      let (r, t) ← readRaises d.owner d.kind d.readonly t
      let (assignment, t) ← readInitializer d.kind t
      modifyDeclaration id fun e =>
        { e with
          dimensions, parameters, constOperation, assignment
          raises := r.raises
          getRaises := r.getRaises
          setRaises := r.setRaises }
      attachAfter id t.position.line
      endAt id t
      return (id, t)) s fun r _ => after (max k 1) r.2 := by
  refine (sees_readRaises _ _ _ t).bind fun r _ _ => (sees_readInitializer _ r.2).bind fun a _ _ => ?_
  refine (sees_modifyDeclaration _ _).bind fun _ _ _ => (sees_attachAfter _ _).bind fun _ _ _ => ?_
  exact (sees_endAt _ _).bind fun _ _ _ => .result (Nat.le_refl _)

/-- The token behind a declarator was taken, and the next one was looked at without need. -/
theorem sees_readDeclarator (d : Declarator) (comments : List Token) :
    Sees F k (readDeclarator d comments) (readDeclarator d comments) s
      fun r _ => after (max k 1) r.2 := by
  unfold readDeclarator
  refine (sees_declare d comments).bind fun id _ _ => ?_
  by_cases hOperation : d.kind = .operation
  · simp only [if_pos hOperation]
    refine (sees_readSignature id).bind ?_
    rintro ⟨parameters, constOperation, t⟩ _ _
    exact sees_behindDeclarator d id [] parameters constOperation t
  · simp only [if_neg hOperation]
    refine (sees_readDimensions d.kind).bind fun dimensions _ _ => sees_next.bind fun t _ _ => ?_
    exact sees_behindDeclarator d id dimensions [] false t

/-! ## Cases -/

theorem sees_labelTokens (isDefault : Bool) {n n' : Nat} (hn : n ≤ n') :
    Sees F k (labelTokens isDefault n) (labelTokens isDefault n') s fun _ _ => k - 1 := by
  induction n generalizing n' s k with
  | zero => exact sees_fail _ _
  | succ n ih =>
    obtain ⟨n', rfl⟩ := Nat.exists_eq_add_of_lt hn
    unfold labelTokens
    refine sees_next.bind fun t _ _ => Sees.ite (fun hMark => ?_) fun _ =>
      Sees.ite (fun _ => sees_failAtToken _ _ _) fun hEnd =>
        Sees.ite (fun _ => sees_failAtToken _ _ _) fun _ => ?_
    · rw [after_of_is hMark]
      exact .pure _
    · have hFinish : t.isFinish = false := by
        rw [Bool.not_eq_true, Bool.or_eq_false_iff] at hEnd
        exact hEnd.1
      rw [after_of_not_isFinish hFinish]
      exact (ih (Nat.le_add_right _ _)).bind fun ts _ _ => (Sees.pure _).weaken (by omega)

theorem sees_readLabel (label : Token) :
    Sees F k (readLabel label) (readLabel label) s fun _ _ => k - 1 := by
  unfold readLabel
  refine Sees.tokensLeft fun _ _ hn => (sees_labelTokens _ hn).bind fun ts _ _ => ?_
  exact Sees.ite (fun _ => sees_failAtToken_bind _ _ _) fun _ => .pure _

theorem sees_followsSoon (text : String) :
    Sees F k (followsSoon text) (followsSoon text) s fun _ _ => max k 3 := by
  unfold followsSoon
  refine (sees_peek 1).bind fun t _ _ => Sees.ite (fun _ => (Sees.pure _).weaken (by omega)) fun _ => ?_
  exact (sees_peek 2).bind fun u _ _ => (Sees.pure _).weaken (by omega)

/-- Behind `struct` and `union` two tokens more are examined. -/
theorem sees_definesNext (t : Token) : Sees F k (definesNext t) (definesNext t) s
    fun _ _ => if t.is "struct" || t.is "union" then max k 3 else k := by
  have hPlain : ∀ {s : Session} {j : Nat} (b : Bool),
      j ≤ (if t.is "struct" || t.is "union" then max k 3 else k) → Sees F j (Pure.pure b) (Pure.pure b) s
        fun _ _ => if t.is "struct" || t.is "union" then max k 3 else k :=
    fun b hj => (Sees.pure b).weaken hj
  unfold definesNext
  by_cases hStruct : t.is "struct" = true
  · rw [if_pos hStruct, hStruct, Bool.true_or, if_pos rfl]
    rw [hStruct, Bool.true_or, if_pos rfl] at hPlain
    refine (sees_followsSoon _).bind fun b _ _ => Sees.ite (fun _ => hPlain _ (Nat.le_refl _)) fun _ =>
      Sees.ite (fun _ => ?_) fun _ => hPlain _ (Nat.le_refl _)
    exact (sees_followsSoon _).weaken (by omega)
  · rw [if_neg hStruct, Bool.eq_false_iff.mpr hStruct, Bool.false_or]
    rw [Bool.eq_false_iff.mpr hStruct, Bool.false_or] at hPlain
    refine (Sees.pure false).bind fun b _ _ => Sees.ite (fun _ => hPlain _ ?_) fun _ =>
      Sees.ite (fun hUnion => ?_) fun _ => hPlain _ ?_
    · split <;> omega
    · rw [if_pos hUnion]
      exact sees_followsSoon _
    · split <;> omega

theorem sees_declareLabel (owner : EntityId) (label : Token) (comments : List Token) :
    Sees F k (declareLabel owner label comments) (declareLabel owner label comments) s fun _ _ => k := by
  unfold declareLabel
  refine (sees_addEntity _ _ _ _ _).bind fun id _ _ => (sees_generateName _).bind fun name _ _ => ?_
  refine (sees_nameEntity _ _ _ _).bind fun id _ _ => (sees_attachBefore _ _).bind fun _ _ _ => ?_
  exact (sees_attachAfter _ _).bind fun _ _ _ => .pure _

theorem sees_readLabelled (owner : EntityId) (label : Token) (comments : List Token) :
    Sees F k (readLabelled owner label comments) (readLabelled owner label comments) s
      fun _ _ => k - 3 := by
  unfold readLabelled
  refine (sees_readType owner).bind fun type _ _ => sees_declarationName.bind fun name _ _ => ?_
  refine (sees_readDeclarator _ _).bind fun r _ _ => Sees.ite (fun hMark => ?_) fun _ =>
    sees_failAtToken _ _ _
  rw [after_of_is hMark]
  exact (Sees.pure _).weaken (by omega)

/-- Behind a label without a declaration the next token stays examined. -/
theorem sees_readCase (owner : EntityId) (label : Token) (comments : List Token) :
    Sees F k (readCase owner label comments) (readCase owner label comments) s fun _ _ => max k 1 := by
  unfold readCase
  refine (sees_readLabel label).bind fun tokens _ _ => (sees_peek 0).bind fun t _ _ => ?_
  refine (sees_definesNext t).bind fun defines _ _ => ?_
  refine Sees.ite (fun _ => sees_failAtToken_bind _ _ _) fun _ => ?_
  have hBehind : ∀ {s : Session} {j : Nat} (id : EntityId), j ≤ max k 1 →
      Sees F j (modifyDeclaration id fun d =>
        { d with
          defaultCase := label.is "default"
          labels := if label.is "default" then d.labels else [tokens] })
        (modifyDeclaration id fun d =>
        { d with
          defaultCase := label.is "default"
          labels := if label.is "default" then d.labels else [tokens] }) s fun _ _ => max k 1 :=
    fun id hj => (sees_modifyDeclaration _ _).weaken hj
  refine Sees.ite (fun hLabel => ?_) fun _ => ?_
  · have hOther : ∀ other ∉ ["case", "default", "\x7d"], t.is other = false := by
      intro other hOther
      obtain ⟨text, hText, hIs⟩ := List.any_eq_true.mp hLabel
      exact Token.not_is_of_is hIs fun hEq => hOther (hEq ▸ hText)
    rw [hOther _ (by decide), hOther _ (by decide), Bool.or_false, if_neg Bool.false_ne_true]
    exact (sees_declareLabel owner label comments).bind fun id _ _ => hBehind id (by omega)
  · refine (sees_readLabelled owner label comments).bind fun id _ _ => hBehind id ?_
    split <;> omega

/-! ## Entries of enumerations -/

theorem sees_readEntry (owner : EntityId) (type : DeclaredType) :
    Sees F k (readEntry owner type) (readEntry owner type) s fun t _ => after (k - 1) t := by
  unfold readEntry
  refine sees_commentsBefore.bind fun comments _ _ => sees_declarationName.bind fun name _ _ => ?_
  refine (sees_addEntity _ _ _ _ _).bind fun id _ _ => (sees_nameEntity _ _ _ _).bind fun id _ _ => ?_
  refine (sees_attachBefore _ _).bind fun _ _ _ => sees_next.bind fun t _ _ => ?_
  have hBehind : ∀ {s : Session} {j : Nat} (t : Token), j ≤ after (k - 1) t → Sees F j (do
        attachAfter id t.position.line
        endAt id t
        return t) (do
        attachAfter id t.position.line
        endAt id t
        return t) s fun t _ => after (k - 1) t :=
    fun t hj => (sees_attachAfter _ _).bind fun _ _ _ => (sees_endAt _ _).bind fun _ _ _ => .result hj
  refine Sees.ite (fun hMark => ?_) fun _ => hBehind t (after_mono (by omega) t)
  rw [after_of_is hMark]
  refine sees_readAssignment.bind fun r _ _ => (sees_modifyDeclaration _ _).bind fun _ _ _ => ?_
  have hLe := le_after (k - 1) r.2
  exact hBehind r.2 (by omega)

theorem sees_entriesWithin (owner : EntityId) (type : DeclaredType) {n n' : Nat} (hn : n ≤ n') :
    Sees F k (entriesWithin owner type n) (entriesWithin owner type n') s fun _ _ => max k 1 := by
  induction n generalizing n' s k with
  | zero => exact sees_fail _ _
  | succ n ih =>
    obtain ⟨n', rfl⟩ := Nat.exists_eq_add_of_lt hn
    unfold entriesWithin
    refine (sees_peek 0).bind fun t _ _ => Sees.ite (fun _ => .pure _) fun _ => ?_
    refine (sees_readEntry owner type).bind fun v _ _ => Sees.ite (fun hMark => ?_) fun _ =>
      Sees.ite (fun hMark => ?_) fun _ => sees_failAtToken _ _ _
    · exact (sees_putBack_after v).weaken (by omega)
    · rw [after_of_is hMark]
      exact (ih (Nat.le_add_right _ _)).weaken (by omega)

end IdlReader.Parsing
