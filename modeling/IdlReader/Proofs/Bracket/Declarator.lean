import IdlReader.Grammar.Case
import IdlReader.Proofs.Bracket.Session
import IdlReader.Proofs.Grammar.DeclaredType

/-!
# Brackets of declarations

Names and types take no brackets, lists of parameters and exceptions take pairs, and what stands
in dimensions, assignments and labels is kept.

* `plain_readType`: types.
* `balances_readDimensions`, `balances_readAssignment`, `balances_readLabel`: what is kept.
* `clears_readDeclarator`, `plain_readCase`: declarations.
-/

namespace IdlReader.Parsing

open IdlReader.Tree

variable {s : Session} {us : List Bracket}

/-! ## Names -/

/-- A scoped name starts with the text of its first token. -/
theorem balances_scopedNameRest (n : Nat) (name : String) (last : Token) (us : List Bracket) :
    Balances us (scopedNameRest n name last) (fun _ => us)
      fun r => ∃ tail, r.1 = name ++ tail := by
  induction n generalizing name last with
  | zero => exact .fail _
  | succ n ih =>
    unfold scopedNameRest
    -- Behind what separates two names stands the next of them.
    have hSegment : ∀ tail : String, Balances us (do
        let t ← next
        if t.isIdentifier then scopedNameRest n (name ++ tail ++ t.text) t
        else failAtToken .identifierExpected t) (fun _ => us)
          fun r => ∃ tail, r.1 = name ++ tail := by
      intro tail
      refine (balances_next us).bind fun t ht => .ite (fun hWord => ?_) fun _ => .failAtToken _ _
      have hPlain := brackets_of_isWord (by rw [Token.isWord, hWord, Bool.true_or]) ht.lexical
      refine Balances.drop hPlain ((ih _ _).mono ?_)
      rintro r ⟨tail', hName⟩
      exact ⟨tail ++ t.text ++ tail', by rw [hName]; simp only [String.append_assoc]⟩
    refine .ite (fun _ => ?_) fun _ => ?_
    · have hHere := hSegment ""
      rw [String.append_empty] at hHere
      exact hHere
    refine (balances_next us).bind fun t ht => .ite (fun hMark => ?_) fun _ => ?_
    · exact Balances.drop (brackets_of_mark hMark rfl) (hSegment "::")
    · exact (balances_putBack ht us).bind fun _ _ =>
        .pure (.refl _) ⟨"", (String.append_empty).symm⟩

theorem balances_readScopedName (first : Token) (us : List Bracket) :
    Balances us (readScopedName first) (fun _ => us) fun r => ∃ tail, r.1 = first.text ++ tail :=
  .tokensLeft fun _ => balances_scopedNameRest _ _ _ us

/-- The first token of the name of a type is no bracket: nothing would be found. -/
theorem brackets_of_findType {t : Tree} (hWorded : t.Worded) {first : Token} {scope id : EntityId}
    {name : String} (hName : ∃ tail, name = first.text ++ tail)
    (hFound : t.findType scope name = some id) : brackets [first] = [] := by
  obtain ⟨tail, rfl⟩ := hName
  refine brackets_of_markOf (Decidable.byContradiction fun hMark => ?_)
  rw [hWorded.findType_bracket hMark] at hFound
  cases hFound

theorem balances_readTypeName (scope : EntityId) (first : Token) (us : List Bracket) :
    Balances (us ++ brackets [first]) (readTypeName scope first) (fun _ => us) fun _ => True := by
  unfold readTypeName
  refine (balances_readScopedName first _).bind ?_
  rintro ⟨name, last⟩ hName
  refine .tree fun t hWorded => ?_
  split
  · rename_i id hFound
    exact Balances.drop (brackets_of_findType hWorded hName hFound) (.pure (.refl _) trivial)
  · exact .failAtToken _ _

theorem balances_expectMark (text : String) (cause : Cause) (us : List Bracket) :
    Balances us (expectMark text cause) (fun _ => us ++ markOf text) fun _ => True := by
  refine (balances_next us).bind fun t _ => .ite (fun hMark => ?_) fun _ => .failAtToken _ _
  rw [brackets_of_is hMark]
  exact .pure (.refl _) trivial

/-- A mark that is no bracket. -/
theorem plain_expectMark {text : String} (hText : markOf text = []) (cause : Cause) :
    Plain (expectMark text cause) := by
  intro us
  have hMark := balances_expectMark text cause us
  rwa [hText, List.append_nil] at hMark

theorem balances_takeIf (text : String) (us : List Bracket) :
    Balances us (takeIf text) (fun taken => us ++ if taken then markOf text else [])
      fun _ => True := by
  intro s hs
  unfold takeIf
  refine (clears_ahead hs us).bind (Nat.le_refl _) fun t s₁ hs₁ hSpares hAhead => ?_
  split
  · rename_i hMark
    refine (clears_taken hs₁ (hAhead.1 (Token.not_isFinish_of_is hMark)) us).bind hSpares.size
      fun _ s₂ hs₂ hSpares₂ _ => .pure hs₂ (Nat.le_trans hSpares.size hSpares₂.size) ?_ trivial
    rw [brackets_of_is hMark]
    exact .refl _
  · refine .pure hs₁ hSpares.size ?_ trivial
    rw [if_neg Bool.false_ne_true, List.append_nil]
    exact .refl _

/-- A mark that is no bracket. -/
theorem plain_takeIf {text : String} (hText : markOf text = []) : Plain (takeIf text) := by
  intro us
  have hMark := balances_takeIf text us
  simp only [hText, ite_self, List.append_nil] at hMark
  exact hMark

/-! ## Types -/

theorem plain_orThrow {α : Type} (x : Except Fault α) :
    Plain (Expression.orThrow x : Parsing α) := by
  intro us
  cases x with
  | ok a => exact .pure (.refl _) trivial
  | error f => exact .throw f

theorem plain_templateNumber (least : Nat) (cause : Cause) :
    Plain (templateNumber least cause) := by
  intro us
  unfold templateNumber
  refine (balances_next us).bind fun t _ => ?_
  split
  · rename_i kind hKind
    have hPlain : brackets [t] = [] := brackets_of_not_isPlain (by rw [Token.isPlain, hKind])
    refine Balances.drop hPlain ((plain_orThrow _ us).bind fun c _ => ?_)
    refine .ite (fun _ => .failAtToken _ _) fun _ => ?_
    split
    · exact .ite (fun _ => .pure (.refl _) trivial) fun _ => .failAtToken _ _
    · exact .failAtToken _ _
  · exact .failAtToken _ _

theorem plain_closeTemplate (cause : Cause) : Plain (closeTemplate cause) := by
  intro us
  unfold closeTemplate
  refine (balances_next us).bind fun t ht => .ite (fun hMark => ?_) fun _ => .ite (fun hMark => ?_)
    fun _ => .failAtToken _ _
  · refine Balances.drop (brackets_of_mark hMark rfl)
      (plain_putBack (proper_of_not_isWord (isWord_half ht.lexical hMark)) ?_ us)
    exact brackets_of_markOf rfl
  · exact Balances.drop (brackets_of_mark hMark rfl) (.pure (.refl _) trivial)

theorem plain_fixedBounds : Plain fixedBounds := by
  intro us
  unfold fixedBounds
  refine (plain_templateNumber _ _ us).bind fun length _ => ?_
  refine (plain_expectMark rfl _ us).bind fun _ _ => ?_
  refine (balances_peek 0 us).bind fun t _ => ?_
  refine (plain_templateNumber _ _ us).bind fun decimals _ => ?_
  refine .ite (fun _ => .failAtToken_bind _ _) fun _ => ?_
  exact (plain_closeTemplate _ us).bind fun _ _ => .pure (.refl _) trivial

theorem plain_bitfieldSection {element : Parsing DeclaredType} (hElement : Plain element)
    (type : DeclaredType) : Plain (bitfieldSection element type) := by
  intro us
  unfold bitfieldSection
  refine (plain_expectMark rfl _ us).bind fun _ _ => ?_
  refine (balances_peek 0 us).bind fun t _ => (plain_templateNumber _ _ us).bind fun bits _ => ?_
  refine .ite (fun _ => .failAtToken_bind _ _) fun _ => ?_
  have hClose : ∀ value : Option DeclaredType, Balances us (do
      closeTemplate .templateClose
      return { type with length := bits, value }) (fun _ => us) fun (_ : DeclaredType) => True :=
    fun _ => (plain_closeTemplate _ us).bind fun _ _ => .pure (.refl _) trivial
  refine (plain_takeIf rfl us).bind fun more _ => .ite (fun _ => ?_) fun _ => hClose _
  exact (hElement us).bind fun value _ => .ite (fun _ => hClose _) fun _ => .failAtToken_bind _ _

theorem plain_containerSection {element : Parsing DeclaredType} (hElement : Plain element)
    (type : DeclaredType) : Plain (containerSection element type) := by
  intro us
  unfold containerSection
  refine (plain_expectMark rfl _ us).bind fun _ _ => ?_
  have hClose : ∀ (key value : Option DeclaredType) (length : Nat), Balances us (do
      closeTemplate .templateClose
      return { type with length, key, value }) (fun _ => us) fun (_ : DeclaredType) => True :=
    fun _ _ _ => (plain_closeTemplate _ us).bind fun _ _ => .pure (.refl _) trivial
  have hValue : ∀ key : Option DeclaredType, Balances us (do
      let value ← element
      let length ← if ← takeIf "," then templateNumber 1 .sizeNumber else pure 0
      closeTemplate .templateClose
      return { type with length, key, value := some value }) (fun _ => us)
      fun (_ : DeclaredType) => True := by
    intro key
    refine (hElement us).bind fun value _ => (plain_takeIf rfl us).bind fun _ _ => ?_
    refine .ite (fun _ => ?_) fun _ => hClose _ _ _
    exact (plain_templateNumber _ _ us).bind fun _ _ => hClose _ _ _
  refine .ite (fun _ => ?_) fun _ => hValue none
  exact (hElement us).bind fun key _ => (plain_expectMark rfl _ us).bind fun _ _ =>
    hValue (some key)

theorem plain_takeWord {text : String} (hText : markOf text = []) :
    Plain (baseTypeText.takeWord text) := fun us =>
  (balances_next us).bind fun _ ht => .ite
    (fun hMark => Balances.drop (brackets_of_mark hMark hText) (.pure (.refl _) trivial))
    fun _ => (balances_putBack ht us).bind fun _ _ => .pure (.refl _) trivial

theorem plain_baseTypeText (t : Token) : Plain (baseTypeText t) := by
  intro us
  unfold baseTypeText
  refine .ite (fun _ => ?_) fun _ => .ite (fun _ => ?_) fun _ => .pure (.refl _) trivial
  · refine (balances_next us).bind fun u hu => .ite (fun hMark => ?_) fun _ => ?_
    · exact Balances.drop (brackets_of_isOneOf hMark (by decide)) (.pure (.refl _) trivial)
    · exact (balances_putBack hu us).bind fun _ _ => .pure (.refl _) trivial
  · refine (balances_next us).bind fun u hu => .ite (fun hMark => ?_) fun _ =>
      .ite (fun hMark => ?_) fun _ => .failAtToken _ _
    · exact Balances.drop (brackets_of_mark hMark rfl) (.pure (.refl _) trivial)
    · refine Balances.drop (brackets_of_mark hMark rfl) ((plain_takeWord rfl us).bind fun _ _ => ?_)
      exact .ite (fun _ => .pure (.refl _) trivial) fun _ => .pure (.refl _) trivial

theorem plain_elaboratedType (scope : EntityId) (base : BaseType) (kind : EntityKind)
    (keyword : Token) : Plain (elaboratedType scope base kind keyword) := by
  intro us
  unfold elaboratedType
  refine (balances_next us).bind fun first _ => (balances_readTypeName scope first us).bind ?_
  rintro ⟨name, id⟩ _
  exact .tree fun t _ => .ite (fun _ => .failAtToken_bind _ _) fun _ => .pure (.refl _) trivial

/-- The name of a type whose first token is in hand. -/
theorem balances_namedType (scope : EntityId) (first : Token) (us : List Bracket) :
    Balances (us ++ brackets [first]) (namedType scope first) (fun _ => us) fun _ => True := by
  unfold namedType
  refine (balances_readTypeName scope first us).bind ?_
  rintro ⟨name, id⟩ _
  refine .entity fun e => ?_
  split
  · exact .pure (.refl _) trivial
  · exact .failAtToken _ _

theorem plain_baseType {element : Parsing DeclaredType} (hElement : Plain element)
    (scope : EntityId) (keyword : Token) (base : BaseType) (text : String) :
    Plain (baseType element scope keyword base text) := by
  intro us
  unfold baseType
  dsimp only
  split
  · exact plain_elaboratedType scope base _ keyword us
  · refine .ite (fun _ => ?_) fun _ => .ite (fun _ => ?_) fun _ =>
      .ite (fun _ => plain_bitfieldSection hElement _ us) fun _ =>
        .ite (fun _ => plain_containerSection hElement _ us) fun _ => .pure (.refl _) trivial
    · refine (plain_takeIf rfl us).bind fun _ _ => .ite (fun _ => ?_) fun _ =>
        .pure (.refl _) trivial
      exact (plain_fixedBounds us).bind fun _ _ => .pure (.refl _) trivial
    · refine (plain_takeIf rfl us).bind fun _ _ => .ite (fun _ => ?_) fun _ =>
        .pure (.refl _) trivial
      exact (plain_templateNumber _ _ us).bind fun _ _ => (plain_closeTemplate _ us).bind
        fun _ _ => .pure (.refl _) trivial

theorem plain_typeWithin (scope : EntityId) (n : Nat) : Plain (typeWithin scope n) := by
  induction n with
  | zero => exact fun _ => .fail _
  | succ n ih =>
    intro us
    unfold typeWithin
    refine (balances_next us).bind fun t ht => ?_
    refine .ite (fun _ => .failAtToken_bind _ _) fun hStarts => ?_
    refine (plain_baseTypeText t _).bind fun text _ => .get fun s => ?_
    split
    · have hPlain : brackets [t] = [] := by
        rw [Bool.not_eq_true, Bool.not_eq_false'] at hStarts
        rcases Bool.or_eq_true_iff.mp hStarts with hWord | hMark
        · exact brackets_of_isWord hWord ht.lexical
        · exact brackets_of_mark hMark rfl
      exact Balances.drop hPlain (plain_baseType ih scope t _ _ us)
    · exact balances_namedType scope t us

theorem plain_readType (scope : EntityId) : Plain (readType scope) := fun us =>
  .tokensLeft fun _ => plain_typeWithin scope _ us

/-! ## Dimensions and assignments -/

theorem balances_declarationName (us : List Bracket) :
    Balances us declarationName (fun _ => us) fun t => IsName t.text := by
  unfold declarationName
  refine (balances_next us).bind fun t ht => .get fun s => ?_
  have hName : t.isWord = true → Balances (us ++ brackets [t]) (pure t) (fun _ => us)
      fun t => IsName t.text := fun hWord =>
    Balances.drop (brackets_of_isWord hWord ht.lexical) (.pure (.refl _) (ht.lexical hWord))
  refine .ite (fun hKeyword => .ite (fun _ => hName ?_) fun _ => .failAtToken _ _) fun _ =>
    .ite (fun hIdentifier => hName ?_) fun _ => .failAtToken _ _
  · rw [Token.isWord, hKeyword, Bool.or_true]
  · rw [Token.isWord, hIdentifier, Bool.true_or]

/-- The brackets of dimensions. -/
def dimensionBrackets (dimensions : List (List Token)) : List Bracket :=
  dimensions.flatMap fun ts =>
    Bracket.opening .square :: (brackets ts ++ [Bracket.closing .square])

/-- Dimensions amount to nothing if each of them is bracketed. -/
theorem amounts_dimensionBrackets {dimensions : List (List Token)}
    (h : ∀ ts ∈ dimensions, Bracketed (brackets ts)) :
    Amounts (dimensionBrackets dimensions) [] := by
  induction dimensions with
  | nil => exact .refl _
  | cons ts dimensions ih =>
    obtain ⟨hFirst, hRest⟩ := List.forall_mem_cons.mp h
    exact (amounts_pair .square (amounts_of_bracketed hFirst)).append (ih hRest)

theorem balances_dimensionTokens (n depth : Nat) (us : List Bracket) :
    Balances us (dimensionTokens n depth) (fun ts => us ++ (brackets ts ++ [Bracket.closing .square]))
      Lexical := by
  induction n generalizing us depth with
  | zero => exact .fail _
  | succ n ih =>
    unfold dimensionTokens
    refine (balances_next us).bind fun t ht => .ite (fun _ => .failAtToken _ _) fun _ =>
      .ite (fun _ => .failAtToken _ _) fun _ => .ite (fun hClose => ?_) fun _ => ?_
    · rw [brackets_of_is (Bool.and_eq_true_iff.mp hClose).1]
      exact .pure (.refl _) lexical_nil
    · refine (ih _ _).bind fun ts hts => .pure ?_ (lexical_cons.mpr ⟨ht.lexical, hts⟩)
      rw [brackets_cons t ts]
      simp only [List.append_assoc]
      exact .refl _

theorem balances_dimensionsWithin (kind : EntityKind) (n : Nat) (further : Bool)
    (us : List Bracket) :
    Balances us (dimensionsWithin kind n further)
      (fun dimensions => us ++ dimensionBrackets dimensions)
      fun dimensions => ∀ ts ∈ dimensions, Lexical ts := by
  induction n generalizing us further with
  | zero => exact .fail _
  | succ n ih =>
    intro s hs
    unfold dimensionsWithin
    refine (clears_ahead hs us).bind (Nat.le_refl _) fun t s₁ hs₁ hSpares hAhead => ?_
    split
    · refine .pure hs₁ hSpares.size ?_ fun _ h => absurd h List.not_mem_nil
      rw [dimensionBrackets, List.flatMap_nil, List.append_nil]
      exact .refl _
    · rename_i hOpen
      have hOpen : t.is "[" = true := by simpa using hOpen
      refine (clears_taken hs₁ (hAhead.1 (Token.not_isFinish_of_is hOpen)) us).bind hSpares.size
        fun opening s₂ hs₂ hSpares₂ hSame => ?_
      rw [hSame, brackets_of_is hOpen]
      refine Clears.weaken ?_ (Nat.le_trans hSpares.size hSpares₂.size)
      refine Balances.get (fun s => ?_) s₂ hs₂
      refine .ite (fun _ => .failAtToken _ _) fun _ => .ite (fun _ => .failAtToken _ _) fun _ => ?_
      refine .tokensLeft fun budget => (balances_dimensionTokens _ _ _).bind fun d hd => ?_
      refine (ih _ _).bind fun ds hds => .pure ?_ (List.forall_mem_cons.mpr ⟨hd, hds⟩)
      have hMark : markOf "[" = [.opening .square] := rfl
      rw [dimensionBrackets, dimensionBrackets, List.flatMap_cons, hMark]
      simp only [List.append_assoc, List.cons_append, List.nil_append]
      exact .refl _

theorem balances_readDimensions (kind : EntityKind) (us : List Bracket) :
    Balances us (readDimensions kind) (fun dimensions => us ++ dimensionBrackets dimensions)
      fun dimensions => ∀ ts ∈ dimensions, Lexical ts :=
  .tokensLeft fun _ => balances_dimensionsWithin kind _ _ us

/-- The brackets of an assignment and of the token behind it. -/
def assignmentBrackets (r : List Token × Token) : List Bracket := brackets r.1 ++ brackets [r.2]

/-- Whether the words of an assignment and of the token behind it are names. -/
def AssignmentLexical (r : List Token × Token) : Prop := Lexical r.1 ∧ r.2.Proper

theorem balances_assignmentWithin (n depth : Nat) (us : List Bracket) :
    Balances us (assignmentWithin n depth) (fun r => us ++ assignmentBrackets r)
      AssignmentLexical := by
  induction n generalizing us depth with
  | zero => exact .fail _
  | succ n ih =>
    unfold assignmentWithin
    refine (balances_next us).bind fun t ht => .ite (fun _ => .failAtToken _ _) fun _ =>
      .ite (fun _ => .pure (.refl _) ⟨lexical_nil, ht⟩) fun _ => (ih _ _).bind ?_
    rintro ⟨ts, terminator⟩ ⟨hts, hTerminator⟩
    refine .pure ?_ ⟨lexical_cons.mpr ⟨ht.lexical, hts⟩, hTerminator⟩
    rw [assignmentBrackets, assignmentBrackets, brackets_cons t ts]
    simp only [List.append_assoc]
    exact .refl _

theorem balances_readAssignment (us : List Bracket) :
    Balances us readAssignment (fun r => us ++ assignmentBrackets r) AssignmentLexical :=
  .tokensLeft fun _ => balances_assignmentWithin _ _ us

/-! ## Parameters -/

theorem isWord_of_direction? {t : Token} {d : Direction} (h : direction? t = some d) :
    t.isWord = true := by
  unfold direction? at h
  split at h
  · cases h
  · rename_i hKeyword
    rw [Bool.not_eq_true, Bool.not_eq_false'] at hKeyword
    rw [Token.isWord, hKeyword, Bool.or_true]

/-- A parameter keeps its dimensions. -/
theorem plain_readParameter (operation : EntityId) : Plain (readParameter operation) := by
  intro us
  unfold readParameter
  refine (balances_next us).bind fun t ht => ?_
  split
  · exact .failAtToken _ _
  · rename_i direction hDirection
    refine Balances.drop (brackets_of_isWord (isWord_of_direction? hDirection) ht.lexical) ?_
    refine (plain_readType operation us).bind fun type _ => ?_
    refine (balances_declarationName us).bind fun name hName => ?_
    refine .ite (fun _ => .failAtToken_bind _ _) fun _ s hs => ?_
    refine clears_added hs (Nat.le_refl _) rfl hName false fun id s₁ hs₁ hFresh hLe hw => ?_
    refine (balances_readDimensions .parameter us s₁ hs₁).bind hLe
      fun dimensions s₂ hs₂ hSpares hLexical => ?_
    have hw₂ := (hSpares.written id (lt_of_written? hw)).trans hw
    refine (clears_modifyDeclaration hs₂ hFresh hw₂ { kind := .parameter, dimensions } us ?_
      (fun _ => Written.closed_empty _) fun hClosed => ?_).bind (Nat.le_refl _)
      fun _ s₃ hs₃ hSpares₃ _ => .pure hs₃ hSpares₃.size (.refl _) trivial
    · intro d hd
      rw [Declaration.written, Written.mk.injEq] at hd ⊢
      exact ⟨rfl, rfl, hd.2.2⟩
    · exact (amounts_dimensionBrackets fun ts hts =>
        hClosed.dimensions ts hts (hLexical ts hts)).drop us

theorem balances_parametersWithin (operation : EntityId) (n : Nat) (us : List Bracket) :
    Balances us (parametersWithin operation n) (fun _ => us ++ [Bracket.closing .round])
      fun _ => True := by
  induction n generalizing us with
  | zero => exact .fail _
  | succ n ih =>
    unfold parametersWithin
    refine (plain_readParameter operation us).bind fun id _ => ?_
    refine (balances_next us).bind fun t _ => .ite (fun hClose => ?_) fun _ =>
      .ite (fun hComma => ?_) fun _ => .failAtToken _ _
    · rw [brackets_of_is hClose]
      exact .pure (.refl _) trivial
    · exact Balances.drop (brackets_of_mark hComma rfl)
        ((ih us).bind fun _ _ => .pure (.refl _) trivial)

theorem balances_readParameters (operation : EntityId) (us : List Bracket) :
    Balances us (readParameters operation) (fun _ => us ++ [Bracket.closing .round]) fun _ => True := by
  refine (balances_takeIf ")" us).bind fun taken _ => .ite (fun hTaken => ?_) fun hTaken => ?_
  · rw [if_pos hTaken]
    exact .pure (.refl _) trivial
  · rw [if_neg hTaken, List.append_nil]
    exact .tokensLeft fun _ => balances_parametersWithin operation _ us

/-! ## Exceptions -/

theorem balances_exceptionsWithin (owner : EntityId) (n : Nat) (us : List Bracket) :
    Balances us (exceptionsWithin owner n) (fun _ => us ++ [Bracket.closing .round]) fun _ => True := by
  induction n generalizing us with
  | zero => exact .fail _
  | succ n ih =>
    unfold exceptionsWithin
    refine (balances_next us).bind fun first _ => (balances_readScopedName first _).bind ?_
    rintro ⟨name, last⟩ hName
    refine .tree fun t hWorded => ?_
    split
    · exact .failAtToken _ _
    · rename_i found hFound
      refine Balances.drop (brackets_of_findType hWorded hName hFound) ?_
      refine .ite (fun _ => .failAtToken_bind _ _) fun _ => ?_
      refine (balances_next us).bind fun u _ => .ite (fun hClose => ?_) fun _ =>
        .ite (fun hComma => ?_) fun _ => .failAtToken _ _
      · rw [brackets_of_is hClose]
        exact .pure (.refl _) trivial
      · exact Balances.drop (brackets_of_mark hComma rfl)
          ((ih us).bind fun _ _ => .pure (.refl _) trivial)

/-- A pair of round brackets with nothing between them. -/
theorem amounts_round (us : List Bracket) :
    Amounts (us ++ markOf "(" ++ [Bracket.closing .round]) us := by
  rw [List.append_assoc]
  exact (amounts_pair .round (.refl [])).drop us

theorem plain_readExceptions (owner : EntityId) : Plain (readExceptions owner) := by
  intro us
  unfold readExceptions
  refine (balances_next us).bind fun t _ => .ite (fun _ => .failAtToken_bind _ _) fun hOpen => ?_
  rw [Bool.not_eq_true, Bool.not_eq_false'] at hOpen
  rw [brackets_of_is hOpen]
  refine (balances_peek 0 _).bind fun u _ => .ite (fun _ => .failAtToken_bind _ _) fun _ => ?_
  exact .tokensLeft fun _ =>
    (balances_exceptionsWithin owner _ _).settle fun _ _ => amounts_round us

theorem brackets_of_ofToken? {kind : EntityKind} {readonly : Bool} {t : Token} {l : RaisesList}
    (h : RaisesList.ofToken? kind readonly t = .ok (some l)) : brackets [t] = [] := by
  unfold RaisesList.ofToken? at h
  split at h
  · rename_i hMark
    exact brackets_of_mark hMark rfl
  · split at h
    · rename_i hMark
      exact brackets_of_isOneOf hMark (by decide)
    · cases h

theorem balances_raisesWithin (owner : EntityId) (kind : EntityKind) (readonly : Bool) (n : Nat)
    (r : Raises) {t : Token} (ht : t.Proper) (us : List Bracket) :
    Balances (us ++ brackets [t]) (raisesWithin owner kind readonly n r t)
      (fun r => us ++ brackets [r.2]) fun r => r.2.Proper := by
  induction n generalizing r t with
  | zero => exact .fail _
  | succ n ih =>
    unfold raisesWithin
    split
    · exact .failAtToken _ _
    · exact .pure (.refl _) ht
    · rename_i l hOpens
      refine Balances.drop (brackets_of_ofToken? hOpens) ?_
      refine .ite (fun _ => .failAtToken_bind _ _) fun _ => ?_
      exact (plain_readExceptions owner us).bind fun ids _ =>
        (balances_next us).bind fun u hu => ih _ hu

theorem balances_readRaises (owner : EntityId) (kind : EntityKind) (readonly : Bool) {t : Token}
    (ht : t.Proper) (us : List Bracket) :
    Balances (us ++ brackets [t]) (readRaises owner kind readonly t)
      (fun r => us ++ brackets [r.2]) fun r => r.2.Proper :=
  .ite (fun _ => .tokensLeft fun _ => balances_raisesWithin owner kind readonly _ _ ht us)
    fun _ => .pure (.refl _) ht

/-! ## Declarators -/

theorem balances_readSignature (operation : EntityId) (us : List Bracket) :
    Balances us (readSignature operation) (fun r => us ++ brackets [r.2.2])
      fun r => r.2.2.Proper := by
  unfold readSignature
  refine (balances_expectMark "(" _ us).bind fun _ _ => ?_
  refine (balances_readParameters operation _).bind fun parameters _ => ?_
  refine Balances.hand ?_ (amounts_round us)
  refine (balances_next us).bind fun t ht => .ite (fun hConst => ?_) fun _ => .pure (.refl _) ht
  exact Balances.drop (brackets_of_mark hConst rfl)
    ((balances_next us).bind fun u hu => .pure (.refl _) hu)

/-- Only what supports assignments gets one. -/
theorem balances_readInitializer (kind : EntityKind) {t : Token} (ht : t.Proper)
    (us : List Bracket) :
    Balances (us ++ brackets [t]) (readInitializer kind t) (fun r => us ++ assignmentBrackets r)
      fun r => AssignmentLexical r ∧ (kind.supportsAssignment = false → r.1 = []) := by
  refine .ite (fun hMark => .ite (fun hKind => ?_) fun _ => .failAtToken _ _) fun _ =>
    .ite (fun _ => .failAtToken _ _) fun _ => .pure (.refl _) ⟨⟨lexical_nil, ht⟩, fun _ => rfl⟩
  refine Balances.drop (brackets_of_mark hMark rfl) ((balances_readAssignment us).mono ?_)
  exact fun r hr => ⟨hr, fun hNot => absurd (hKind.symm.trans hNot) Bool.noConfusion⟩

/-- Whether an entity was added behind the first `n` ones and is a declaration that keeps what has
a property. -/
def Kept (n : Nat) (P : Written → Prop) (id : EntityId) (s : Session) : Prop :=
  n ≤ id ∧ ∃ w, (s.tree.get id).written? = some w ∧ P w

/-- Whether a declaration of a kind keeps no labels. -/
def Unlabelled (kind : EntityKind) (w : Written) : Prop := w.kind = kind ∧ w.labels = []

theorem Kept.spares {n m : Nat} {P : Written → Prop} {id : EntityId} {s u : Session}
    (h : Kept n P id s) (hSpares : s.tree.Spares m u.tree) (hLe : s.tree.size ≤ m) :
    Kept n P id u := by
  obtain ⟨hFresh, w, hw, hP⟩ := h
  exact ⟨hFresh, w, (hSpares.written id (Nat.lt_of_lt_of_le (lt_of_written? hw) hLe)).trans hw, hP⟩

theorem clears_declare (hs : s.Tidy) {d : Declarator} (hName : IsName d.name.text)
    (comments : List Token) (us : List Bracket) :
    Clears s.tree.size us (declare d comments) s (fun _ => us)
      (Kept s.tree.size fun w => w = { kind := d.kind }) := by
  unfold declare
  refine .ite (fun _ => .failAtToken_bind _ _) fun _ =>
    .ite (fun _ => .failAtToken_bind _ _) fun _ => ?_
  refine clears_added hs (Nat.le_refl _) rfl hName true fun id s₁ hs₁ hFresh hLe hw => ?_
  refine (plain_attachBefore id comments us s₁ hs₁).bind hLe fun _ s₂ hs₂ hSpares _ => ?_
  refine .pure hs₂ (Nat.le_trans hLe hSpares.size) (.refl _) ?_
  exact Kept.spares ⟨hFresh, _, hw, rfl⟩ hSpares (Nat.le_refl _)

/-- What follows the dimensions and the signature of a declaration. -/
theorem clears_behindDeclarator {n : Nat} (hs : s.Tidy) (hLe : n ≤ s.tree.size) (d : Declarator)
    {id : EntityId} (hKept : Kept n (fun w => w = { kind := d.kind }) id s)
    {dimensions : List (List Token)} (hDimensions : ∀ ts ∈ dimensions, Lexical ts)
    (parameters : List EntityId) (constOperation : Bool) {t : Token} (ht : t.Proper)
    (us : List Bracket) :
    Clears n (us ++ dimensionBrackets dimensions ++ brackets [t]) (do
      let (r, t) ← readRaises d.owner d.kind d.readonly t
      let (assignment, t) ← readInitializer d.kind t
      modifyDeclaration id fun e =>
        { e with
          dimensions, parameters, constOperation, assignment
          raises := r.raises
          getRaises := r.getRaises
          setRaises := r.setRaises }
      attachAfter id t.position.line
      endAt id t
      return (id, t)) s (fun r => us ++ brackets [r.2]) fun r u =>
        r.2.Proper ∧ Kept n (Unlabelled d.kind) r.1 u := by
  refine (balances_readRaises d.owner d.kind d.readonly ht _ s hs).bind hLe ?_
  rintro ⟨r, t₁⟩ s₁ hs₁ hSpares₁ ht₁
  have hKept₁ := hKept.spares hSpares₁ (Nat.le_refl _)
  have hLe₁ := Nat.le_trans hLe hSpares₁.size
  refine (balances_readInitializer d.kind ht₁ _ s₁ hs₁).bind hLe₁ ?_
  rintro ⟨assignment, t₂⟩ s₂ hs₂ hSpares₂ ⟨⟨hAssignment, ht₂⟩, hNone⟩
  obtain ⟨hFresh, w, hw, rfl⟩ := hKept₁.spares hSpares₂ (Nat.le_refl _)
  refine (clears_modifyDeclaration hs₂ hFresh hw { kind := d.kind, dimensions, assignment }
    (us ++ brackets [t₂]) ?_ (fun _ => Written.closed_empty _) fun hClosed => ?_).bind
    (Nat.le_refl _) fun _ s₃ hs₃ hSpares₃ hw₃ => ?_
  · intro e he
    rw [Declaration.written, Written.mk.injEq] at he ⊢
    exact ⟨rfl, rfl, rfl, he.2.2.2⟩
  · have hFirst := amounts_dimensionBrackets fun ts hts =>
      hClosed.dimensions ts hts (hDimensions ts hts)
    have hSecond : Bracketed (brackets assignment) := by
      cases hKind : d.kind.supportsAssignment with
      | true => exact hClosed.assignment hKind hAssignment
      | false =>
        have hEmpty : assignment = [] := hNone hKind
        rw [hEmpty]
        exact .nil
    rw [assignmentBrackets, ← List.append_assoc]
    exact (((amounts_of_bracketed hSecond).drop _).trans (hFirst.drop us)).before _
  · have hKept₃ : Kept n (Unlabelled d.kind) id s₃ := ⟨hFresh, _, hw₃, rfl, rfl⟩
    have hLe₃ := hSpares₃.size
    refine (plain_attachAfter id _ _ s₃ hs₃).bind hLe₃ fun _ s₄ hs₄ hSpares₄ _ => ?_
    have hLe₄ := Nat.le_trans hLe₃ hSpares₄.size
    refine (plain_endAt id t₂ _ s₄ hs₄).bind hLe₄ fun _ s₅ hs₅ hSpares₅ _ => ?_
    exact .pure hs₅ (Nat.le_trans hLe₄ hSpares₅.size) (.refl _)
      ⟨ht₂, (hKept₃.spares hSpares₄ (Nat.le_refl _)).spares hSpares₅ (Nat.le_refl _)⟩

/-- What a declaration keeps is left out, up to the token behind it. -/
theorem clears_readDeclarator (hs : s.Tidy) {d : Declarator} (hName : IsName d.name.text)
    (comments : List Token) (us : List Bracket) :
    Clears s.tree.size us (readDeclarator d comments) s (fun r => us ++ brackets [r.2]) fun r u =>
      r.2.Proper ∧ Kept s.tree.size (Unlabelled d.kind) r.1 u := by
  unfold readDeclarator
  refine (clears_declare hs hName comments us).bind (Nat.le_refl _)
    fun id s₁ hs₁ hSpares₁ hKept₁ => ?_
  by_cases hOperation : d.kind = .operation
  · simp only [if_pos hOperation, pure_bind]
    refine (balances_readSignature id us s₁ hs₁).bind hSpares₁.size ?_
    rintro ⟨parameters, constOperation, t⟩ s₂ hs₂ hSpares₂ ht
    have hNone : ∀ ts ∈ ([] : List (List Token)), Lexical ts := nofun
    have hBehind := clears_behindDeclarator hs₂ (Nat.le_trans hSpares₁.size hSpares₂.size) d
      (hKept₁.spares hSpares₂ (Nat.le_refl _)) hNone parameters constOperation ht us
    rw [dimensionBrackets, List.flatMap_nil, List.append_nil] at hBehind
    exact hBehind
  · simp only [if_neg hOperation, pure_bind]
    refine (balances_readDimensions d.kind us s₁ hs₁).bind hSpares₁.size
      fun dimensions s₂ hs₂ hSpares₂ hDimensions => ?_
    have hLe₂ := Nat.le_trans hSpares₁.size hSpares₂.size
    refine (balances_next _ s₂ hs₂).bind hLe₂ fun t s₃ hs₃ hSpares₃ ht => ?_
    exact clears_behindDeclarator hs₃ (Nat.le_trans hLe₂ hSpares₃.size) d
      ((hKept₁.spares hSpares₂ (Nat.le_refl _)).spares hSpares₃ (Nat.le_refl _)) hDimensions
      _ _ ht us

/-! ## Cases -/

/-- The label of a default case has no tokens. -/
def LabelLexical (isDefault : Bool) (ts : List Token) : Prop :=
  Lexical ts ∧ (isDefault = true → ts = [])

theorem balances_labelTokens (isDefault : Bool) (n : Nat) (us : List Bracket) :
    Balances us (labelTokens isDefault n) (fun ts => us ++ brackets ts)
      (LabelLexical isDefault) := by
  induction n generalizing us with
  | zero => exact .fail _
  | succ n ih =>
    unfold labelTokens
    refine (balances_next us).bind fun t ht => .ite (fun hColon => ?_) fun _ =>
      .ite (fun _ => .failAtToken _ _) fun _ => .ite (fun _ => .failAtToken _ _) fun hValued => ?_
    · rw [brackets_of_is hColon]
      exact .pure (.refl _) ⟨lexical_nil, fun _ => rfl⟩
    · refine (ih _).bind fun ts hts => .pure ?_
        ⟨lexical_cons.mpr ⟨ht.lexical, hts.1⟩, fun hDefault => absurd hDefault hValued⟩
      rw [brackets_cons t ts, List.append_assoc]
      exact .refl _

theorem balances_readLabel (label : Token) (us : List Bracket) :
    Balances us (readLabel label) (fun ts => us ++ brackets ts)
      (LabelLexical (label.is "default")) := by
  unfold readLabel
  refine .tokensLeft fun _ => (balances_labelTokens _ _ us).bind fun ts hts => ?_
  exact .ite (fun _ => .failAtToken_bind _ _) fun _ => .pure (.refl _) hts

theorem plain_followsSoon (text : String) : Plain (followsSoon text) := fun us =>
  (balances_peek 1 us).bind fun _ _ => .ite (fun _ => .pure (.refl _) trivial) fun _ =>
    (balances_peek 2 us).bind fun _ _ => .pure (.refl _) trivial

theorem plain_definesNext (t : Token) : Plain (definesNext t) := by
  intro us
  unfold definesNext
  have hUnion : ∀ struct : Bool, Balances us
      (if struct then return true else if t.is "union" then followsSoon "switch" else return false)
      (fun _ => us) fun _ => True := fun struct =>
    .ite (fun _ => .pure (.refl _) trivial) fun _ =>
      .ite (fun _ => plain_followsSoon _ us) fun _ => .pure (.refl _) trivial
  have hStruct : Balances us (if t.is "struct" then followsSoon "\x7b" else pure false)
      (fun _ => us) fun _ => True :=
    .ite (fun _ => plain_followsSoon _ us) fun _ => .pure (.refl _) trivial
  exact hStruct.bind fun struct _ => hUnion struct

theorem clears_declareLabel (hs : s.Tidy) (owner : EntityId) (label : Token)
    (comments : List Token) (us : List Bracket) :
    Clears s.tree.size us (declareLabel owner label comments) s (fun _ => us)
      (Kept s.tree.size (Unlabelled .caseEntry)) := by
  unfold declareLabel
  refine (clears_addEntity hs us _ _ _ _ _).bind (Nat.le_refl _) ?_
  rintro id s₁ hs₁ hSpares₁ ⟨hFresh, hLt, hKind, hData⟩
  have hKept₁ : Kept s.tree.size (Unlabelled .caseEntry) id s₁ :=
    ⟨hFresh, _, by rw [Entity.written?, Entity.declaration?, hData, hKind]; rfl, rfl, rfl⟩
  refine (balances_generateName (by decide) us s₁ hs₁).bind hSpares₁.size
    fun name s₂ hs₂ hSpares₂ hName => ?_
  have hLe₂ := Nat.le_trans hSpares₁.size hSpares₂.size
  have hLt₂ := Nat.lt_of_lt_of_le hLt hSpares₂.size
  refine (clears_nameEntity hs₂ us hLt₂ hName.1 (fun _ => hName.2) false true).bind hLe₂
    fun found s₃ hs₃ hSpares₃ hFound => ?_
  rw [hFound rfl]
  have hKept₃ := (hKept₁.spares hSpares₂ (Nat.le_refl _)).spares hSpares₃ (Nat.le_refl _)
  have hLe₃ := Nat.le_trans hLe₂ hSpares₃.size
  refine (plain_attachBefore id comments us s₃ hs₃).bind hLe₃ fun _ s₄ hs₄ hSpares₄ _ => ?_
  have hLe₄ := Nat.le_trans hLe₃ hSpares₄.size
  refine (plain_attachAfter id _ us s₄ hs₄).bind hLe₄ fun _ s₅ hs₅ hSpares₅ _ => ?_
  exact .pure hs₅ (Nat.le_trans hLe₄ hSpares₅.size) (.refl _)
    ((hKept₃.spares hSpares₄ (Nat.le_refl _)).spares hSpares₅ (Nat.le_refl _))

theorem clears_readLabelled (hs : s.Tidy) (owner : EntityId) (label : Token)
    (comments : List Token) (us : List Bracket) :
    Clears s.tree.size us (readLabelled owner label comments) s (fun _ => us)
      (Kept s.tree.size (Unlabelled .caseEntry)) := by
  unfold readLabelled
  refine (plain_readType owner us s hs).bind (Nat.le_refl _) fun type s₁ hs₁ hSpares₁ _ => ?_
  refine (balances_declarationName us s₁ hs₁).bind hSpares₁.size
    fun name s₂ hs₂ hSpares₂ hName => ?_
  have hLe₂ := Nat.le_trans hSpares₁.size hSpares₂.size
  refine (clears_readDeclarator hs₂ hName comments us).bind hLe₂ ?_
  rintro ⟨id, t⟩ s₃ hs₃ hSpares₃ ⟨-, hFresh, hKept⟩
  refine .ite (fun hEnd => ?_) fun _ => fun a u hRun => by cases hRun
  rw [brackets_of_mark hEnd rfl, List.append_nil]
  exact .pure hs₃ (Nat.le_trans hLe₂ hSpares₃.size) (.refl _) ⟨Nat.le_trans hLe₂ hFresh, hKept⟩

/-- What the label keeps is left out. -/
theorem plain_readCase (owner : EntityId) (label : Token) (comments : List Token) :
    Plain (readCase owner label comments) := by
  intro us
  unfold readCase
  refine (balances_readLabel label us).bind fun tokens hTokens => ?_
  refine (balances_peek 0 _).bind fun t _ => (plain_definesNext t _).bind fun defines _ => ?_
  refine .ite (fun _ => .failAtToken_bind _ _) fun _ s hs => ?_
  have hLabel : ∀ {u : Session} {id : EntityId}, u.Tidy → 
      Kept s.tree.size (Unlabelled .caseEntry) id u →
      Clears s.tree.size (us ++ brackets tokens) (modifyDeclaration id fun d =>
        { d with
          defaultCase := label.is "default"
          labels := if label.is "default" then d.labels else [tokens] }) u (fun _ => us)
        fun _ _ => True := by
    rintro u id hu ⟨hFresh, w, hw, hKind, hLabels⟩
    refine (clears_modifyDeclaration hu hFresh hw
      { w with labels := if label.is "default" then [] else [tokens] } us ?_ ?_ ?_).mono
      fun _ _ _ _ _ => trivial
    · intro d hd
      rw [← hd] at hLabels ⊢
      have hNone : d.labels = [] := hLabels
      rw [Declaration.written, hNone]
      rfl
    · intro hClosed
      exact ⟨hClosed.dimensions, hClosed.assignment,
        hLabels ▸ fun _ _ h => absurd h List.not_mem_nil⟩
    · intro hClosed
      by_cases hDefault : label.is "default" = true
      · rw [hTokens.2 hDefault]
        exact (Amounts.refl []).drop us
      · have hMem : tokens ∈ if label.is "default" then [] else [tokens] := by
          rw [if_neg hDefault]
          exact List.mem_singleton_self tokens
        exact (amounts_of_bracketed (hClosed.labels hKind tokens hMem hTokens.1)).drop us
  refine .ite (fun _ => ?_) fun _ => ?_
  · exact (clears_declareLabel hs owner label comments _).bind (Nat.le_refl _)
      fun id u hu _ hKept => hLabel hu hKept
  · exact (clears_readLabelled hs owner label comments _).bind (Nat.le_refl _)
      fun id u hu _ hKept => hLabel hu hKept

end IdlReader.Parsing
