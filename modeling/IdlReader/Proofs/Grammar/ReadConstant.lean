import IdlReader.Grammar.Content
import IdlReader.Proofs.Constant.Statement
import IdlReader.Proofs.Grammar.Session
import IdlReader.Proofs.Tree.Constants

/-!
# Reading constants

The statement of a constant is read when its tokens come next, in any entity that accepts the
constant (`Tree.Accepts`). Its dimensions and its assignment are kept as tokens.

* `ends_readType`: types of integers.
* `ends_dimensionsWithin`, `ends_assignmentWithin`: what is kept.
* `ends_readConstant`: the statement.
* `InModule.accepts`: constants in a module.
-/

namespace IdlReader

open IdlReader.Tree

/-! ## Integral types -/

/-- The base types whose names are keywords that say everything about them. -/
structure BaseType.IsInteger (b : BaseType) (k : IntegerKind) : Prop where
  kind : b.kind? = some (.integer k)
  plain : b ≠ .enum

theorem BaseType.IsInteger.ne {b other : BaseType} {k : IntegerKind} (h : b.IsInteger k)
    (hOther : other.kind? = none) : b ≠ other := by
  rintro rfl
  rw [h.kind] at hOther
  cases hOther

theorem BaseType.IsInteger.elaborates? {b : BaseType} {k : IntegerKind} (h : b.IsInteger k) :
    b.elaborates? = none := by
  obtain ⟨hKind, hPlain⟩ := h
  cases b <;> first | rfl | exact absurd rfl hPlain | cases hKind

theorem WritesBase.exists_cons {type : List Token} {text : String} (h : WritesBase type text) :
    ∃ first rest, type = first :: rest ∧ first.isKeyword = true := by
  cases h <;> exact ⟨_, _, rfl, by assumption⟩

theorem WritesBase.first {first : Token} {rest : List Token} {text : String}
    (h : WritesBase (first :: rest) text) :
    first.text = text ∨ first.text = "long" ∨ first.text = "unsigned" := by
  cases h with
  | word => exact Or.inl rfl
  | long hKeyword hText => exact Or.inr (Or.inl hText)
  | longLong hKeyword hText => exact Or.inr (Or.inl hText)
  | unsignedShort hKeyword hText => exact Or.inr (Or.inr hText)
  | unsignedLong hKeyword hText => exact Or.inr (Or.inr hText)
  | unsignedLongLong hKeyword hText => exact Or.inr (Or.inr hText)

theorem BaseType.ofText?_of_not_mem {env : Environment} {text : String}
    (hNames : BaseType.names.lookup text = none)
    (hExtensions : BaseType.extensionNames.lookup text = none) :
    BaseType.ofText? env text = none := by
  unfold BaseType.ofText?
  rw [hNames]
  dsimp only
  rw [hExtensions]

namespace ConstHead

variable {env : Environment} (c : ConstHead env)

theorem isInteger : c.base.IsInteger c.kind := ⟨c.hKind, c.hPlain⟩

/-- A word of an integral type starts no other statement. -/
theorem first_plain {first : Token} {rest : List Token} (hType : c.type = first :: rest) :
    EntityKind.ofKeyword? first = none ∧
      ∀ text ∈ [";", "case", "default", "attribute"], first.is text = false := by
  have hWrites := c.hType
  have hBase := c.hBase
  have hInteger := c.isInteger
  rw [hType] at hWrites
  -- What no integral type is called.
  have hOther : ∀ text, BaseType.ofText? env text = none ∨
      (∃ b, BaseType.ofText? env text = some b ∧ (b.kind? = none ∨ b = .enum)) →
      c.typeText ≠ text := by
    rintro text hText rfl
    rcases hText with hNone | ⟨b, hSome, hNot⟩
    · rw [hNone] at hBase
      cases hBase
    · rw [hBase] at hSome
      cases hSome
      rcases hNot with hNone | hEnum
      · rw [hInteger.kind] at hNone
        cases hNone
      · exact hInteger.plain hEnum
  have hText : ∀ text, (text ≠ "long" ∧ text ≠ "unsigned") ∧ c.typeText ≠ text →
      first.text ≠ text := by
    rintro text ⟨⟨hLong, hUnsigned⟩, hTypeText⟩
    rcases hWrites.first with hSame | hFirst | hFirst
    · rw [hSame]
      exact hTypeText
    · rw [hFirst]
      exact hLong.symm
    · rw [hFirst]
      exact hUnsigned.symm
  have hNone : ∀ text, BaseType.names.lookup text = none →
      BaseType.extensionNames.lookup text = none → c.typeText ≠ text := fun text hNames hMore =>
    hOther text (Or.inl (BaseType.ofText?_of_not_mem hNames hMore))
  constructor
  · unfold EntityKind.ofKeyword?
    have hModule := hText "module" ⟨by decide, hNone _ (by decide) (by decide)⟩
    have hStruct := hText "struct" ⟨by decide, hOther _ (Or.inr ⟨.struct, rfl, Or.inl rfl⟩)⟩
    have hUnion := hText "union" ⟨by decide, hOther _ (Or.inr ⟨.union, rfl, Or.inl rfl⟩)⟩
    have hEnum := hText "enum" ⟨by decide, hOther _ (Or.inr ⟨.enum, rfl, Or.inr rfl⟩)⟩
    have hException := hText "exception" ⟨by decide, hNone _ (by decide) (by decide)⟩
    have hInterface := hText "interface"
      ⟨by decide, hOther _ (Or.inr ⟨.interface, rfl, Or.inl rfl⟩)⟩
    simp [hModule, hStruct, hUnion, hEnum, hException, hInterface]
  · intro text hMem
    have hNe : first.text ≠ text := by
      simp only [List.mem_cons, List.not_mem_nil, or_false] at hMem
      rcases hMem with rfl | rfl | rfl | rfl <;>
        exact hText _ ⟨by decide, hNone _ (by decide) (by decide)⟩
    exact Token.not_is_of_text_ne hNe

end ConstHead

namespace Parsing

variable {s : Session} {env : Environment} {t u : Token} {ts : List Token} {I : Tree → Prop}
  {E : Fault → Prop} {scope : EntityId}

theorem ends_takeWord (h : s.Awaits env (u :: ts) I) (hI : Lasting I) {text : String} :
    Ends (baseTypeText.takeWord text) s (fun taken s' => taken = u.is text ∧
      s'.Awaits env (if u.is text then ts else u :: ts) I) E := by
  have hFinish : u.isFinish = false := h.unfinished u List.mem_cons_self
  unfold baseTypeText.takeWord
  refine (ends_next h hI).bind ?_
  rintro v s' ⟨rfl, h'⟩
  cases hIs : v.is text with
  | true => exact Ends.pure ⟨rfl, h'⟩
  | false =>
    simp only [Bool.false_eq_true, if_false]
    exact (ends_putBack h' hFinish).bind fun _ _ h'' => Ends.pure ⟨rfl, h''⟩

/-- The name of a base type is read up to a token that does not go on with it. -/
theorem ends_baseTypeText {first : Token} {rest : List Token} {text : String}
    (hWrites : WritesBase (first :: rest) text) (h : s.Awaits env (rest ++ u :: ts) I)
    (hI : Lasting I) (hEnds : EndsBase text u) :
    Ends (baseTypeText first) s (fun name s' => name = text ∧ s'.Awaits env (u :: ts) I) E := by
  have hIs : ∀ name, first.isKeyword = true → first.text = name → first.is name = true := by
    intro name hKeyword hText
    unfold Token.is Token.isPlain
    rw [beq_iff_eq.mp hKeyword, hText, beq_self_eq_true]
    rfl
  have hIsNot : ∀ name, first.text ≠ name → first.is name = false :=
    fun _ => Token.not_is_of_text_ne
  have hFinish : u.isFinish = false := h.unfinished u (by simp)
  unfold baseTypeText
  cases hWrites with
  | word hKeyword hFirst hUnsigned =>
    rw [hIsNot _ hFirst, hIsNot _ hUnsigned]
    exact Ends.pure ⟨rfl, h⟩
  | long hKeyword hText =>
    rw [hIs _ hKeyword hText, if_pos rfl]
    refine (ends_next h hI).bind ?_
    rintro v s' ⟨rfl, h'⟩
    rw [hEnds.long rfl]
    exact (ends_putBack h' hFinish).bind fun _ _ h'' => Ends.pure ⟨hText, h''⟩
  | @longLong _ v hKeyword hText hNext =>
    rw [hIs _ hKeyword hText, if_pos rfl]
    refine (ends_next h hI).bind ?_
    rintro w s' ⟨rfl, h'⟩
    have hOne : w.isOneOf ["long", "double"] = true := by simp [Token.isOneOf, hNext]
    have hWord : w.text = "long" := by
      unfold Token.is at hNext
      exact beq_iff_eq.mp (Bool.and_eq_true_iff.mp hNext).2
    rw [hOne, if_pos rfl]
    refine Ends.pure ⟨?_, h'⟩
    rw [hText, hWord]
    rfl
  | @unsignedShort _ v hKeyword hText hNext =>
    rw [hIsNot "long" (by rw [hText]; decide), hIs _ hKeyword hText]
    refine (ends_next h hI).bind ?_
    rintro w s' ⟨rfl, h'⟩
    rw [hNext]
    exact Ends.pure ⟨rfl, h'⟩
  | @unsignedLong _ v hKeyword hText hNext =>
    rw [hIsNot "long" (by rw [hText]; decide), hIs _ hKeyword hText]
    refine (ends_next h hI).bind ?_
    rintro w s' ⟨rfl, h'⟩
    rw [Token.not_is_of_is hNext (by decide), hNext]
    refine (ends_takeWord h' hI).bind ?_
    rintro taken s'' ⟨rfl, h''⟩
    rw [hEnds.unsignedLong rfl] at h'' ⊢
    exact Ends.pure ⟨rfl, h''⟩
  | @unsignedLongLong _ v w hKeyword hText hNext hLonger =>
    rw [hIsNot "long" (by rw [hText]; decide), hIs _ hKeyword hText]
    refine (ends_next h hI).bind ?_
    rintro x s' ⟨rfl, h'⟩
    rw [Token.not_is_of_is hNext (by decide), hNext]
    refine (ends_takeWord h' hI).bind ?_
    rintro taken s'' ⟨rfl, h''⟩
    rw [hLonger] at h'' ⊢
    exact Ends.pure ⟨rfl, h''⟩

theorem ends_readType {type : List Token} {text : String} (hWrites : WritesBase type text)
    {base : BaseType} (hBase : BaseType.ofText? env text = some base) {kind : IntegerKind}
    (hInteger : base.IsInteger kind) (h : s.Awaits env (type ++ u :: ts) I) (hI : Lasting I)
    (hEnds : EndsBase text u) :
    Ends (readType scope) s (fun type s' => type = { base, text } ∧
      s'.Awaits env (u :: ts) I) E := by
  obtain ⟨first, rest, rfl, hKeyword⟩ := hWrites.exists_cons
  unfold readType
  refine Ends.tokensLeft h ?_
  unfold typeWithin
  refine (ends_next h hI).bind ?_
  rintro v s' ⟨rfl, h'⟩
  have hWord : v.isWord = true := by
    unfold Token.isWord
    rw [hKeyword, Bool.or_true]
  rw [hWord]
  refine (ends_baseTypeText hWrites h' hI hEnds).bind ?_
  rintro name s'' ⟨rfl, h''⟩
  refine Ends.get ?_
  rw [if_pos hKeyword, h''.env, hBase]
  dsimp only
  unfold baseType
  dsimp only
  rw [hInteger.elaborates?]
  dsimp only
  obtain ⟨hKind, hPlain⟩ := hInteger
  cases base <;> first | exact Ends.pure ⟨rfl, h''⟩ | cases hKind

/-! ## Dimensions -/

/-- The tokens of a dimension are read up to the bracket that closes it. -/
theorem ends_dimensionTokens {dimension : List Token}
    (hPlain : ∀ x ∈ dimension, ∀ text ∈ [";", "[", "]"], x.is text = false)
    (ht : t.is "]" = true) {n : Nat} (hBudget : dimension.length < n)
    (h : s.Awaits env (dimension ++ t :: ts) I) (hI : Lasting I) :
    Ends (dimensionTokens n 0) s (fun r s' => r = dimension ∧ s'.Awaits env ts I) E := by
  induction dimension generalizing s n with
  | nil =>
    obtain ⟨n, rfl⟩ : ∃ m, n = m + 1 := ⟨n - 1, by simp at hBudget; omega⟩
    unfold dimensionTokens
    refine (ends_next h hI).bind ?_
    rintro v s' ⟨rfl, h'⟩
    rw [Token.not_isFinish_of_is ht, Token.not_is_of_is ht (by decide), ht]
    exact Ends.pure ⟨rfl, h'⟩
  | cons x xs ih =>
    obtain ⟨n, rfl⟩ : ∃ m, n = m + 1 := ⟨n - 1, by simp at hBudget; omega⟩
    have hFinish : x.isFinish = false := h.unfinished x List.mem_cons_self
    have hx := hPlain x List.mem_cons_self
    unfold dimensionTokens
    refine (ends_next h hI).bind ?_
    rintro v s' ⟨rfl, h'⟩
    rw [hFinish, hx ";" (by simp), hx "]" (by simp), hx "[" (by simp)]
    refine (ih (fun y hy => hPlain y (List.mem_cons_of_mem _ hy)) ?_ h').bind ?_
    · simpa using hBudget
    · rintro r s'' ⟨rfl, h''⟩
      exact Ends.pure ⟨rfl, h''⟩

/-- The dimensions of a constant are read, unless there are more than the environment allows. -/
theorem ends_dimensionsWithin {ws : List WrittenSize} {further : Bool}
    (hE : ∀ f, ¬ (ws = [] ∨ further = false ∧ ws.length ≤ 1 ∨
      env.enables .multiDimArray = true) → E f)
    (ht : t.is "[" = false) {n : Nat} (hBudget : ws.length < n)
    (h : s.Awaits env (ws.flatMap WrittenSize.bracketed ++ t :: ts) I) (hI : Lasting I) :
    Ends (dimensionsWithin .const n further) s (fun ds s' =>
      (ws = [] ∨ further = false ∧ ws.length ≤ 1 ∨ env.enables .multiDimArray = true) ∧
      ds = ws.map (fun w => w.tokens) ∧ s'.Awaits env (t :: ts) I) E := by
  induction ws generalizing s n further with
  | nil =>
    obtain ⟨n, rfl⟩ : ∃ m, n = m + 1 := ⟨n - 1, by simp at hBudget; omega⟩
    unfold dimensionsWithin
    refine (ends_peek h hI rfl).bind ?_
    rintro u s' ⟨rfl, h'⟩
    rw [ht]
    exact Ends.pure ⟨Or.inl rfl, rfl, h'⟩
  | cons w ws ih =>
    obtain ⟨n, rfl⟩ : ∃ m, n = m + 1 := ⟨n - 1, by simp at hBudget; omega⟩
    have hTokens : (w :: ws).flatMap WrittenSize.bracketed ++ t :: ts = w.opening ::
        (w.tokens ++ w.closing :: (ws.flatMap WrittenSize.bracketed ++ t :: ts)) := by
      unfold WrittenSize.bracketed
      simp
    rw [hTokens] at h
    unfold dimensionsWithin
    refine (ends_peek h hI rfl).bind ?_
    rintro u s₁ ⟨rfl, h₁⟩
    rw [w.hOpening]
    refine (ends_next h₁ hI).bind ?_
    rintro u s₂ ⟨rfl, h₂⟩
    refine Ends.get ?_
    rw [h₂.env]
    have hArrays : EntityKind.const.supportsArrays = true := rfl
    rw [hArrays, if_neg (by decide)]
    cases hRefused : further && !env.enables .multiDimArray with
    | true =>
      obtain ⟨rfl, hDisabled⟩ := Bool.and_eq_true_iff.mp hRefused
      refine Ends.failAt (hE _ ?_)
      rintro (hNil | ⟨hFirst, -⟩ | hEnabled)
      · cases hNil
      · cases hFirst
      · rw [hEnabled] at hDisabled
        cases hDisabled
    | false =>
      have hNow : further = false ∨ env.enables .multiDimArray = true := by
        cases further with
        | false => exact Or.inl rfl
        | true => exact Or.inr (by simpa using hRefused)
      rw [if_neg (by decide)]
      refine Ends.tokensLeft h₂ ?_
      have hPlain : ∀ x ∈ w.tokens, ∀ text ∈ [";", "[", "]"], x.is text = false :=
        (@LiteralExpression.grouped w.toLiteralExpression false).is_eq_false
      refine (ends_dimensionTokens hPlain w.hClosing ?_ h₂ hI).bind ?_
      · simp only [List.length_append, List.length_cons]
        omega
      rintro d s₃ ⟨rfl, h₃⟩
      refine (ih ?_ (by simpa using hBudget) h₃).bind ?_
      · refine fun f hMore => hE f ?_
        rintro (hNil | ⟨hFirst, hOne⟩ | hEnabled)
        · cases hNil
        · refine hMore (Or.inl (List.eq_nil_of_length_eq_zero ?_))
          simpa using hOne
        · exact hMore (Or.inr (Or.inr hEnabled))
      · rintro ds s₄ ⟨hMore, rfl, h₄⟩
        refine Ends.pure ⟨?_, rfl, h₄⟩
        rcases hMore with rfl | ⟨hFirst, -⟩ | hEnabled
        · exact hNow.imp_left (fun hFirst => ⟨hFirst, Nat.le_refl 1⟩) |> Or.inr
        · cases hFirst
        · exact Or.inr (Or.inr hEnabled)

/-! ## Assignments -/

/-- A token that does not end an assignment. -/
theorem ends_assignmentWithin_cons {P : List Token × Token → Session → Prop} {depth n : Nat}
    (h : s.Awaits env (t :: ts) I) (hI : Lasting I) (hEnd : t.is ";" = false)
    (hStays : (t.isOneOf [",", "\x7d"] && depth == 0) = false)
    (hRest : ∀ s', s'.Awaits env ts I → Ends (assignmentWithin n
      (if t.is "\x7b" then depth + 1 else if t.is "\x7d" then depth - 1 else depth)) s'
        (fun r => P (t :: r.1, r.2)) E) :
    Ends (assignmentWithin (n + 1) depth) s P E := by
  have hFinish : t.isFinish = false := h.unfinished t List.mem_cons_self
  unfold assignmentWithin
  refine (ends_next h hI).bind ?_
  rintro u s' ⟨rfl, h'⟩
  rw [hFinish, hEnd, hStays]
  exact (hRest s' h').bind fun r _ hP => Ends.pure hP

/-- Tokens in which brackets match are taken into an assignment. -/
theorem ends_assignmentWithin_grouped {commas : Bool} {us : List Token} (hGroup : Grouped commas us)
    {P : List Token × Token → Session → Prop} {depth n : Nat}
    (hDepth : commas = true → 0 < depth) (h : s.Awaits env (us ++ ts) I) (hI : Lasting I)
    (hRest : ∀ s', s'.Awaits env ts I →
      Ends (assignmentWithin n depth) s' (fun r => P (us ++ r.1, r.2)) E) :
    Ends (assignmentWithin (us.length + n) depth) s P E := by
  have hInside : ∀ {t : Token} {depth : Nat}, 0 < depth →
      (t.isOneOf [",", "\x7d"] && depth == 0) = false := fun hPos => by
    rw [beq_eq_false_iff_ne.mpr (Nat.ne_of_gt hPos), Bool.and_false]
  -- Marks other than braces leave the depth, and so end nothing there.
  have hMark : ∀ {t : Token} {text : String} {P : List Token × Token → Session → Prop}
      {s : Session} {us : List Token} {depth n : Nat}, t.is text = true →
      text ∉ [";", ",", "\x7b", "\x7d"] → s.Awaits env (t :: us) I →
      (∀ s', s'.Awaits env us I → Ends (assignmentWithin n depth) s'
        (fun r => P (t :: r.1, r.2)) E) → Ends (assignmentWithin (n + 1) depth) s P E := by
    intro t text P s us depth n hIs hText h hRest
    have hNot : ∀ other ∈ [";", ",", "\x7b", "\x7d"], t.is other = false := fun other hMem =>
      Token.not_is_of_is hIs fun hEq => hText (hEq ▸ hMem)
    refine ends_assignmentWithin_cons h hI (hNot _ (by simp)) ?_ fun s' h' => ?_
    · simp [Token.isOneOf, hNot "," (by simp), hNot "\x7d" (by simp)]
    · rw [hNot "\x7b" (by simp), hNot "\x7d" (by simp)]
      exact hRest s' h'
  induction hGroup generalizing s ts P depth n with
  | nil =>
    rw [List.length_nil, Nat.zero_add]
    exact hRest s h
  | @token commas t hFinish hPlain =>
    rw [List.length_singleton, Nat.add_comm]
    refine ends_assignmentWithin_cons h hI (hPlain _ (by decide)) ?_ fun s' h' => ?_
    · simp [Token.isOneOf, hPlain "," (by decide), hPlain "\x7d" (by decide)]
    · rw [hPlain "\x7b" (by decide), hPlain "\x7d" (by decide)]
      exact hRest s' h'
  | comma hComma =>
    rw [List.length_singleton, Nat.add_comm]
    refine ends_assignmentWithin_cons h hI (Token.not_is_of_is hComma (by decide))
      (hInside (hDepth rfl)) fun s' h' => ?_
    rw [Token.not_is_of_is hComma (by decide), Token.not_is_of_is hComma (by decide)]
    exact hRest s' h'
  | append hFirst hSecond ihFirst ihSecond =>
    rw [List.append_assoc] at h
    rw [List.length_append, Nat.add_assoc]
    refine ihFirst hDepth h fun s₁ h₁ => ihSecond hDepth h₁ fun s₂ h₂ => ?_
    simpa only [List.append_assoc] using hRest s₂ h₂
  | @round commas o c us hOpening hClosing hInner ih =>
    have hLength : (o :: (us ++ [c])).length + n = us.length + (n + 1) + 1 := by
      simp
      omega
    rw [List.cons_append, List.append_assoc] at h
    rw [hLength]
    refine hMark hOpening (by decide) h fun s₁ h₁ => ih hDepth h₁ fun s₂ h₂ => ?_
    refine hMark hClosing (by decide) h₂ fun s₃ h₃ => ?_
    simpa using hRest s₃ h₃
  | @curly commas o c us hOpening hClosing hInner ih =>
    have hLength : (o :: (us ++ [c])).length + n = us.length + (n + 1) + 1 := by
      simp
      omega
    rw [List.cons_append, List.append_assoc] at h
    rw [hLength]
    have hComma : o.is "," = false := Token.not_is_of_is hOpening (by decide)
    have hBrace : o.is "\x7d" = false := Token.not_is_of_is hOpening (by decide)
    refine ends_assignmentWithin_cons h hI (Token.not_is_of_is hOpening (by decide)) ?_
      fun s₁ h₁ => ?_
    · simp [Token.isOneOf, hComma, hBrace]
    rw [hOpening, if_pos rfl]
    refine ih (fun _ => Nat.succ_pos depth) h₁ fun s₂ h₂ => ?_
    refine ends_assignmentWithin_cons h₂ hI (Token.not_is_of_is hClosing (by decide))
      (hInside (Nat.succ_pos depth)) fun s₃ h₃ => ?_
    rw [Token.not_is_of_is hClosing (by decide), hClosing]
    simpa using hRest s₃ h₃

/-- An assignment is read up to the semicolon behind it. -/
theorem ends_assignmentWithin {assignment : List Token} (hGroup : Grouped false assignment)
    (ht : t.is ";" = true) {n : Nat} (hBudget : assignment.length < n)
    (h : s.Awaits env (assignment ++ t :: ts) I) (hI : Lasting I) :
    Ends (assignmentWithin n 0) s (fun r s' => r = (assignment, t) ∧ s'.Awaits env ts I) E := by
  obtain ⟨m, rfl⟩ : ∃ m, n = assignment.length + (m + 1) := ⟨n - assignment.length - 1, by omega⟩
  refine ends_assignmentWithin_grouped hGroup nofun h hI fun s₁ h₁ => ?_
  unfold assignmentWithin
  refine (ends_next h₁ hI).bind ?_
  rintro u s₂ ⟨rfl, h₂⟩
  rw [Token.not_isFinish_of_is ht, ht]
  exact Ends.pure ⟨by rw [List.append_nil], h₂⟩

/-! ## Declarations -/

/-- The name of a declaration is read. Keywords are names if names depend on their context. -/
theorem ends_declarationName (hName : t.isIdentifier = true ∨
      t.isKeyword = true ∧ env.enables .contextDependentNames = true)
    (h : s.Awaits env (t :: ts) I) (hI : Lasting I) :
    Ends declarationName s (fun u s' => u = t ∧ s'.Awaits env ts I) E := by
  unfold declarationName
  refine (ends_next h hI).bind ?_
  rintro u s' ⟨rfl, h'⟩
  refine Ends.get ?_
  rcases hName with hIdentifier | ⟨hKeyword, hEnabled⟩
  · have hKeyword : u.isKeyword = false := by
      unfold Token.isIdentifier at hIdentifier
      unfold Token.isKeyword
      rw [beq_iff_eq.mp hIdentifier]
      rfl
    rw [hKeyword, hIdentifier]
    exact Ends.pure ⟨rfl, h'⟩
  · rw [hKeyword, h'.env, hEnabled]
    exact Ends.pure ⟨rfl, h'⟩

section Declarations

variable {owner : EntityId} {name : String} {J : EntityId → Declaration → Tree → Prop}

/-- A declaration that an entity accepts gets its own entity. -/
theorem ends_declare {sort : Member} {kind : EntityKind} {d : Declarator} (hOwner : d.owner = owner)
    (hKind : d.kind = kind) (hVoid : d.type.base ≠ .void) (hInterface : d.type.base ≠ .interface)
    (hName : d.name.text = name) (hAccepts : Tree.Accepts sort kind owner name I J)
    (h : s.Awaits env ts I) (comments : List Token) :
    Ends (declare d comments) s (fun id s' =>
      s'.Awaits env ts (J id { type := d.type, readonly := d.readonly })) E := by
  obtain ⟨id, t₁, t₂, hAdd, hSet, hDeclared⟩ := hAccepts.declare s.tree h.tree
    { type := d.type, readonly := d.readonly } d.name.source (Span.point d.position)
  unfold declare
  rw [if_neg fun hEq => hVoid hEq.1, if_neg fun hEq => hInterface hEq.1, hOwner, hKind]
  have hAddEntity : Ends (addEntity owner kind d.name.source (Span.point d.position)
      (.declaration { type := d.type, readonly := d.readonly })) s
      (fun x s' => x = id ∧ s'.Awaits env ts fun t => t = t₁) E := by
    have hPos := Nat.lt_of_lt_of_le h.pos (extends_add hAdd).size
    unfold addEntity
    refine Ends.tree ?_
    rw [hAdd]
    exact ⟨rfl, h.env, h.tokens, h.unfinished, h.ending, hPos, rfl⟩
  refine hAddEntity.bind ?_
  rintro x s₁ ⟨rfl, h₁⟩
  have hTree : s₁.tree = t₁ := h₁.tree
  have hNameEntity : Ends (nameEntity x d.name.text false true) s₁ (fun y s' => y = x ∧
      s'.Awaits env ts (J x { type := d.type, readonly := d.readonly })) E := by
    have hRun : nameEntity x d.name.text false true s₁ = .ok x { s₁ with tree := t₂ } :=
      nameEntity_eq_ok.mpr ⟨by rw [hTree, hName, hSet], rfl⟩
    unfold Ends
    rw [hRun]
    exact ⟨rfl, h₁.env, h₁.tokens, h₁.unfinished, h₁.ending, hAccepts.pos _ _ _ hDeclared,
      hDeclared⟩
  refine hNameEntity.bind ?_
  rintro y s₂ ⟨rfl, h₂⟩
  exact (ends_attachBefore h₂ (hAccepts.behind _ _) y comments).bind fun _ _ h₃ => Ends.pure h₃

variable (c : ConstStatement env)

/-- What follows the name of a constant is read, and the constant keeps its dimensions and its
assignment. -/
theorem ends_readDeclarator (hE : ∀ f, ¬ c.Allowed → E f) {d : Declarator}
    (hOwner : d.owner = owner) (hKind : d.kind = .const) (hType : d.type = c.declaredType)
    (hName : d.name = c.name) (hReadonly : d.readonly = true)
    (hAccepts : Tree.Accepts .const .const owner c.name.text I J)
    (h : s.Awaits env (c.sizes.flatMap WrittenSize.bracketed ++
      c.sign :: (c.assignment ++ c.terminator :: ts)) I) (comments : List Token) :
    Ends (readDeclarator d comments) s (fun r s' => c.Allowed ∧ r.2 = c.terminator ∧
      s'.Awaits env ts (J r.1 c.declaration)) E := by
  have hInteger : d.type.base.IsInteger c.kind := by
    rw [hType]
    exact c.isInteger
  have hAllowed : (c.sizes = [] ∨ false = false ∧ c.sizes.length ≤ 1 ∨
      env.enables .multiDimArray = true) ↔ c.Allowed := by
    unfold ConstStatement.Allowed
    constructor
    · rintro (hNil | ⟨-, hOne⟩ | hEnabled)
      · exact Or.inl (by rw [hNil]; decide)
      · exact Or.inl hOne
      · exact Or.inr hEnabled
    · exact fun hAllowed => Or.inr (hAllowed.imp_left fun hOne => ⟨rfl, hOne⟩)
  have hStart := hAccepts.behind
  unfold readDeclarator
  refine (ends_declare hOwner hKind (hInteger.ne rfl) (hInteger.ne rfl) (hName ▸ rfl) hAccepts h
    comments).bind ?_
  intro id s₁ h₁
  rw [hKind, if_neg (by decide)]
  have hDimensions : Ends (readDimensions .const) s₁ (fun ds s' => c.Allowed ∧
      ds = c.sizes.map (fun w => w.tokens) ∧
      s'.Awaits env (c.sign :: (c.assignment ++ c.terminator :: ts))
        (J id { type := d.type, readonly := d.readonly })) E := by
    unfold readDimensions
    refine Ends.tokensLeft h₁ ?_
    refine (ends_dimensionsWithin (fun f hRefused => hE f (mt hAllowed.mpr hRefused))
      (Token.not_is_of_is c.hSign (by decide)) ?_ h₁ (hStart _ _)).mono ?_
    · have hBracketed : ∀ w : WrittenSize, 0 < w.bracketed.length := fun w => Nat.succ_pos _
      have hLength := length_le_flatMap hBracketed c.sizes
      rw [List.length_append]
      omega
    · rintro ds s' ⟨hNow, rfl, h'⟩
      exact ⟨hAllowed.mp hNow, rfl, h'⟩
  refine hDimensions.bind ?_
  rintro ds s₂ ⟨hNow, rfl, h₂⟩
  dsimp only
  rw [if_neg (by decide)]
  refine (ends_next h₂ (hStart _ _)).bind ?_
  rintro u s₃ ⟨rfl, h₃⟩
  have hRaises : readRaises d.owner .const d.readonly c.sign = pure ({}, c.sign) := rfl
  have hInitializer : Ends (readInitializer .const c.sign) s₃ (fun r s' =>
      r = (c.assignment, c.terminator) ∧
        s'.Awaits env ts (J id { type := d.type, readonly := d.readonly })) E := by
    unfold readInitializer
    rw [if_pos c.hSign]
    refine Ends.tokensLeft h₃ ?_
    refine ends_assignmentWithin c.hAssignment c.hTerminator ?_ h₃ (hStart _ _)
    simp only [List.length_append, List.length_cons]
    omega
  rw [pure_bind]
  dsimp only
  rw [hRaises, pure_bind]
  dsimp only
  refine hInitializer.bind ?_
  rintro r s₄ ⟨rfl, h₄⟩
  dsimp only
  have hModify : Ends (modifyDeclaration id fun e =>
      { e with
        dimensions := c.sizes.map fun w => w.tokens
        parameters := [], constOperation := false, assignment := c.assignment
        raises := [], getRaises := [], setRaises := [] }) s₄ (fun _ s' =>
          s'.Awaits env ts (J id c.declaration)) E := by
    refine ends_modifyEntity h₄ fun hTree => ?_
    have hLast := hAccepts.modify id _ _ hTree fun e =>
      { e with
        dimensions := c.sizes.map fun w => w.tokens
        parameters := [], constOperation := false, assignment := c.assignment
        raises := [], getRaises := [], setRaises := [] }
    rw [hType, hReadonly] at hLast
    exact hLast
  refine hModify.bind fun _ s₅ h₅ => ?_
  refine (ends_attachAfter h₅ (hStart _ _) id _).bind fun _ s₆ h₆ => ?_
  exact (ends_endAt h₆ (hStart _ _) id _).bind fun _ _ h₇ => Ends.pure ⟨hNow, rfl, h₇⟩

/-- The rest of the statement of a constant behind its type. -/
theorem ends_readDeclarations (hE : ∀ f, ¬ c.Allowed → E f) {st : Statement}
    (hOwner : st.owner = owner) (hModifiers : st.modifiers = { const := true })
    (hAccepts : Tree.Accepts .const .const owner c.name.text I J)
    (h : s.Awaits env (c.name :: (c.sizes.flatMap WrittenSize.bracketed ++
      c.sign :: (c.assignment ++ c.terminator :: ts))) I) :
    Ends (st.readDeclarations c.declaredType false false) s (fun _ s' => c.Allowed ∧ ∃ id,
      s'.Awaits env ts (J id c.declaration)) E := by
  -- Behind the name of a constant stands a bracket or the sign.
  have hNext : ∃ u us, c.sizes.flatMap WrittenSize.bracketed ++
      c.sign :: (c.assignment ++ c.terminator :: ts) = u :: us ∧ u.is "(" = false := by
    cases hSizes : c.sizes with
    | nil => exact ⟨_, _, rfl, Token.not_is_of_is c.hSign (by decide)⟩
    | cons w ws => exact ⟨_, _, rfl, Token.not_is_of_is w.hOpening (by decide)⟩
  unfold Statement.readDeclarations
  refine (ends_declarationName c.hName h hAccepts.before).bind ?_
  rintro t s₁ ⟨rfl, h₁⟩
  have hKind : Ends (st.declarationKind false c.name) s₁ (fun k s' => k = .const ∧
      s'.Awaits env (c.sizes.flatMap WrittenSize.bracketed ++
        c.sign :: (c.assignment ++ c.terminator :: ts)) I) E := by
    obtain ⟨u, us, hFirst, hMark⟩ := hNext
    rw [hFirst] at h₁ ⊢
    unfold Statement.declarationKind
    refine (ends_peek h₁ hAccepts.before rfl).bind ?_
    rintro v s' ⟨rfl, h'⟩
    rw [hMark, hModifiers]
    exact Ends.pure ⟨rfl, h'⟩
  refine hKind.bind ?_
  rintro k s₂ ⟨rfl, h₂⟩
  unfold Statement.readDeclarators
  refine Ends.tokensLeft h₂ ?_
  unfold declaratorsWithin
  rw [hModifiers]
  refine (ends_readDeclarator c hE hOwner rfl rfl rfl rfl hAccepts h₂ _).bind ?_
  rintro ⟨id, t⟩ s₃ ⟨hNow, rfl, h₃⟩
  dsimp only
  rw [Token.not_is_of_is c.hTerminator (by decide), c.hTerminator]
  exact Ends.pure ⟨hNow, id, h₃⟩

/-- The statement of a constant adds the constant to an entity that accepts it. -/
theorem ends_readConstant (hE : ∀ f, ¬ c.Allowed → E f) {content : EntityId → Parsing Unit}
    (hAccepts : Tree.Accepts .const .const owner c.name.text I J) (h : s.Awaits env (c.tokens ++ ts) I) :
    Ends (readStatement content owner) s (fun _ s' => c.Allowed ∧ ∃ id,
      s'.Awaits env ts (J id c.declaration)) E := by
  have hLasting := hAccepts.before
  obtain ⟨first, rest, hType, -⟩ := c.hType.exists_cons
  obtain ⟨hNoDefinition, hPlain⟩ := c.first_plain hType
  have hTokens : c.tokens ++ ts = c.keyword :: first ::
      (rest ++ c.name :: (c.sizes.flatMap WrittenSize.bracketed ++
        c.sign :: (c.assignment ++ c.terminator :: ts))) := by
    unfold ConstStatement.tokens
    rw [hType]
    simp
  rw [hTokens] at h
  have hFinish : first.isFinish = false := h.unfinished first (by simp)
  have hAdmits := hAccepts.admits s.tree h.tree
  unfold readStatement
  refine Ends.entity ?_
  refine (ends_commentsBefore h hLasting).bind fun comments s₁ h₁ => ?_
  refine (ends_next h₁ hLasting).bind ?_
  rintro k s₂ ⟨rfl, h₂⟩
  have hModifiers : Ends (readModifiers (s.tree.get owner).kind c.keyword) s₂ (fun r s' =>
      r = ({ const := true }, first) ∧
      s'.Awaits env (rest ++ c.name :: (c.sizes.flatMap WrittenSize.bracketed ++
        c.sign :: (c.assignment ++ c.terminator :: ts))) I) E := by
    unfold readModifiers
    dsimp only
    rw [c.hKeyword, if_pos rfl, hAdmits]
    refine (ends_next h₂ hLasting).bind ?_
    rintro u s' ⟨rfl, h'⟩
    exact Ends.pure ⟨rfl, h'⟩
  refine hModifiers.bind ?_
  rintro r s₃ ⟨rfl, h₃⟩
  have hDefinition : definitionKind? first = pure none := by
    unfold definitionKind?
    rw [hNoDefinition]
  dsimp only
  rw [hDefinition, pure_bind]
  dsimp only
  unfold Statement.readMember
  have hOne : first.isOneOf ["case", "default"] = false := by
    simp [Token.isOneOf, hPlain "case" (by simp), hPlain "default" (by simp)]
  dsimp only
  rw [hPlain ";" (by simp), hOne, hPlain "attribute" (by simp)]
  refine (ends_putBack h₃ hFinish).bind fun _ s₄ h₄ => ?_
  have hRead := c.hType
  rw [hType] at hRead
  refine (ends_readType hRead c.hBase c.isInteger h₄ hLasting c.hSeparate).bind ?_
  rintro type s₅ ⟨rfl, h₅⟩
  exact ends_readDeclarations c hE rfl rfl hAccepts h₅

end Declarations

/-! ## Modules -/

/-- What is known about the tree while the constants of a module are read. -/
abbrev InModule (env : Environment) (owner : EntityId) (name : String) (members : List ConstMember)
    (t : Tree) : Prop := t.Holds (env.enables .caseSensitiveNames) owner name members

theorem InModule.key_eq {t : Tree} {owner : EntityId} {name : String} {members : List ConstMember}
    (h : InModule env owner name members t) (written : String) :
    t.key written = env.fold written := key_eq_of_caseSensitive h.caseSensitive written

/-- A module accepts constants of other names. -/
theorem InModule.accepts {owner : EntityId} {name new : String} {members : List ConstMember}
    (hNew : ∀ x ∈ members, env.fold x.name ≠ env.fold new) :
    Tree.Accepts .const .const owner new (InModule env owner name members)
      (fun id d => InModule env owner name (members ++ [⟨id, new, d⟩])) where
  before := Holds.lasting
  behind := fun _ _ => Holds.lasting
  pos := fun _ _ _ h => Nat.lt_of_le_of_lt (Nat.zero_le _) h.lt
  admits := by
    intro t h
    rw [h.kind]
    rfl
  declare := by
    intro t h d source span
    refine h.declare fun x hx => ?_
    rw [h.key_eq, h.key_eq]
    exact hNew x hx
  modify := by
    intro id d t h f
    have hModify := h.modify id f
    rw [HasConstants.map_last h.nodup f] at hModify
    exact hModify

end Parsing

end IdlReader
