import IdlReader.Proofs.Constant.Array
import IdlReader.Proofs.Expression.Grammar
import IdlReader.Proofs.Grammar.Ending
import IdlReader.Proofs.Outcome

/-!
# Evaluating initializers

The elements of an initializer are split at the commas between its braces, and each of them is
evaluated for the sizes that are left. Literal expressions have their value wherever they stand.

* `splitElements_grouped`, `splitElements_writes`: the elements of a list.
* `evaluateIn_literal`, `arraySize_written`: literal expressions and sizes.
* `ends_buildValue`: nested lists.
-/

namespace IdlReader

/-! ## Literal expressions -/

namespace Expression

variable {M : Type → Type} [Monad M] [MonadExceptOf Fault M] [LawfulMonad M] {p : Position}
  {v w u : Evaluated}

theorem applyUnary_eq_pure {op : UnaryOperator}
    (h : (applyUnary op p v : Except Fault Evaluated) = .ok w) :
    (applyUnary op p v : M Evaluated) = pure w := by
  cases v with
  | dynamic =>
    cases h
    rfl
  | known c =>
    unfold applyUnary at h ⊢
    dsimp only at h ⊢
    cases hValue : Constant.unary op c with
    | error cause =>
      rw [hValue] at h
      cases h
    | ok d =>
      rw [hValue] at h
      cases h
      exact pure_bind _ _

theorem applyBinary_eq_pure {op : BinaryOperator}
    (h : (applyBinary op p v w : Except Fault Evaluated) = .ok u) :
    (applyBinary op p v w : M Evaluated) = pure u := by
  cases v with
  | dynamic =>
    cases h
    rfl
  | known c =>
    cases w with
    | dynamic =>
      cases h
      rfl
    | known d =>
      unfold applyBinary at h ⊢
      dsimp only at h ⊢
      cases hValue : Constant.binary op c d with
      | error cause =>
        rw [hValue] at h
        cases h
      | ok e =>
        rw [hValue] at h
        cases h
        exact pure_bind _ _

/-- The outcome of an expression without operands depends on nothing else. -/
theorem outcome_of_operands_eq_nil {e : Tree} (hLiteral : e.operands = [])
    {values : Token → Except Fault Evaluated} (hValue : e.value values = .ok v)
    (f : Token → M Evaluated) : e.outcome f = pure v := by
  induction e generalizing v with
  | literal t =>
    obtain ⟨c, hc, hv⟩ := bind_eq_ok.mp hValue
    cases hv
    rw [Tree.outcome, hc]
    exact pure_bind _ _
  | operand t => cases hLiteral
  | unary op p e ih =>
    rw [value_unary] at hValue
    obtain ⟨w, hw, hv⟩ := bind_eq_ok.mp hValue
    rw [Tree.outcome, ih hLiteral hw, pure_bind]
    exact applyUnary_eq_pure hv
  | binary op p l r ihLeft ihRight =>
    obtain ⟨hLeft, hRight⟩ := List.append_eq_nil_iff.mp hLiteral
    rw [value_binary] at hValue
    obtain ⟨w, hw, hValue⟩ := bind_eq_ok.mp hValue
    obtain ⟨u, hu, hv⟩ := bind_eq_ok.mp hValue
    rw [Tree.outcome, ihLeft hLeft hw, pure_bind, ihRight hRight hu, pure_bind]
    exact applyBinary_eq_pure hv

end Expression

namespace Parsing

variable {s : Session} {E : Fault → Prop} {evaluate : EntityId → Parsing Unit} {scope : EntityId}

theorem evaluateIn_literal (l : LiteralExpression) :
    evaluateIn evaluate scope l.tokens = pure (.known l.constant) := by
  have hTakes : ∀ t ∈ l.expression.operands, Expression.Takes (resolver evaluate scope)
      (fun _ => pure .dynamic) t := by
    rw [l.hLiteral]
    exact nofun
  unfold evaluateIn
  rw [Expression.evaluate_writes l.hTokens hTakes]
  exact Expression.outcome_of_operands_eq_nil l.hLiteral l.hValue _

theorem arraySize_written (w : WrittenSize) :
    arraySize evaluate scope w.tokens = pure (some w.size) := by
  obtain ⟨first, rest, hTokens⟩ := List.exists_cons_of_ne_nil w.hTokens.ne_nil
  have hValue : evaluateIn evaluate scope w.tokens = pure (.known w.constant) :=
    evaluateIn_literal w.toLiteralExpression
  have hPositive : (w.size : Int) ≠ 0 := by
    have hOne := w.hPositive
    omega
  rw [hTokens] at hValue ⊢
  unfold arraySize
  dsimp only
  rw [hValue, pure_bind]
  dsimp only
  rw [w.hSize]
  dsimp only [Expression.orFailAt]
  rw [pure_bind, if_neg hPositive]
  simp

theorem mapM_arraySize (ws : List WrittenSize) :
    (ws.map fun w => w.tokens).mapM (arraySize evaluate scope) =
      pure (ws.map fun w => some w.size) := by
  induction ws with
  | nil => rfl
  | cons w ws ih =>
    rw [List.map_cons, List.mapM_cons, arraySize_written, ih]
    simp

/-! ## Lists -/

/-- Splitting goes past tokens in which brackets match. -/
theorem splitElements_grouped {commas : Bool} {ts : List Token} (h : Grouped commas ts)
    {depth : Nat} (hDepth : commas = true → 0 < depth) (element rest : List Token) :
    splitElements depth element (ts ++ rest) = splitElements depth (ts.reverse ++ element) rest := by
  -- A token that is no comma between elements.
  have hStep : ∀ {t : Token} {depth : Nat} {element rest : List Token},
      (t.is "," && depth == 0) = false → splitElements depth element (t :: rest) =
        splitElements (initializerDepth depth t) (t :: element) rest := by
    intro t depth element rest hInside
    rw [splitElements, hInside]
    rfl
  have hOpen : ∀ {t : Token} {text : String} {depth : Nat}, t.is text = true →
      text ∈ ["\x7b", "(", "["] → initializerDepth depth t = depth + 1 := by
    intro t text depth hIs hText
    have hOne : t.isOneOf ["\x7b", "(", "["] = true := List.any_eq_true.mpr ⟨text, hText, hIs⟩
    rw [initializerDepth, if_pos hOne]
  have hClose : ∀ {t : Token} {text : String} {depth : Nat}, t.is text = true →
      text ∈ ["\x7d", ")", "]"] → initializerDepth (depth + 1) t = depth := by
    intro t text depth hIs hText
    have hOne : t.isOneOf ["\x7d", ")", "]"] = true := List.any_eq_true.mpr ⟨text, hText, hIs⟩
    have hDisjoint : ∀ other ∈ ["\x7b", "(", "["], other ∉ ["\x7d", ")", "]"] := by decide
    have hNone : t.isOneOf ["\x7b", "(", "["] = false := List.any_eq_false.mpr fun other hOther => by
      have hNot : t.is other = false := by
        refine Token.not_is_of_is hIs ?_
        rintro rfl
        exact hDisjoint text hOther hText
      rw [hNot]
      decide
    rw [initializerDepth, hNone, if_neg (by decide), if_pos hOne]
    rfl
  -- Brackets around tokens that are gone past.
  have hPair : ∀ {o c : Token} {ts : List Token} {opening closing : String} {depth : Nat}
      {element rest : List Token}, o.is opening = true → opening ∈ ["\x7b", "(", "["] →
      c.is closing = true → closing ∈ ["\x7d", ")", "]"] →
      (∀ element rest, splitElements (depth + 1) element (ts ++ rest) =
        splitElements (depth + 1) (ts.reverse ++ element) rest) →
      splitElements depth element (o :: (ts ++ [c]) ++ rest) =
        splitElements depth ((o :: (ts ++ [c])).reverse ++ element) rest := by
    intro o c ts opening closing depth element rest hOpening hFirst hClosing hLast hInner
    have hComma : ∀ {t : Token} {text : String} {depth : Nat}, t.is text = true → text ≠ "," →
        (t.is "," && depth == 0) = false := fun hIs hNe => by
      rw [Token.not_is_of_is hIs hNe]
      rfl
    have hNeFirst : opening ≠ "," := by
      rintro rfl
      exact absurd hFirst (by decide)
    have hNeLast : closing ≠ "," := by
      rintro rfl
      exact absurd hLast (by decide)
    rw [List.cons_append, List.append_assoc, hStep (hComma hOpening hNeFirst),
      hOpen hOpening hFirst, hInner, List.singleton_append, hStep (hComma hClosing hNeLast),
      hClose hClosing hLast]
    simp
  induction h generalizing depth element rest with
  | nil => rfl
  | @token commas t hFinish hPlain =>
    have hSame : initializerDepth depth t = depth := by
      have hOther : ∀ text ∈ ["\x7b", "(", "[", "\x7d", ")", "]"], t.is text = false := fun text hText =>
        hPlain text ((by decide : ["\x7b", "(", "[", "\x7d", ")", "]"] ⊆ Token.marks) hText)
      simp [initializerDepth, Token.isOneOf, hOther]
    rw [List.singleton_append, hStep (by rw [hPlain "," (by decide)]; rfl), hSame]
    rfl
  | @comma t hComma =>
    have hSame : initializerDepth depth t = depth := by
      have hOther : ∀ text, "," ≠ text → t.is text = false := fun text =>
        Token.not_is_of_is hComma
      simp [initializerDepth, Token.isOneOf, hOther]
    have hInside : (t.is "," && depth == 0) = false := by
      rw [beq_eq_false_iff_ne.mpr (Nat.ne_of_gt (hDepth rfl)), Bool.and_false]
    rw [List.singleton_append, hStep hInside, hSame]
    rfl
  | append hFirst hSecond ihFirst ihSecond =>
    rw [List.append_assoc, ihFirst hDepth, ihSecond hDepth, List.reverse_append, List.append_assoc]
  | round hOpening hClosing hInner ih | curly hOpening hClosing hInner ih =>
    exact hPair hOpening (by decide) hClosing (by decide) (ih fun _ => Nat.succ_pos depth)

/-- The elements of a list are split as they are written. -/
theorem splitElements_writes {α : Type} {Writes : α → List Token → Prop} {as : List α}
    {ts : List Token} (h : WritesElements Writes as ts)
    (hElement : ∀ a us, Writes a us → Grouped false us ∧ us ≠ []) :
    ∃ uss, splitElements 0 [] ts = pure uss ∧ List.Forall₂ Writes as uss ∧
      ∀ us ∈ uss, us.length ≤ ts.length := by
  induction h with
  | nil => exact ⟨[], rfl, .nil, nofun⟩
  | @last a ts hLast =>
    obtain ⟨hGroup, hSome⟩ := hElement a ts hLast
    refine ⟨[ts], ?_, .cons hLast .nil, List.forall_mem_singleton.mpr (Nat.le_refl _)⟩
    have hSplit : splitElements 0 [] (ts ++ []) = splitElements 0 (ts.reverse ++ []) [] :=
      splitElements_grouped hGroup nofun [] []
    rw [List.append_nil, List.append_nil] at hSplit
    rw [hSplit, splitElements, List.isEmpty_eq_false_iff.mpr (by simpa using hSome), if_neg (by decide),
      List.reverse_reverse]
  | @cons a as ts us comma hFirst hComma hRest ih =>
    obtain ⟨hGroup, hSome⟩ := hElement a ts hFirst
    obtain ⟨uss, hSplit, hElements, hLengths⟩ := ih
    refine ⟨ts :: uss, ?_, .cons hFirst hElements, List.forall_mem_cons.mpr ⟨?_, fun vs hvs => ?_⟩⟩
    · have hEnd : (comma.is "," && (0 : Nat) == 0) = true := by
        rw [hComma]
        rfl
      rw [splitElements_grouped hGroup nofun, List.append_nil, splitElements, hEnd, if_pos rfl,
        List.isEmpty_eq_false_iff.mpr (by simpa using hSome), if_neg (by decide), hSplit, pure_bind,
        List.reverse_reverse]
    · rw [List.length_append]
      omega
    · have hLength := hLengths vs hvs
      rw [List.length_append, List.length_cons]
      omega

/-- An action on each of a list of tokens, where each has what belongs to it as its outcome. -/
theorem ends_mapM {α β : Type} {Writes : α → List Token → Prop} {Good : α → Prop} {f : α → β}
    {act : List Token → Parsing β} {as : List α} {uss : List (List Token)}
    (h : List.Forall₂ Writes as uss)
    (hAct : ∀ a us, us ∈ uss → Writes a us →
      Ends (act us) s (fun b s' => s' = s ∧ Good a ∧ b = f a) fun _ => ¬ Good a) :
    Ends (uss.mapM act) s (fun bs s' => s' = s ∧ (∀ a ∈ as, Good a) ∧ bs = as.map f)
      fun _ => ¬ ∀ a ∈ as, Good a := by
  induction h with
  | nil => exact Ends.pure ⟨rfl, nofun, rfl⟩
  | @cons a us as uss hFirst hRest ih =>
    rw [List.mapM_cons]
    refine ((hAct a us List.mem_cons_self hFirst).faults fun f hNot hAll =>
      hNot (hAll a List.mem_cons_self)).bind ?_
    rintro b s' ⟨rfl, hGood, rfl⟩
    refine ((ih fun c vs hvs => hAct c vs (List.mem_cons_of_mem _ hvs)).faults fun f hNot hAll =>
      hNot fun c hc => hAll c (List.mem_cons_of_mem _ hc)).bind ?_
    rintro bs s'' ⟨rfl, hAll, rfl⟩
    exact Ends.pure ⟨rfl, List.forall_mem_cons.mpr ⟨hGood, hAll⟩, rfl⟩

/-- Nested lists in braces are evaluated exactly if they keep to the sizes. -/
theorem ends_buildValue {kind : IntegerKind} {type : DeclaredType}
    (hKind : type.kind? = some (.integer kind)) (hDefinition : type.definition = none)
    {sizes : List Nat} {v : NestedList (WrittenLeaf kind) sizes.length} {ts : List Token}
    (h : WritesNested sizes.length v ts) {n : Nat} (hBudget : ts.length < n) :
    Ends (buildValue evaluate scope true n type (sizes.map some) ts) s
      (fun w s' => s' = s ∧ v.Fits sizes ∧ w = NestedList.node WrittenLeaf.value _ v)
      fun _ => ¬ v.Fits sizes := by
  obtain ⟨n, rfl⟩ : ∃ m, n = m + 1 := ⟨n - 1, by omega⟩
  induction sizes generalizing s ts n with
  | nil =>
    let leaf : WrittenLeaf kind := v
    have hTokens : ts = leaf.tokens := h
    obtain ⟨first, rest, hFirst⟩ := List.exists_cons_of_ne_nil leaf.hTokens.ne_nil
    have hValue : evaluateIn evaluate scope leaf.tokens = pure (.known leaf.constant) :=
      evaluateIn_literal leaf.toLiteralExpression
    rw [hTokens, hFirst]
    rw [hFirst] at hValue
    unfold buildValue
    refine Ends.tree ?_
    have hScalar : compoundDefinition? s.tree type = none := by
      unfold compoundDefinition?
      rw [hDefinition]
      rfl
    rw [hScalar]
    dsimp only
    unfold scalarValue
    rw [hValue, pure_bind]
    dsimp only
    rw [hKind]
    dsimp only
    rw [leaf.hCast]
    exact Ends.pure ⟨rfl, trivial, rfl⟩
  | cons size sizes ih =>
    let vs : List (NestedList (WrittenLeaf kind) sizes.length) := v
    obtain ⟨opening, closing, inner, hOpening, hClosing, hElements, rfl⟩ := h
    have hText : isTextLiteral (opening :: (inner ++ [closing])) = false := by
      unfold isTextLiteral
      cases inner <;> rfl
    obtain ⟨uss, hSplit, hWrites, hLengths⟩ := splitElements_writes hElements fun w us hw =>
      ⟨WritesNested.grouped hw, WritesNested.ne_nil hw⟩
    have hInitializer : splitInitializer (opening :: (inner ++ [closing])) = pure uss := by
      unfold splitInitializer
      dsimp only
      rw [List.getLast?_concat, List.dropLast_concat, hOpening]
      simp [hClosing, hSplit]
    have hLength : uss.length = vs.length := hWrites.length_eq.symm
    have hFits : NestedList.Fits (size :: sizes) v ↔
        vs.length ≤ size ∧ ∀ w ∈ vs, NestedList.Fits sizes w := Iff.rfl
    rw [List.map_cons]
    unfold buildValue
    rw [hText, Bool.and_false, if_neg (by decide), hInitializer, pure_bind, hLength]
    by_cases hSize : vs.length ≤ size
    · rw [if_neg (by simpa using hSize)]
      simp only [List.length_cons, List.length_append, List.length_nil] at hBudget
      refine ((ends_mapM (f := NestedList.node WrittenLeaf.value sizes.length) hWrites
        fun w us hus hw => ?_).faults fun f hNot hAll => hNot (hFits.mp hAll).2).bind ?_
      · obtain ⟨m, rfl⟩ : ∃ m, n = m + 1 := ⟨n - 1, by omega⟩
        have hShort := hLengths us hus
        exact ih hw m (by omega)
      · rintro ws s' ⟨rfl, hAll, rfl⟩
        exact Ends.pure ⟨rfl, hFits.mpr ⟨hSize, hAll⟩, rfl⟩
    · rw [if_pos (by simpa using hSize)]
      exact Ends.failAt fun hAll => hSize (hFits.mp hAll).1

end Parsing

end IdlReader
