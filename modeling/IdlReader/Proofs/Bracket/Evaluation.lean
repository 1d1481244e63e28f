import IdlReader.Proofs.Bracket.Tree
import IdlReader.Proofs.Stage.Conformance

/-!
# Brackets of expressions and initializers

An expression that has a value is bracketed: operands stand between round brackets or are no
brackets, and indices stand between square ones. The elements of an initializer are expressions or
initializers themselves, and there is nothing but commas and curly brackets around them. So all
that a declaration keeps is bracketed when it was evaluated.

* `gives_evaluateIn_enclosed`: expressions.
* `gives_buildValue_enclosed`: initializers.
* `Stage.Evaluated.closed`: what a declaration keeps.
-/

namespace IdlReader

/-! ## Tokens of expressions -/

namespace Expression.Tokens

variable {ts us vs : Tokens} {text : String}

/-- Whether what is taken between two lists of tokens is bracketed. -/
def Spends (ts us : Tokens) : Prop := ∃ taken, ts.rest = taken ++ us.rest ∧ Enclosed taken

theorem Spends.refl (ts : Tokens) : ts.Spends ts := ⟨[], rfl, .nil⟩

theorem Spends.trans (h : ts.Spends us) (h' : us.Spends vs) : ts.Spends vs := by
  obtain ⟨taken, hTaken, hEnclosed⟩ := h
  obtain ⟨taken', hTaken', hEnclosed'⟩ := h'
  exact ⟨taken ++ taken', by rw [hTaken, hTaken', List.append_assoc], hEnclosed.append hEnclosed'⟩

theorem advance_rest {t : Token} {rest : List Token} (h : ts.rest = t :: rest) :
    ts.advance.rest = rest := by
  rw [advance, h]
  rfl

/-- A token that is no bracket is taken. -/
theorem spends_advance {t : Token} {rest : List Token} (h : ts.rest = t :: rest)
    (ht : Enclosed [t]) : ts.Spends ts.advance :=
  ⟨[t], by rw [advance_rest h, h, List.singleton_append], ht⟩

theorem eat?_eq_some (h : ts.eat? text = some us) :
    ∃ t rest, ts.rest = t :: rest ∧ t.is text = true ∧ us = ts.advance := by
  unfold eat? at h
  split at h
  · rename_i t rest hRest
    split at h
    · rename_i hMark
      cases h
      exact ⟨t, rest, hRest, hMark, rfl⟩
    · cases h
  · cases h

/-- A mark that is no bracket is taken. -/
theorem spends_eat? (h : ts.eat? text = some us) (hText : markOf text = []) : ts.Spends us := by
  obtain ⟨t, rest, hRest, hMark, rfl⟩ := eat?_eq_some h
  exact spends_advance hRest (.of_brackets (brackets_of_mark hMark hText))

/-- Two partners and what stands between them are taken. -/
theorem spends_pair {opening : Token} {rest : List Token} (hRest : ts.rest = opening :: rest)
    {shape : Shape} (hOpening : brackets [opening] = [.opening shape])
    (hInner : ts.advance.Spends us) (hEat : us.eat? text = some vs)
    (hText : markOf text = [.closing shape]) : ts.Spends vs := by
  obtain ⟨taken, hTaken, hEnclosed⟩ := hInner
  obtain ⟨closing, behind, hBehind, hMark, rfl⟩ := eat?_eq_some hEat
  have hClosing : brackets [closing] = [.closing shape] := (brackets_of_is hMark).trans hText
  refine ⟨opening :: (taken ++ [closing]), ?_, .pair hOpening hClosing hEnclosed⟩
  rw [advance_rest hBehind, hRest, ← advance_rest hRest, hTaken, hBehind]
  simp only [List.cons_append, List.append_assoc, List.nil_append]

end Expression.Tokens

namespace Parsing

open IdlReader.Tree

variable {α β : Type} {u : Session}

theorem Gives.mapM_forall {f : α → Parsing β} {P : α → Prop} {l : List α}
    (h : ∀ a ∈ l, Gives u (f a) fun _ => P a) : Gives u (l.mapM f) fun _ => ∀ a ∈ l, P a := by
  induction l with
  | nil => exact .pure fun _ ha => absurd ha List.not_mem_nil
  | cons a l ih =>
    rw [List.mapM_cons]
    refine (h a List.mem_cons_self).bind fun _ ha => ?_
    refine (ih fun b hb => h b (List.mem_cons_of_mem a hb)).bind fun _ hl => .pure ?_
    exact List.forall_mem_cons.mpr ⟨ha, hl⟩

/-! ## Expressions -/

section Expressions

open Expression

theorem gives_expect (ts : Tokens) (text : String) :
    Gives u (ts.expect text) fun us => ts.eat? text = some us := by
  unfold Tokens.expect
  split
  · rename_i us hEat
    exact .pure hEat
  · exact .failAt _ _

theorem markOf_of_signs {α : Type} {signs : List (α × String)} {sign : String} {op : α}
    (hSigns : ∀ s ∈ signs, markOf s.2 = [])
    (h : (signs.find? fun s => s.2 == sign).map Prod.fst = some op) : markOf sign = [] := by
  obtain ⟨s, hs, -⟩ := Option.map_eq_some_iff.mp h
  have hFound := List.find?_some hs
  have hSign : s.2 = sign := beq_iff_eq.mp hFound
  exact hSign ▸ hSigns s (List.mem_of_find?_eq_some hs)

theorem enclosed_of_unaryOperator? {t : Token} {op : UnaryOperator}
    (h : unaryOperator? t = some op) : Enclosed [t] := by
  unfold unaryOperator? at h
  split at h
  · exact .of_brackets (brackets_of_markOf (markOf_of_signs (by decide) h))
  · cases h

theorem enclosed_of_binaryOperator? {t : Token} {op : BinaryOperator}
    (h : binaryOperator? t = some op) : Enclosed [t] := by
  unfold binaryOperator? at h
  split at h
  · exact .of_brackets (brackets_of_markOf (markOf_of_signs (by decide) h))
  · cases h

/-- Whether an action on the tokens of an expression takes what is bracketed. -/
def SpendsTokens (u : Session) (x : Tokens → Parsing (Evaluated × Tokens)) : Prop :=
  ∀ ts, Gives u (x ts) fun r => ts.Spends r.2

/-- Whether operands are bracketed if the expressions inside of them are. An operand starts with a
token that is no bracket. -/
def SpendsOperands (u : Session) (resolve : Resolver Parsing) : Prop :=
  ∀ index, SpendsTokens u index → ∀ (ts : Tokens) (t : Token) (rest : List Token),
    ts.rest = t :: rest → Enclosed [t] → Gives u (resolve index ts) fun r => ts.Spends r.2

variable {resolve : Resolver Parsing}

theorem gives_applyUnary (op : UnaryOperator) (p : Position) (a : Evaluated) :
    Gives u (applyUnary op p a) fun _ => True :=
  .of_replays (replays_applyUnary op p a)

theorem gives_applyBinary (op : BinaryOperator) (p : Position) (a b : Evaluated) :
    Gives u (applyBinary op p a b) fun _ => True :=
  .of_replays (replays_applyBinary op p a b)

theorem spends_steps (hResolve : SpendsOperands u resolve) (n : Nat) :
    SpendsTokens u (operand resolve n) ∧ (∀ level, SpendsTokens u (climb resolve n level)) ∧
      ∀ level lhs, SpendsTokens u (extend resolve n level lhs) := by
  induction n with
  | zero =>
    refine ⟨fun ts => ?_, fun level ts => ?_, fun level lhs ts => ?_⟩
    · rw [operand]
      exact .fail _
    · rw [climb]
      exact .fail _
    · rw [extend]
      exact .fail _
  | succ n ih =>
    obtain ⟨ihOperand, ihClimb, ihExtend⟩ := ih
    refine ⟨fun ts => ?_, fun level ts => ?_, fun level lhs ts => ?_⟩
    · rw [operand]
      split
      · exact .failAt _ _
      · rename_i t rest hRest
        have hResolved := hResolve _ (ihClimb lowestPrecedence) ts t rest hRest
        split
        · rename_i hOpen
          refine (ihClimb _ _).bind ?_
          rintro ⟨inner, us⟩ hInner
          refine (gives_expect us ")").bind fun vs hEat => .pure ?_
          exact Tokens.spends_pair hRest (brackets_of_is hOpen) hInner hEat rfl
        · split
          · rename_i op hOp
            refine (ihClimb _ _).bind ?_
            rintro ⟨inner, us⟩ hInner
            refine (gives_applyUnary _ _ _).bind fun _ _ => .pure ?_
            exact (Tokens.spends_advance hRest (enclosed_of_unaryOperator? hOp)).trans hInner
          · split
            · rename_i kind hKind
              have hPlain : t.isPlain = false := by rw [Token.isPlain, hKind]
              refine (Gives.orThrow _).bind fun _ _ => .pure ?_
              exact Tokens.spends_advance hRest (.of_brackets (brackets_of_not_isPlain hPlain))
            · rename_i hKind
              exact hResolved (.of_isWord (by rw [Token.isWord, Token.isIdentifier, hKind]; rfl))
            · rename_i hKind
              exact hResolved (.of_isWord (by
                rw [Token.isWord, Token.isKeyword, hKind]
                exact Bool.or_true _))
            · split
              · rename_i hMark
                exact hResolved (.of_brackets (brackets_of_mark hMark rfl))
              · exact .failAt _ _
    · rw [climb]
      refine (ihOperand ts).bind ?_
      rintro ⟨lhs, us⟩ hOperand
      exact (ihExtend level lhs us).mono fun _ hRest => hOperand.trans hRest
    · rw [extend]
      split
      · exact .pure (.refl ts)
      · rename_i t rest hRest
        split
        · exact .pure (.refl ts)
        · split
          · exact .failAt _ _
          · rename_i op hOp
            split
            · exact .pure (.refl ts)
            · refine (ihClimb _ _).bind ?_
              rintro ⟨rhs, us⟩ hInner
              refine (gives_applyBinary _ _ _ _).bind fun value _ => ?_
              have hFirst := Tokens.spends_advance hRest (enclosed_of_binaryOperator? hOp)
              exact (ihExtend level value us).mono fun _ hBehind =>
                (hFirst.trans hInner).trans hBehind

/-- Expressions are bracketed: all their tokens are taken. -/
theorem gives_evaluate_enclosed (hResolve : SpendsOperands u resolve) (tokens : List Token) :
    Gives u (evaluate resolve tokens) fun _ => Enclosed tokens := by
  have hClimb := (spends_steps hResolve (budgetFor tokens)).2.1 lowestPrecedence
    (Tokens.ofList tokens)
  unfold evaluate evaluateAt
  dsimp only
  split
  · exact (Gives.fail (P := fun _ => False) _).bind fun _ hFalse => hFalse.elim
  · simp only [bind_assoc, pure_bind]
    refine hClimb.bind ?_
    rintro ⟨value, us⟩ ⟨taken, hTaken, hEnclosed⟩
    split
    · rename_i hNone
      refine .pure ?_
      have hAll : tokens = taken := by
        rw [← List.append_nil taken, ← hNone]
        exact hTaken
      exact hAll ▸ hEnclosed
    · exact .failAt _ _

end Expressions

/-! ## Operands -/

open Expression (Tokens)

theorem gives_scopedNameTail (place : Position) (n : Nat) (name : String) (ts : Tokens) :
    Gives u (scopedNameTail place n name ts) fun r => ts.Spends r.2 := by
  induction n generalizing name ts with
  | zero => exact .fail _
  | succ n ih =>
    unfold scopedNameTail
    dsimp only
    split
    · exact .pure (.refl ts)
    · rename_i us hNext
      have hSeparator : ts.Spends us := by
        split at hNext
        · cases hNext
          exact .refl ts
        · exact Tokens.spends_eat? hNext rfl
      split
      · exact .failAt _ _
      · rename_i t rest hRest
        split
        · rename_i hWord
          have hName := Tokens.spends_advance hRest
            (.of_isWord (by rw [Token.isWord, hWord, Bool.true_or]))
          exact (ih _ _).mono fun _ hTail => (hSeparator.trans hName).trans hTail
        · exact .failAtToken _ _

theorem enclosed_of_point {t : Token} (h : (t.kind == .operator && t.text == ".") = true) :
    Enclosed [t] := by
  rw [Bool.and_eq_true, beq_iff_eq, beq_iff_eq] at h
  exact .of_brackets (brackets_of_text (p := fun text => text = ".") (by decide) h.2)

theorem gives_accessorTail {index : Tokens → Parsing (Evaluated × Tokens)}
    (hIndex : SpendsTokens u index) (place : Position) (n : Nat) (ts : Tokens) :
    Gives u (accessorTail index place n ts) fun r => ts.Spends r.2.2 := by
  induction n generalizing ts with
  | zero => exact .fail _
  | succ n ih =>
    unfold accessorTail
    split
    · rename_i hPoint
      obtain ⟨t, rest, hRest⟩ : ∃ t rest, ts.rest = t :: rest := by
        cases hRest : ts.rest with
        | nil =>
          rw [hRest] at hPoint
          cases hPoint
        | cons t rest => exact ⟨t, rest, rfl⟩
      rw [hRest] at hPoint
      have hFirst := Tokens.spends_advance hRest (enclosed_of_point hPoint)
      dsimp only
      split
      · rename_i v rest' hRest'
        split
        · rename_i hWord
          refine (ih _).bind ?_
          rintro ⟨as, dynamic, us⟩ hTail
          exact .pure ((hFirst.trans (Tokens.spends_advance hRest' (.of_isWord hWord))).trans hTail)
        · exact .failAt _ _
      · exact .failAt _ _
    · split
      · exact .pure (.refl ts)
      · rename_i us hEat
        obtain ⟨opening, rest, hRest, hOpen, rfl⟩ := Tokens.eat?_eq_some hEat
        refine (hIndex _).bind ?_
        rintro ⟨i, vs⟩ hInner
        refine (gives_expect vs "]").bind fun ws hClose => ?_
        have hPair := Tokens.spends_pair hRest (brackets_of_is hOpen) hInner hClose rfl
        cases i with
        | dynamic =>
          refine (ih ws).bind ?_
          rintro ⟨as, dynamic, xs⟩ hTail
          exact .pure (hPair.trans hTail)
        | known c =>
          refine (Gives.orFailAt _ _).bind fun i _ => (ih ws).bind ?_
          rintro ⟨as, dynamic, xs⟩ hTail
          exact .pure (hPair.trans hTail)

theorem spends_resolver (scope : EntityId) : SpendsOperands u (resolver consult scope) := by
  intro index hIndex ts first rest hRest hFirst
  unfold resolver
  simp only [hRest]
  refine (gives_scopedNameTail _ _ _ _).bind ?_
  rintro ⟨name, us⟩ hName
  refine (gives_accessorTail hIndex _ _ us).bind ?_
  rintro ⟨accessors, dynamic, vs⟩ hAccessors
  refine Gives.tree ?_
  dsimp only
  split
  · exact .failAt _ _
  · refine (Gives.of_replays
      (replays_operandValue asks_consult consult_idle _ _ _ _ _)).bind fun v _ => .pure ?_
    exact ((Tokens.spends_advance hRest hFirst).trans hName).trans hAccessors

theorem gives_evaluateIn_enclosed (scope : EntityId) (tokens : List Token) :
    Gives u (evaluateIn consult scope tokens) fun _ => Enclosed tokens :=
  gives_evaluate_enclosed (spends_resolver scope) tokens

/-! ## Dimensions, entries and labels -/

theorem gives_arraySize_enclosed (scope : EntityId) (dimension : List Token) :
    Gives u (arraySize consult scope dimension) fun _ => Enclosed dimension := by
  unfold arraySize
  split
  · exact .pure .nil
  · refine (gives_evaluateIn_enclosed scope _).bind fun v hEnclosed => ?_
    split
    · exact .pure hEnclosed
    · refine (Gives.orFailAt _ _).bind fun size _ => ?_
      dsimp only
      split
      · exact .failAtToken_bind _ _
      · exact .pure hEnclosed

theorem gives_entryValue_enclosed (id : EntityId) (d : Declaration) (scope : EntityId) :
    Gives u (entryValue consult id d scope) fun _ => Enclosed d.assignment := by
  unfold entryValue
  split
  · rename_i hNone
    exact (gives_nextEntryValue id scope).bind fun _ _ => .pure (hNone ▸ .nil)
  · refine (gives_evaluateIn_enclosed _ _).bind fun v hEnclosed => ?_
    split
    · exact .failAtToken _ _
    · exact (Gives.orFailAt _ _).bind fun _ _ => .pure hEnclosed

theorem gives_labelValues_enclosed (union : EntityId) (switchKind : Option Kind)
    (labels : List (List Token)) :
    Gives u (labelValues consult union switchKind labels) fun _ => ∀ ts ∈ labels, Enclosed ts := by
  induction labels with
  | nil =>
    rw [labelValues]
    exact .pure fun _ h => absurd h List.not_mem_nil
  | cons label labels ih =>
    cases label with
    | nil =>
      rw [labelValues]
      exact ih.mono fun _ hLabels => List.forall_mem_cons.mpr ⟨.nil, hLabels⟩
    | cons first rest =>
      rw [labelValues]
      refine (gives_evaluateIn_enclosed _ _).bind fun v hFirst => ?_
      have hBehind : ∀ c : Constant, Gives u (do
          let cs ← labelValues consult union switchKind labels
          return c :: cs) fun _ => ∀ ts ∈ (first :: rest) :: labels, Enclosed ts := fun c =>
        ih.bind fun _ hLabels => .pure (List.forall_mem_cons.mpr ⟨hFirst, hLabels⟩)
      split
      · exact .failAtToken _ _
      · split
        · exact (Gives.orFailAt _ _).bind fun c _ => hBehind c
        · exact hBehind _

/-! ## Initializers -/

/-- Between the elements of an initializer there are only commas. -/
theorem gives_splitElements_enclosed (depth : Nat) (element tokens : List Token) :
    Gives u (splitElements depth element tokens) fun es =>
      (∀ e ∈ es, Enclosed e) → Enclosed (element.reverse ++ tokens) := by
  induction tokens generalizing depth element with
  | nil =>
    unfold splitElements
    rw [List.append_nil]
    cases element with
    | nil => exact .pure fun _ => .nil
    | cons t ts => exact .pure fun h => h _ (List.mem_singleton_self _)
  | cons t ts ih =>
    unfold splitElements
    split
    · rename_i hComma
      have hMark : Enclosed [t] :=
        .of_brackets (brackets_of_mark (Bool.and_eq_true_iff.mp hComma).1 rfl)
      split
      · exact .failAtToken _ _
      · refine (ih depth []).bind fun es hes => .pure fun h => ?_
        obtain ⟨hElement, hRest⟩ := List.forall_mem_cons.mp h
        exact hElement.append (hMark.cons (hes hRest))
    · refine (ih _ _).mono fun es hes h => ?_
      have hSame : (t :: element).reverse ++ ts = element.reverse ++ t :: ts := by
        rw [List.reverse_cons, List.append_assoc, List.singleton_append]
      exact hSame ▸ hes h

theorem gives_splitInitializer_enclosed (tokens : List Token) :
    Gives u (splitInitializer tokens) fun es => (∀ e ∈ es, Enclosed e) → Enclosed tokens := by
  unfold splitInitializer
  split
  · exact .pure fun _ => .nil
  · rename_i first rest
    dsimp only
    split
    · rename_i hBraces
      obtain ⟨hOpen, hLast⟩ := Bool.and_eq_true_iff.mp hBraces
      cases hGet : rest.getLast? with
      | none =>
        rw [hGet] at hLast
        cases hLast
      | some last =>
        rw [hGet] at hLast
        obtain ⟨inner, rfl⟩ := List.getLast?_eq_some_iff.mp hGet
        rw [List.dropLast_concat]
        exact (gives_splitElements_enclosed 0 [] inner).mono fun es hes h =>
          .pair (brackets_of_is hOpen) (brackets_of_is hLast) (hes h)
    · exact .failAtToken _ _

theorem gives_textElements_enclosed (type : DeclaredType) (size : Option Nat) {first : Token}
    {rest : List Token} (h : isTextLiteral (first :: rest) = true) :
    Gives u (textElements type size first) fun _ => Enclosed (first :: rest) := by
  have hEnclosed : Enclosed (first :: rest) := by
    cases rest with
    | nil =>
      have hKind : first.kind = .literal .string := beq_iff_eq.mp h
      exact .of_brackets (brackets_of_not_isPlain (by rw [Token.isPlain, hKind]))
    | cons => cases h
  unfold textElements
  refine (Gives.orThrow _).bind fun c _ => ?_
  dsimp only
  split
  · exact .failAtToken_bind _ _
  · refine (Gives.mapM_forall (P := fun _ => True) fun _ _ => ?_).bind fun _ _ => .pure hEnclosed
    exact (Gives.orFailAt _ _).bind fun _ _ => .pure trivial

theorem gives_scalarValue_enclosed (scope : EntityId) (type : DeclaredType) (constant : Bool)
    (first : Token) (tokens : List Token) :
    Gives u (scalarValue consult scope type constant first tokens) fun _ => Enclosed tokens := by
  unfold scalarValue
  refine (gives_evaluateIn_enclosed _ _).bind fun v hEnclosed => ?_
  split
  · split
    · exact .failAtToken _ _
    · exact .pure hEnclosed
  · split
    · exact .failAtToken _ _
    · exact (Gives.orFailAt _ _).bind fun _ _ => .pure hEnclosed

/-- Elements are built for members, of which there are enough. -/
theorem gives_buildMembers_enclosed {build : Builder}
    (hBuild : ∀ type sizes tokens, Gives u (build type sizes tokens) fun _ => Enclosed tokens)
    {members : List EntityId} (hMembers : ∀ m ∈ members, (u.tree.get m).declaration?.isSome = true)
    {elements : List (List Token)} (hLength : elements.length ≤ members.length) :
    Gives u (buildMembers consult build members elements) fun _ => ∀ e ∈ elements, Enclosed e := by
  induction members generalizing elements with
  | nil =>
    rw [List.eq_nil_of_length_eq_zero (Nat.le_zero.mp hLength)]
    exact .pure fun _ h => absurd h List.not_mem_nil
  | cons m ms ih =>
    obtain ⟨hMember, hRest⟩ := List.forall_mem_cons.mp hMembers
    obtain ⟨d, hd⟩ := Option.isSome_iff_exists.mp hMember
    unfold buildMembers
    refine (Gives.consult m).bind fun _ _ => Gives.entity ?_
    dsimp only
    rw [hd]
    cases elements with
    | nil => exact (ih hRest (Nat.zero_le _)).bind fun _ hNone => .pure hNone
    | cons tokens elements =>
      refine (hBuild _ _ tokens).bind fun _ hFirst => ?_
      exact (ih hRest (Nat.le_of_succ_le_succ hLength)).bind fun _ hBehind =>
        .pure (List.forall_mem_cons.mpr ⟨hFirst, hBehind⟩)

/-- Initializers are bracketed. -/
theorem gives_buildValue_enclosed
    (hFields : ∀ m, (u.tree.get m).kind = .field → (u.tree.get m).declaration?.isSome = true)
    (scope : EntityId) (constant : Bool) (n : Nat) (type : DeclaredType)
    (sizes : List (Option Nat)) (tokens : List Token) :
    Gives u (buildValue consult scope constant n type sizes tokens) fun _ => Enclosed tokens := by
  induction n generalizing type sizes tokens with
  | zero =>
    unfold buildValue
    exact .fail _
  | succ n ih =>
    cases tokens with
    | nil =>
      unfold buildValue
      exact .pure .nil
    | cons first rest =>
      cases sizes with
      | cons size inner =>
        rw [buildValue]
        split
        · rename_i hText
          exact gives_textElements_enclosed type size (Bool.and_eq_true_iff.mp hText).2
        · refine (gives_splitInitializer_enclosed _).bind fun es hes => ?_
          dsimp only
          split
          · exact .failAtToken_bind _ _
          · refine (Gives.mapM_forall fun e _ => ih type inner e).bind fun _ hEach => ?_
            exact .pure (hes hEach)
      | nil =>
        rw [buildValue]
        refine Gives.tree ?_
        split
        · exact gives_scalarValue_enclosed scope type constant first _
        · refine (gives_splitInitializer_enclosed _).bind fun es hes => ?_
          dsimp only
          split
          · exact .failAtToken_bind _ _
          · rename_i hFits
            refine (gives_buildMembers_enclosed (fun type sizes tokens => ih type sizes tokens)
              (fun m hm => hFields m ?_) (Nat.le_of_not_lt hFits)).bind fun _ hEach =>
                .pure (hes hEach)
            exact of_decide_eq_true (List.mem_filter.mp hm).2

/-- What a declaration keeps besides its dimensions. -/
theorem gives_declaredValue_enclosed
    (hFields : ∀ m, (u.tree.get m).kind = .field → (u.tree.get m).declaration?.isSome = true)
    (id : EntityId) (kind : EntityKind) (d : Declaration) (sizes : List (Option Nat))
    (scope : EntityId) :
    Gives u (declaredValue consult id kind d sizes scope) fun _ =>
      (kind.supportsAssignment = true → Enclosed d.assignment) ∧
        (kind = .caseEntry → ∀ ts ∈ d.labels, Enclosed ts) := by
  have hBuild : ∀ constant, Gives u (do
      let v ← buildValue consult scope constant (d.assignment.length + 1) d.type sizes d.assignment
      return (v, ([] : List Constant))) fun _ => Enclosed d.assignment := fun constant =>
    (gives_buildValue_enclosed hFields scope constant _ _ _ _).bind fun _ h => .pure h
  unfold declaredValue
  cases kind with
  | enumEntry =>
    exact (gives_entryValue_enclosed id d scope).bind fun _ h => .pure ⟨fun _ => h, nofun⟩
  | caseEntry =>
    refine Gives.tree ((gives_labelValues_enclosed _ _ _).bind fun _ h => ?_)
    exact .pure ⟨nofun, fun _ => h⟩
  | const => exact (hBuild _).mono fun _ h => ⟨fun _ => h, nofun⟩
  | field => exact (hBuild _).mono fun _ h => ⟨fun _ => h, nofun⟩
  | _ => exact .pure ⟨nofun, nofun⟩

end Parsing

/-! ## Declarations -/

namespace Stage

open IdlReader.Tree Parsing

/-- What an evaluated declaration keeps is bracketed. -/
theorem Evaluated.closed {t : Tree} {c : EntityId} {σ : Stage} (h : Evaluated t c σ)
    {d : Declaration} (hd : (t.get c).declaration? = some d) :
    (d.written (t.get c).kind).Closed := by
  have hFields : ∀ m, (σ.tree.get m).kind = .field → (σ.tree.get m).declaration?.isSome = true := by
    intro m hKind
    by_cases hLt : m < σ.tree.size
    · rw [h.sound.reachable.isDeclaration hLt, hKind]
      rfl
    · rw [get_of_le hLt] at hKind
      cases hKind
  have hValue := h.value hd (gives_declaredValue_enclosed hFields _ _ _ _ _)
  have hSizes : ∀ ts ∈ d.dimensions, Enclosed ts :=
    (Gives.mapM_forall (fun ts _ => gives_arraySize_enclosed _ ts) _ _
      (h.justified hd (sessionOf σ.tree) (Refines.refl σ.tree)).1).2
  exact ⟨hSizes, hValue.1, hValue.2⟩

/-- All that the declarations of a tree keep is bracketed if all definitions are closed. -/
theorem Advances.closed {t : Tree} {caseSensitive : Bool}
    (h : Advances (.start caseSensitive) ⟨t, [], false⟩) : t.Closed := by
  intro i w hw
  obtain ⟨d, hd, rfl⟩ := Option.map_eq_some_iff.mp hw
  obtain ⟨σ, hEvaluated⟩ := exists_evaluated h (c := i) (hd ▸ rfl)
  exact hEvaluated.closed hd

end Stage

end IdlReader
