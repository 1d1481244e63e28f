import IdlReader.Proofs.Token.Alike
import IdlReader.Source.Condition

/-!
# Places of tokens in calls and conditions

Macros and conditions do not look at the places of tokens: alike calls expand to alike tokens, and a
condition holds wherever its directive stands.

* `Macro.alike_expand`: the expansion of a call.
* `Condition.alike_holds`: the condition of a directive.
-/

namespace IdlReader

namespace Macro

/-- Whether the arguments of two calls differ at most in the places of tokens. -/
abbrev AlikeArguments : List (List Token) → List (List Token) → Prop := List.Forall₂ Alike

/-! ## Arguments -/

theorem alike_consFirst {t u : Token} {as bs : List (List Token)} (ht : t.Alike u)
    (h : AlikeArguments as bs) : AlikeArguments (consFirst t as) (consFirst u bs) := by
  cases h with
  | nil => exact .cons (.cons ht .nil) .nil
  | cons ha has => exact .cons (.cons ht ha) has

theorem alike_splitArguments {ts us : List Token} (h : Alike ts us) (depth : Nat) :
    Option.Rel (fun r s => AlikeArguments r.1 s.1 ∧ r.2 = s.2) (splitArguments depth ts)
      (splitArguments depth us) := by
  induction h generalizing depth with
  | nil => exact .none
  | @cons t u ts us ht _ ih =>
    have hRest : ∀ (depth : Nat) (f g : List (List Token) → List (List Token)),
        (∀ as bs, AlikeArguments as bs → AlikeArguments (f as) (g bs)) →
        Option.Rel (fun r s => AlikeArguments r.1 s.1 ∧ r.2 = s.2)
          ((splitArguments depth ts).map fun r => (f r.1, r.2 + 1))
          ((splitArguments depth us).map fun r => (g r.1, r.2 + 1)) := by
      intro depth f g hfg
      have hSplit := ih depth
      revert hSplit
      generalize splitArguments depth ts = x
      generalize splitArguments depth us = y
      intro hSplit
      cases hSplit with
      | none => exact .none
      | some hrs => exact .some ⟨hfg _ _ hrs.1, congrArg (· + 1) hrs.2⟩
    rw [splitArguments, splitArguments, ht.is ")", ht.is ","]
    split
    · exact .some ⟨.cons .nil .nil, rfl⟩
    · split
      · exact hRest 0 ([] :: ·) ([] :: ·) fun _ _ h => .cons .nil h
      · rw [depthAfter, depthAfter, ht.is "(", ht.is ")"]
        exact hRest _ _ _ fun _ _ h => alike_consFirst ht h

theorem alike_arguments {ts us : List Token} (h : Alike ts us) :
    Corresponds (fun r s => AlikeArguments r.1 s.1 ∧ r.2 = s.2) (arguments ts) (arguments us) := by
  have hSplit := alike_splitArguments h 0
  unfold arguments
  revert hSplit
  generalize splitArguments 0 ts = x
  generalize splitArguments 0 us = y
  intro hSplit
  cases hSplit with
  | none => exact .error _ _
  | some hrs => exact .ok hrs

theorem alike_matchArguments {t u : Token} (parameters : List String)
    {as bs : Option (List (List Token))} (h : Option.Rel AlikeArguments as bs) :
    Corresponds AlikeArguments (matchArguments t parameters as) (matchArguments u parameters bs) := by
  have hGiven : AlikeArguments (as.getD []) (bs.getD []) := by
    generalize as = as at h
    generalize bs = bs at h
    cases h with
    | none => exact .nil
    | some h => exact h
  have hEmpty : (as.getD [] == [[]]) = (bs.getD [] == [[]]) := by
    revert hGiven
    generalize as.getD [] = as
    generalize bs.getD [] = bs
    intro hGiven
    cases hGiven with
    | nil => rfl
    | cons ha has =>
      cases ha with
      | nil => cases has <;> rfl
      | cons => rfl
  have hCount : ∀ as bs : List (List Token), AlikeArguments as bs →
      Corresponds AlikeArguments
        (if as.length < parameters.length then failAt .argumentsMissing t.position
          else if parameters.length < as.length then failAt .argumentsTooMany t.position
          else .ok as : Except Fault (List (List Token)))
        (if bs.length < parameters.length then failAt .argumentsMissing u.position
          else if parameters.length < bs.length then failAt .argumentsTooMany u.position
          else .ok bs) := by
    intro as bs h
    rw [h.length_eq]
    split
    · exact .error _ _
    · split
      · exact .error _ _
      · exact .ok h
  refine hCount _ _ ?_
  rw [hEmpty]
  split
  · exact .nil
  · exact hGiven

/-! ## Substitution -/

theorem alike_stringize {as bs : List Token} (h : Alike as bs) (t u : Token) :
    (stringize as t).Alike (stringize bs u) :=
  ⟨rfl, by rw [stringize, stringize, h.joinTexts]; rfl, rfl⟩

theorem parameter?_congr (parameters : List String) {t u : Token} (h : t.Alike u) :
    parameter? parameters t = parameter? parameters u := by
  unfold parameter?
  rw [h.isWord, h.text]

namespace Call

variable {l : Lexicon} {c : Call} {bs : List (List Token)}
  {expand expand' : List Token → Except Fault (List Token)}

theorem alike_argument? (h : AlikeArguments c.arguments bs) {t u : Token} (ht : t.Alike u) :
    Option.Rel Alike (c.argument? t) (argument? ⟨c.definition, bs⟩ u) := by
  have hGet : ∀ {as bs : List (List Token)}, AlikeArguments as bs → ∀ i : Nat,
      Option.Rel Alike as[i]? bs[i]? := by
    intro as bs h
    induction h with
    | nil => exact fun _ => .none
    | cons ha _ ih =>
      rintro (_ | i)
      · exact .some ha
      · exact ih i
  unfold argument?
  rw [parameter?_congr _ ht]
  cases parameter? (c.definition.parameters.getD []) u with
  | none => exact .none
  | some i => exact hGet h i

theorem argument?_of_some (h : AlikeArguments c.arguments bs) {t u : Token} (ht : t.Alike u)
    {a : List Token} (ha : c.argument? t = some a) :
    ∃ b, argument? ⟨c.definition, bs⟩ u = some b ∧ Alike a b := by
  have hArgument := alike_argument? h ht
  rw [ha] at hArgument
  revert hArgument
  generalize argument? ⟨c.definition, bs⟩ u = b
  rintro ⟨hab⟩
  exact ⟨_, rfl, hab⟩

theorem argument?_of_none (h : AlikeArguments c.arguments bs) {t u : Token} (ht : t.Alike u)
    (ha : c.argument? t = none) : argument? ⟨c.definition, bs⟩ u = none := by
  have hArgument := alike_argument? h ht
  rw [ha] at hArgument
  revert hArgument
  generalize argument? ⟨c.definition, bs⟩ u = b
  rintro ⟨⟩
  rfl

theorem alike_paste (h : AlikeArguments c.arguments bs) {left sign next left' sign' next' : Token}
    (hLeft : left.Alike left') (hNext : next.Alike next') :
    Corresponds Alike (paste l c left sign next) (paste l ⟨c.definition, bs⟩ left' sign' next') := by
  have hRight : Alike ((c.argument? next).getD [next])
      ((argument? ⟨c.definition, bs⟩ next').getD [next']) := by
    have hArgument := alike_argument? h hNext
    revert hArgument
    generalize c.argument? next = a
    generalize argument? ⟨c.definition, bs⟩ next' = b
    intro hArgument
    cases hArgument with
    | none => exact .cons hNext .nil
    | some ha => exact ha
  have hHead : ∀ {ts us : List Token}, Alike ts us →
      ts.head?.map Token.text = us.head?.map Token.text := by
    intro ts us h
    cases h with
    | nil => rfl
    | cons ht _ => exact congrArg some ht.text
  have hTail : ∀ {ts us : List Token}, Alike ts us → Alike ts.tail us.tail := by
    intro ts us h
    cases h with
    | nil => exact .nil
    | cons _ hs => exact hs
  unfold paste
  dsimp only
  rw [hLeft.text, hHead hRight]
  exact (alike_tokenize _ _ _).bind fun ts us hs => .ok (hs.append (hTail hRight))

/-- What `##` and the other operators of a body make of alike bodies and alike arguments. -/
theorem alike_substitute (h : AlikeArguments c.arguments bs)
    (hExpand : ∀ ts us, Alike ts us → Corresponds Alike (expand ts) (expand' us))
    {out body out' body' : List Token} (hOut : Alike out out') (hBody : Alike body body') :
    Corresponds Alike (substitute l c expand out body)
      (substitute l ⟨c.definition, bs⟩ expand' out' body') := by
  fun_induction substitute l c expand out body generalizing out' body' with
  | case1 out =>
    cases hBody
    exact .ok hOut.reverse
  | case2 out t hSharp =>
    cases hBody with | cons ht hNil =>
    cases hNil
    rw [substitute, ← ht.is "#", if_pos hSharp]
    exact .error _ _
  | case3 out t hSharp hPaste =>
    cases hBody with | cons ht hNil =>
    cases hNil
    rw [substitute, ← ht.is "#", ← ht.is "##", if_neg hSharp, if_pos hPaste]
    exact .error _ _
  | case4 out t hSharp hPaste a hArgument =>
    cases hBody with | cons ht hNil =>
    cases hNil
    rw [substitute, ← ht.is "#", ← ht.is "##", if_neg hSharp, if_neg hPaste]
    obtain ⟨b, hb, hab⟩ := argument?_of_some h ht hArgument
    rw [hb]
    exact (hExpand a b hab).bind fun ts us hs => .ok (hOut.reverse.append hs)
  | case5 out t hSharp hPaste hArgument =>
    cases hBody with | cons ht hNil =>
    cases hNil
    rw [substitute, ← ht.is "#", ← ht.is "##", if_neg hSharp, if_neg hPaste,
      argument?_of_none h ht hArgument]
    exact .ok (Alike.reverse (.cons ht hOut))
  | case6 out t next body hSharp a hArgument ih =>
    cases hBody with | cons ht hBody =>
    cases hBody with | cons hNext hBody =>
    rw [substitute.eq_def _ ⟨c.definition, bs⟩]
    dsimp only
    rw [← ht.is "#", if_pos hSharp]
    obtain ⟨b, hb, hab⟩ := argument?_of_some h hNext hArgument
    rw [hb]
    exact ih (.cons (alike_stringize hab _ _) hOut) hBody
  | case7 out t next body hSharp hArgument =>
    cases hBody with | cons ht hBody =>
    cases hBody with | cons hNext hBody =>
    rw [substitute.eq_def _ ⟨c.definition, bs⟩]
    dsimp only
    rw [← ht.is "#", if_pos hSharp, argument?_of_none h hNext hArgument]
    exact .error _ _
  | case8 t next body hSharp hPaste left out ih =>
    cases hBody with | cons ht hBody =>
    cases hBody with | cons hNext hBody =>
    cases hOut with | cons hLeft hOut =>
    rw [substitute.eq_def _ ⟨c.definition, bs⟩]
    dsimp only
    rw [← ht.is "#", ← ht.is "##", if_neg hSharp, if_pos hPaste]
    exact (alike_paste h hLeft hNext).bind fun ts us hs => ih ts (hs.reverse.append hOut) hBody
  | case9 t next body hSharp hPaste =>
    cases hBody with | cons ht hBody =>
    cases hBody with | cons hNext hBody =>
    cases hOut
    rw [substitute.eq_def _ ⟨c.definition, bs⟩]
    dsimp only
    rw [← ht.is "#", ← ht.is "##", if_neg hSharp, if_pos hPaste]
    exact .error _ _
  | case10 out t next body hSharp hPaste a hArgument hNextPaste ih =>
    cases hBody with | cons ht hBody =>
    cases hBody with | cons hNext hBody =>
    rw [substitute.eq_def _ ⟨c.definition, bs⟩]
    dsimp only
    rw [← ht.is "#", ← ht.is "##", if_neg hSharp, if_neg hPaste]
    obtain ⟨b, hb, hab⟩ := argument?_of_some h ht hArgument
    rw [hb]
    dsimp only
    rw [← hNext.is "##", if_pos hNextPaste]
    exact ih (hab.reverse.append hOut) (.cons hNext hBody)
  | case11 out t next body hSharp hPaste a hArgument hNextPaste ih =>
    cases hBody with | cons ht hBody =>
    cases hBody with | cons hNext hBody =>
    rw [substitute.eq_def _ ⟨c.definition, bs⟩]
    dsimp only
    rw [← ht.is "#", ← ht.is "##", if_neg hSharp, if_neg hPaste]
    obtain ⟨b, hb, hab⟩ := argument?_of_some h ht hArgument
    rw [hb]
    dsimp only
    rw [← hNext.is "##", if_neg hNextPaste]
    exact (hExpand a b hab).bind fun ts us hs =>
      ih ts (hs.reverse.append hOut) (.cons hNext hBody)
  | case12 out t next body hSharp hPaste hArgument ih =>
    cases hBody with | cons ht hBody =>
    cases hBody with | cons hNext hBody =>
    rw [substitute.eq_def _ ⟨c.definition, bs⟩]
    dsimp only
    rw [← ht.is "#", ← ht.is "##", if_neg hSharp, if_neg hPaste,
      argument?_of_none h ht hArgument]
    exact ih (.cons ht hOut) (.cons hNext hBody)

end Call

/-! ## Calls -/

/-- Whether expanders do the same to calls that are alike. -/
def AlikeExpanders (expand expand' : Expander) : Prop :=
  ∀ hidden t u as bs, t.Alike u → Option.Rel AlikeArguments as bs →
    Corresponds Alike (expand hidden t as) (expand' hidden u bs)

theorem called?_congr (table : MacroTable) (hidden : List String) {t u : Token} (h : t.Alike u) :
    called? table hidden t = called? table hidden u := by
  unfold called?
  rw [h.isWord, h.expanded, h.text]

theorem alike_drop {ts us : List Token} (h : Alike ts us) (n : Nat) :
    Alike (ts.drop n) (us.drop n) := List.forall₂_drop n h

theorem alike_rescan {table : MacroTable} {expand expand' : Expander}
    (hExpand : AlikeExpanders expand expand') (hidden : List String) (skip : Nat)
    {ts us : List Token} (h : Alike ts us) :
    Corresponds Alike (rescan table expand hidden skip ts) (rescan table expand' hidden skip us) := by
  induction h generalizing skip with
  | nil => cases skip <;> exact .ok .nil
  | @cons t u ts us ht hs ih =>
    cases skip with
    | succ skip => exact ih skip
    | zero =>
      have hSelf : Corresponds Alike
          (rescan table expand hidden 0 ts >>= fun rest => .ok (t :: rest))
          (rescan table expand' hidden 0 us >>= fun rest => .ok (u :: rest)) :=
        (ih 0).bind fun _ _ hRest => .ok (.cons ht hRest)
      rw [rescan, rescan, called?_congr table hidden ht]
      split
      · exact hSelf
      · rw [ht.text, Alike.head_is hs "("]
        split
        · split
          · refine (alike_arguments (alike_drop hs 1)).bind ?_
            rintro ⟨as, taken⟩ ⟨bs, taken'⟩ ⟨hArguments, hTaken⟩
            dsimp only at hArguments hTaken ⊢
            subst hTaken
            refine (hExpand _ t u _ _ ht (.some hArguments)).bind fun _ _ hReplaced => ?_
            exact (ih _).bind fun _ _ hRest => .ok (hReplaced.append hRest)
          · exact hSelf
        · refine (hExpand _ t u none none ht .none).bind fun _ _ hReplaced => ?_
          exact (ih 0).bind fun _ _ hRest => .ok (hReplaced.append hRest)

theorem alike_replace {table : MacroTable} {expand expand' : List Token → Except Fault (List Token)}
    (hExpand : ∀ ts us, Alike ts us → Corresponds Alike (expand ts) (expand' us))
    (d : MacroDefinition) {t u : Token} {as bs : Option (List (List Token))}
    (h : Option.Rel AlikeArguments as bs) :
    Corresponds Alike (replace table expand d t as) (replace table expand' d u bs) := by
  unfold replace
  split
  · exact .ok (.refl _)
  · exact (alike_matchArguments _ h).bind fun as bs hs =>
      Call.alike_substitute hs hExpand .nil (.refl _)

theorem alike_expandWithin (table : MacroTable) (depth : Nat) :
    AlikeExpanders (expandWithin table depth) (expandWithin table depth) := by
  induction depth with
  | zero => exact fun _ _ _ _ _ ht _ => .ok (.cons ht .nil)
  | succ depth ih =>
    intro hidden t u as bs ht h
    have hSearch : ∀ ts us, Alike ts us →
        Corresponds Alike (rescan table (expandWithin table depth) hidden 0 ts)
          (rescan table (expandWithin table depth) hidden 0 us) :=
      fun _ _ hs => alike_rescan ih hidden 0 hs
    rw [expandWithin, expandWithin, ht.text]
    split
    · exact .error _ _
    · rename_i d _
      exact (alike_replace hSearch d h).bind hSearch

/-- Alike calls expand to alike tokens. -/
theorem alike_expand (table : MacroTable) {t u : Token} {as bs : Option (List (List Token))}
    (ht : t.Alike u) (h : Option.Rel AlikeArguments as bs) :
    Corresponds Alike (expand table t as) (expand table u bs) := by
  unfold expand
  rw [ht.text]
  refine (alike_expandWithin table _ _ t u as bs ht h).bind fun ts us hs => .ok (hs.map ?_)
  exact fun v w hv => ⟨hv.kind, hv.text, rfl⟩

end Macro

/-! ## Expressions -/

namespace Expression

/-- Whether two outcomes have the same value and leave tokens that are alike. -/
structure AlikeResults (r s : Evaluated × Tokens) : Prop where
  value : r.1 = s.1
  rest : Alike r.2.rest s.2.rest

theorem alike_ofLiteral {t u : Token} (h : t.Alike u) :
    Corresponds (· = ·) (Constant.ofLiteral t) (Constant.ofLiteral u) := by
  unfold Constant.ofLiteral
  rw [h.kind, h.text]
  split
  · cases Constant.ofLiteralText _ u.text.toList with
    | ok c => exact .ok rfl
    | error cause => exact .error _ _
  · exact .error _ _

theorem alike_orThrow {α : Type} {x y : Except Fault α} (h : Corresponds (· = ·) x y) :
    Corresponds (· = ·) (orThrow (m := Except Fault) x) (orThrow y) := by
  cases h with
  | ok h => exact .ok h
  | error f f' => exact .error f f'

theorem alike_orFailAt {α : Type} (p q : Position) (x : Except Cause α) :
    Corresponds (· = ·) (orFailAt (m := Except Fault) p x) (orFailAt q x) := by
  cases x with
  | ok a => exact .ok rfl
  | error cause => exact .error _ _

theorem alike_applyUnary (op : UnaryOperator) (p q : Position) (a : Evaluated) :
    Corresponds (· = ·) (applyUnary (m := Except Fault) op p a) (applyUnary op q a) := by
  cases a with
  | known c => exact (alike_orFailAt p q _).bind fun _ _ h => .ok (congrArg _ h)
  | dynamic => exact .ok rfl

theorem alike_applyBinary (op : BinaryOperator) (p q : Position) (a b : Evaluated) :
    Corresponds (· = ·) (applyBinary (m := Except Fault) op p a b) (applyBinary op q a b) := by
  unfold applyBinary
  split
  · exact (alike_orFailAt p q _).bind fun _ _ h => .ok (congrArg _ h)
  · exact .ok rfl

theorem alike_advance {ts us : Tokens} (h : Alike ts.rest us.rest) :
    Alike ts.advance.rest us.advance.rest := by
  obtain ⟨ts, p⟩ := ts
  obtain ⟨us, q⟩ := us
  cases h with
  | nil => exact .nil
  | cons _ h => exact h

theorem alike_expect {ts us : Tokens} (h : Alike ts.rest us.rest) (text : String) :
    Corresponds (fun ts us => Alike ts.rest us.rest) (ts.expect (m := Except Fault) text)
      (us.expect text) := by
  have hAdvance := alike_advance h
  obtain ⟨ts, p⟩ := ts
  obtain ⟨us, q⟩ := us
  unfold Tokens.expect Tokens.eat?
  cases h with
  | nil => exact .error _ _
  | @cons t u ts us ht h =>
    dsimp only
    rw [ht.is text]
    cases u.is text with
    | false => exact .error _ _
    | true => exact .ok hAdvance

/-- The steps of an evaluation in which every name stands for zero. -/
theorem alike_steps (n : Nat) :
    (∀ ts us : Tokens, Alike ts.rest us.rest → Corresponds AlikeResults
      (operand (m := Except Fault) zeroNames n ts) (operand zeroNames n us)) ∧
    (∀ level, ∀ ts us : Tokens, Alike ts.rest us.rest → Corresponds AlikeResults
      (climb (m := Except Fault) zeroNames n level ts) (climb zeroNames n level us)) ∧
    ∀ level lhs, ∀ ts us : Tokens, Alike ts.rest us.rest → Corresponds AlikeResults
      (extend (m := Except Fault) zeroNames n level lhs ts) (extend zeroNames n level lhs us) := by
  induction n with
  | zero =>
    refine ⟨fun _ _ _ => ?_, fun _ _ _ _ => ?_, fun _ _ _ _ _ => ?_⟩
    · rw [operand, operand]
      exact .error _ _
    · rw [climb, climb]
      exact .error _ _
    · rw [extend, extend]
      exact .error _ _
  | succ n ih =>
    obtain ⟨ihOperand, ihClimb, ihExtend⟩ := ih
    refine ⟨fun ts us h => ?_, fun level ts us h => ?_, fun level lhs ts us h => ?_⟩
    · have hAdvance := alike_advance h
      have hName : ∀ f g, Corresponds AlikeResults (zeroNames (m := Except Fault) f ts)
          (zeroNames g us) := fun _ _ => .ok ⟨rfl, hAdvance⟩
      obtain ⟨ts, p⟩ := ts
      obtain ⟨us, q⟩ := us
      rw [operand, operand]
      cases h with
      | nil => exact .error _ _
      | @cons t u ts us ht h =>
        dsimp only
        rw [ht.is "(", ht.is "::", unaryOperator?, unaryOperator?, ht.kind, ht.text]
        split
        · refine (ihClimb _ _ _ hAdvance).bind ?_
          rintro ⟨_, ts⟩ ⟨inner, us⟩ ⟨rfl, hs⟩
          exact (alike_expect hs ")").bind fun _ _ hs => .ok ⟨rfl, hs⟩
        · split
          · refine (ihClimb _ _ _ hAdvance).bind ?_
            rintro ⟨_, ts⟩ ⟨inner, us⟩ ⟨rfl, hs⟩
            exact (alike_applyUnary _ _ _ _).bind fun _ _ hv => .ok ⟨hv, hs⟩
          · split
            · refine (alike_orThrow (alike_ofLiteral ht)).bind ?_
              rintro c _ rfl
              exact .ok ⟨rfl, hAdvance⟩
            · exact hName _ _
            · exact hName _ _
            · split
              · exact hName _ _
              · exact .error _ _
    · rw [climb, climb]
      refine (ihOperand _ _ h).bind ?_
      rintro ⟨_, ts⟩ ⟨lhs, us⟩ ⟨rfl, hs⟩
      exact ihExtend _ _ _ _ hs
    · have hAdvance := alike_advance h
      have hDone : Corresponds AlikeResults (Except.ok (ε := Fault) (lhs, ts)) (.ok (lhs, us)) :=
        .ok ⟨rfl, h⟩
      obtain ⟨ts, p⟩ := ts
      obtain ⟨us, q⟩ := us
      rw [extend, extend]
      cases h with
      | nil => exact hDone
      | @cons t u ts us ht h =>
        dsimp only
        rw [isTerminator, isTerminator, binaryOperator?, binaryOperator?, ht.kind, ht.text]
        split
        · exact hDone
        · split
          · exact .error _ _
          · split
            · exact hDone
            · refine (ihClimb _ _ _ hAdvance).bind ?_
              rintro ⟨_, ts⟩ ⟨rhs, us⟩ ⟨rfl, hs⟩
              refine (alike_applyBinary _ _ _ _ _).bind ?_
              rintro value _ rfl
              exact ihExtend _ _ _ _ hs

theorem alike_evaluate {ts us : List Token} (h : Alike ts us) :
    Corresponds (· = ·) (evaluate (m := Except Fault) zeroNames ts) (evaluate zeroNames us) := by
  have hAt : Corresponds AlikeResults
      (climb (m := Except Fault) zeroNames (budgetFor ts) lowestPrecedence (Tokens.ofList ts))
      (climb zeroNames (budgetFor us) lowestPrecedence (Tokens.ofList us)) := by
    rw [budgetFor, budgetFor, h.length_eq]
    exact (alike_steps _).2.1 _ _ _ h
  unfold evaluate evaluateAt
  cases h with
  | nil => exact .error _ _
  | @cons t u ts us ht h =>
    refine Corresponds.bind (hAt.bind (S := fun r s => r.1 = s.1 ∧ Alike r.2 s.2) ?_) ?_
    · exact fun r s hr => .ok ⟨hr.value, hr.rest⟩
    · rintro ⟨_, ts⟩ ⟨value, us⟩ ⟨rfl, hs⟩
      cases hs with
      | nil => exact .ok rfl
      | cons _ _ => exact .error _ _

end Expression

/-! ## Conditions -/

namespace Condition

theorem alike_definedOperand (place place' : Token) {ts us : List Token} (h : Alike ts us) :
    Corresponds (fun r s => r.1.Alike s.1 ∧ r.2 = s.2) (definedOperand place ts)
      (definedOperand place' us) := by
  unfold definedOperand
  rw [h.head_is "("]
  split
  · cases h with
    | nil => exact .error _ _
    | cons _ h =>
      cases h with
      | nil => exact .error _ _
      | cons hName h =>
        rw [List.drop_one, List.drop_one, List.tail_cons, List.tail_cons]
        dsimp only
        rw [hName.isWord, Alike.head_is h ")"]
        split
        · exact .error _ _
        · split
          · exact .ok ⟨hName, rfl⟩
          · exact .error _ _
  · cases h with
    | nil => exact .error _ _
    | cons hName h =>
      dsimp only
      rw [hName.isWord]
      split
      · exact .ok ⟨hName, rfl⟩
      · exact .error _ _

theorem alike_substitute (table : MacroTable) (skip : Nat) {ts us : List Token}
    (h : Alike ts us) : Corresponds Alike (substitute table skip ts) (substitute table skip us) := by
  induction h generalizing skip with
  | nil => cases skip <;> exact .ok .nil
  | @cons t u ts us ht hs ih =>
    cases skip with
    | succ skip => exact ih skip
    | zero =>
      have hSelf : Corresponds Alike
          (substitute table 0 ts >>= fun rest => .ok (t :: rest))
          (substitute table 0 us >>= fun rest => .ok (u :: rest)) :=
        (ih 0).bind fun _ _ hRest => .ok (.cons ht hRest)
      rw [substitute, substitute, ht.isIdentifier, ht.text, ht.isWord]
      split
      · refine (alike_definedOperand t u hs).bind ?_
        rintro ⟨name, taken⟩ ⟨name', taken'⟩ ⟨hName, hTaken⟩
        dsimp only at hName hTaken ⊢
        subst hTaken
        refine (ih _).bind fun _ _ hRest => .ok (.cons ?_ hRest)
        exact ⟨rfl, by rw [definedLiteral, definedLiteral, hName.text]; rfl, rfl⟩
      · split
        · exact hSelf
        · rw [Alike.head_is hs "("]
          split
          · split
            · refine (Macro.alike_arguments (Macro.alike_drop hs 1)).bind ?_
              rintro ⟨as, taken⟩ ⟨bs, taken'⟩ ⟨hArguments, hTaken⟩
              dsimp only at hArguments hTaken ⊢
              subst hTaken
              refine (Macro.alike_expand table ht (.some hArguments)).bind fun _ _ hReplaced => ?_
              exact (ih _).bind fun _ _ hRest => .ok (hReplaced.append hRest)
            · exact hSelf
          · refine (Macro.alike_expand table ht .none).bind fun _ _ hReplaced => ?_
            exact (ih 0).bind fun _ _ hRest => .ok (hReplaced.append hRest)

/-- A condition holds wherever its directive stands. -/
theorem alike_holds (table : MacroTable) (t u : Token) (text : List Char) :
    Corresponds (· = ·) (holds table t text) (holds table u text) := by
  unfold holds
  refine (alike_tokenize _ _ _).bind fun ts us hs => ?_
  refine (alike_substitute _ _ (hs.map fun v w hv => ?_)).bind fun ts us hs => ?_
  · exact ⟨hv.kind, hv.text, hv.expanded⟩
  · refine (Expression.alike_evaluate hs).bind ?_
    rintro value _ rfl
    exact .refl (fun _ => rfl) _

end Condition

end IdlReader
