import IdlReader.Proofs.Constant.Cause
import IdlReader.Proofs.Token.Lexeme
import IdlReader.Source.Reader

/-!
# Faults of texts and tokens

What can be wrong with a text or with its tokens is listed once (`AdmitsTexts`, `AdmitsTokens`), and a
property of faults that holds of all of that holds of all faults. So every fault of a condition
stands on the line of its directive, has no place or comes from a text that is a source of its own.

The loops over texts and tokens run under bounds. An outcome finishes if it is a result or a fault
of another kind than a bound that was met. Tokens, macros and conditions always finish, so
their bounds are no part of what they mean.

* `finishes_tokenize`: the tokens of a text.
* `Macro.exits_expand`: the expansion of a call.
* `Condition.exits_holds`: the condition of a directive.
-/

namespace IdlReader

variable {α β : Type}

/-- Whether an outcome is a result with the property `P` or a fault with the property `F`. -/
def Exits (F : Fault → Prop) (x : Except Fault α) (P : α → Prop) : Prop :=
  match x with
  | .ok a => P a
  | .error f => F f

namespace Exits

variable {F G : Fault → Prop} {P Q : α → Prop}

theorem ok {a : α} (h : P a) : Exits F (.ok a) P := h

theorem error {f : Fault} (h : F f) : Exits F (.error f : Except Fault α) P := h

theorem fail {cause : Cause} (h : F (Fault.of cause)) :
    Exits F (IdlReader.fail cause : Except Fault α) P := h

theorem failAt {cause : Cause} {p : Position} (h : F ((Fault.of cause).placed p)) :
    Exits F (IdlReader.failAt cause p : Except Fault α) P := h

theorem bind {x : Except Fault α} {f : α → Except Fault β} {R : β → Prop} (hx : Exits F x P)
    (hf : ∀ a, P a → Exits F (f a) R) : Exits F (x >>= f) R := by
  cases x with
  | ok a => exact hf a hx
  | error fault => exact hx

theorem mono {x : Except Fault α} (h : Exits F x P) (hPQ : ∀ a, P a → Q a) : Exits F x Q := by
  cases x with
  | ok a => exact hPQ a h
  | error fault => exact h

theorem weaken {x : Except Fault α} (h : Exits F x P) (hFG : ∀ f, F f → G f) : Exits G x P := by
  cases x with
  | ok a => exact h
  | error fault => exact hFG fault h

theorem map {x : Except Fault α} {f : α → β} {R : β → Prop} (h : Exits F x fun a => R (f a)) :
    Exits F (x.map f) R := by
  cases x with
  | ok a => exact h
  | error fault => exact h

theorem ite {c : Prop} [Decidable c] {x y : Except Fault α} (hx : c → Exits F x P)
    (hy : ¬ c → Exits F y P) : Exits F (if c then x else y) P := by
  split
  · exact hx ‹_›
  · exact hy ‹_›

/-- An outcome of which the fault and the result is known otherwise. -/
theorem and_ok {x : Except Fault α} (h : Exits F x P) (hx : Ok x Q) :
    Exits F x fun a => P a ∧ Q a := by
  cases x with
  | ok a => exact ⟨h, hx a rfl⟩
  | error fault => exact h

theorem result {x : Except Fault α} {a : α} (h : Exits F x P) (hx : x = .ok a) : P a := by
  rw [hx] at h
  exact h

theorem fault {x : Except Fault α} {f : Fault} (h : Exits F x P) (hx : x = .error f) : F f := by
  rw [hx] at h
  exact h

end Exits

/-- Whether a fault is no bound that was met and does not say which file it was found in. -/
structure Fault.Local (f : Fault) : Prop where
  cause : f.cause.Plain
  file : f.file = none

/-- Whether an outcome is a result with the property `P`, or a fault that is no bound that was
met. -/
abbrev Finishes (x : Except Fault α) (P : α → Prop) : Prop := Exits Fault.Local x P

/-! ## Lexemes -/

namespace Lexeme

variable {l : Lexicon} {p : Position} {s : List Char}

theorem finishes_quoted (encoding : List Char) :
    Finishes (quoted p encoding s) fun _ => True := by
  unfold quoted
  split
  · exact .failAt ⟨trivial, rfl⟩
  · split
    · trivial
    · split <;> exact .failAt ⟨trivial, rfl⟩

theorem finishes_unsuffixed : Finishes (unsuffixed p s) fun _ => True := by
  unfold unsuffixed
  split
  · dsimp only
    repeat' split
    all_goals first | trivial | exact .failAt ⟨trivial, rfl⟩
  · trivial

theorem finishes_number : Finishes (number p s) fun _ => True := by
  unfold number
  refine finishes_unsuffixed.bind fun r _ => ?_
  dsimp only
  split
  · exact .failAt ⟨trivial, rfl⟩
  · trivial

theorem finishes_mark {c : Char} : Finishes (mark p c s) fun _ => True := by
  unfold mark
  repeat' split
  all_goals first | trivial | exact .failAt ⟨trivial, rfl⟩

theorem finishes_read {c : Char} : Finishes (read l p c s) fun _ => True := by
  unfold read
  dsimp only
  split
  · trivial
  · split
    · unfold blockComment
      split
      · trivial
      · exact .failAt ⟨trivial, rfl⟩
    · split
      · exact finishes_quoted _
      · split
        · exact finishes_number
        · split
          · unfold word
            dsimp only
            split
            · exact finishes_quoted _
            · trivial
          · exact finishes_mark

end Lexeme

/-! ## Tokens -/

theorem Token.finishes_next {l : Lexicon} {directives : Bool} {source : SourceId} {c : Cursor} :
    Finishes (next l directives source c) (Covers c) := by
  have hNext : Finishes (next l directives source c) fun _ => True := by
    unfold next
    dsimp only
    split
    · trivial
    · split
      · trivial
      · exact Lexeme.finishes_read.bind fun _ _ => trivial
  exact (hNext.and_ok covers_next).mono fun _ h => h.2

/-- As many steps as characters, and one, are enough for all tokens. -/
theorem Token.finished_readAll {l : Lexicon} {directives : Bool} {source : SourceId} {n : Nat}
    {c : Cursor} (hn : c.rest.length < n) :
    ∀ f, (readAll l directives source n c).2 = some f → f.Local := by
  induction n generalizing c with
  | zero => cases hn
  | succ n ih =>
    intro f hf
    rw [readAll] at hf
    have hFinishes := @finishes_next l directives source c
    cases hNext : next l directives source c with
    | error fault =>
      rw [hNext] at hf hFinishes
      cases hf
      exact hFinishes
    | ok r =>
      rw [hNext] at hf hFinishes
      dsimp only at hf
      cases hFinish : r.1.isFinish with
      | true =>
        rw [hFinish] at hf
        cases hf
      | false =>
        rw [hFinish] at hf
        exact ih (Nat.lt_of_lt_of_le (hFinishes.shorter hFinish) (Nat.le_of_lt_succ hn)) f hf

theorem finishes_tokenize {l : Lexicon} {directives : Bool} {source : SourceId}
    {text : List Char} : Finishes (tokenize l directives source text) fun _ => True := by
  have hAll := @Token.finished_readAll l directives source (text.length + 1) (Cursor.ofText text)
    (Nat.lt_succ_self _)
  unfold tokenize Token.ofText
  split
  · rename_i tokens f hTokens
    refine hAll f ?_
    rw [hTokens]
  · trivial

/-! ## Properties of faults -/

/-- Whether a property of faults holds of whatever can be wrong with a text: causes that are not
placed, and what keeps a text from being split into tokens as a source of its own. -/
structure AdmitsTexts (l : Lexicon) (F : Fault → Prop) : Prop where
  unplaced : ∀ {cause}, cause.Plain → F (Fault.of cause)
  split : ∀ {source text f}, tokenize l false source text = .error f → F f

/-- Whether a property of faults holds of whatever can be wrong with tokens at positions with the
property `P` and with the calls among them. A call inside of the body of a macro stands where the
body was read. -/
structure AdmitsTokens (l : Lexicon) (P : Position → Prop) (F : Fault → Prop) : Prop
    extends AdmitsTexts l F where
  placed : ∀ {cause p}, cause.Plain → P p → F ((Fault.of cause).placed p)
  call : ∀ {cause p}, cause = .argumentsMissing ∨ cause = .argumentsTooMany →
    F ((Fault.of cause).placed p)

theorem admits_local (l : Lexicon) : AdmitsTokens l (fun _ => True) Fault.Local where
  unplaced h := ⟨h, rfl⟩
  placed h _ := ⟨h, rfl⟩
  split h := finishes_tokenize.fault h
  call h := by
    refine ⟨?_, rfl⟩
    rcases h with rfl | rfl <;> trivial

section Admitted

variable {l : Lexicon} {P : Position → Prop} {F : Fault → Prop}

theorem AdmitsTexts.tokenize (h : AdmitsTexts l F) (source : SourceId) (text : List Char) :
    Exits F (IdlReader.tokenize l false source text) fun _ => True := by
  cases hText : IdlReader.tokenize l false source text with
  | ok ts => trivial
  | error f => exact h.split hText

theorem AdmitsTokens.orFailAt {x : Except Cause α} {p : Position} (h : AdmitsTokens l P F) (hx : Reasoned x)
    (hp : P p) : Exits F (Expression.orFailAt p x) fun _ => True := by
  cases x with
  | ok a => trivial
  | error cause => exact h.placed (hx cause rfl) hp

/-! ## Macros -/

namespace MacroDefinition

theorem exits_readParameters (h : AdmitsTexts l F) (seen : List String) (ps : List (List Char)) :
    Exits F (readParameters seen ps) fun _ => True := by
  induction ps generalizing seen with
  | nil => trivial
  | cons p ps ih =>
    unfold readParameters
    dsimp only
    refine .ite (fun _ => .fail (h.unplaced trivial)) fun _ => ?_
    exact .ite (fun _ => .fail (h.unplaced trivial)) fun _ => ih _

theorem exits_readParameterList (h : AdmitsTexts l F) (s : List Char) :
    Exits F (readParameterList s) fun _ => True := by
  unfold readParameterList
  dsimp only
  split
  · exact .fail (h.unplaced trivial)
  · split
    · trivial
    · exact (exits_readParameters h _ _).bind fun _ _ => trivial

theorem exits_read (h : AdmitsTexts l F) (text : List Char) :
    Exits F (read l text) fun _ => True := by
  unfold read
  dsimp only
  split
  · exact .fail (h.unplaced trivial)
  · split
    · refine (exits_readParameterList h _).bind fun _ _ => ?_
      exact (h.tokenize _ _).bind fun _ _ => trivial
    · exact (h.tokenize _ _).bind fun _ _ => trivial

end MacroDefinition

theorem MacroTable.exits_define {t : MacroTable} (h : AdmitsTexts t.lexicon F) (text : List Char) :
    Exits F (t.define text) fun _ => True := by
  unfold define
  refine (MacroDefinition.exits_read h _).bind fun d _ => ?_
  split
  · split
    · trivial
    · exact .fail (h.unplaced trivial)
  · trivial

namespace Macro

theorem exits_arguments (h : F (Fault.of .callUnclosed)) (ts : List Token) :
    Exits F (arguments ts) fun _ => True := by
  unfold arguments
  split
  · trivial
  · exact .fail h

theorem Call.exits_paste (h : AdmitsTexts l F) (c : Call) (left sign next : Token) :
    Exits F (c.paste l left sign next) fun _ => True := by
  unfold paste
  exact (h.tokenize _ _).bind fun _ _ => Exits.ok trivial

theorem Call.exits_substitute (h : AdmitsTexts l F) (c : Call)
    {expand : List Token → Except Fault (List Token)}
    (hExpand : ∀ ts, Exits F (expand ts) fun _ => True) (out body : List Token) :
    Exits F (c.substitute l expand out body) fun _ => True := by
  fun_induction Call.substitute l c expand out body with
  | case1 => trivial
  | case2 => exact .fail (h.unplaced trivial)
  | case3 => exact .fail (h.unplaced trivial)
  | case4 _ _ _ _ a => exact (hExpand a).bind fun _ _ => trivial
  | case5 => trivial
  | case6 _ _ _ _ _ _ _ ih => exact ih
  | case7 => exact .fail (h.unplaced trivial)
  | case8 _ _ _ _ _ _ _ ih => exact (c.exits_paste h _ _ _).bind fun _ _ => ih _
  | case9 => exact .fail (h.unplaced trivial)
  | case10 _ _ _ _ _ _ _ _ _ ih => exact ih
  | case11 _ _ _ _ _ _ a _ _ ih => exact (hExpand a).bind fun _ _ => ih _
  | case12 _ _ _ _ _ _ _ ih => exact ih

theorem exits_rescan (h : AdmitsTexts l F) (table : MacroTable) {expand : Expander}
    (hExpand : ∀ hidden t args, Exits F (expand hidden t args) fun _ => True)
    (hidden : List String) (skip : Nat) (ts : List Token) :
    Exits F (rescan table expand hidden skip ts) fun _ => True := by
  induction ts generalizing skip with
  | nil =>
    unfold rescan
    trivial
  | cons t ts ih =>
    cases skip with
    | succ skip =>
      unfold rescan
      exact ih skip
    | zero =>
      unfold rescan
      split
      · exact (ih 0).bind fun _ _ => trivial
      · split
        · split
          · exact (exits_arguments (h.unplaced trivial) _).bind fun _ _ => (hExpand _ _ _).bind fun _ _ =>
              (ih _).bind fun _ _ => trivial
          · exact (ih 0).bind fun _ _ => trivial
        · exact (hExpand _ _ _).bind fun _ _ => (ih 0).bind fun _ _ => trivial

theorem exits_matchArguments (h : AdmitsTokens l P F) (name : Token) (parameters : List String)
    (args : Option (List (List Token))) :
    Exits F (matchArguments name parameters args) fun _ => True := by
  unfold matchArguments
  dsimp only
  generalize (if (parameters.isEmpty && args.getD [] == [[]]) = true then [] else args.getD []) = as
  split
  · exact .failAt (h.call (Or.inl rfl))
  · split
    · exact .failAt (h.call (Or.inr rfl))
    · trivial

variable {table : MacroTable}

theorem exits_expandWithin (h : AdmitsTokens table.lexicon P F) (depth : Nat) (hidden : List String)
    (name : Token) (args : Option (List (List Token))) :
    Exits F (expandWithin table depth hidden name args) fun _ => True := by
  induction depth generalizing hidden name args with
  | zero => trivial
  | succ depth ih =>
    have hSearch := exits_rescan h.toAdmitsTexts table (fun hidden t args => ih hidden t args) hidden 0
    unfold expandWithin
    split
    · exact .fail (h.unplaced trivial)
    · rename_i d _
      refine Exits.bind (P := fun _ => True) ?_ fun ts _ => hSearch ts
      unfold replace
      split
      · trivial
      · exact (exits_matchArguments h _ _ _).bind fun _ _ =>
          Call.exits_substitute h.toAdmitsTexts _ hSearch _ _

/-- What a call is replaced by stands where the name of the macro did. -/
theorem exits_expand (h : AdmitsTokens table.lexicon P F) (name : Token)
    (args : Option (List (List Token))) :
    Exits F (expand table name args) fun ts => ∀ t ∈ ts, t.position = name.position := by
  refine (exits_expandWithin h _ _ _ _).bind fun ts _ => Exits.ok fun t ht => ?_
  obtain ⟨u, -, rfl⟩ := List.mem_map.mp ht
  rfl

end Macro

/-! ## Conditions -/

/-- What is wrong with a literal is wrong where it stands. -/
theorem Constant.placed_ofLiteral {t : Token} {f : Fault} (h : ofLiteral t = .error f) :
    f = (Fault.of f.cause).placed t.position := by
  unfold ofLiteral at h
  split at h
  · rename_i kind _
    cases hText : ofLiteralText kind t.text.toList with
    | ok c =>
      rw [hText] at h
      cases h
    | error cause =>
      rw [hText] at h
      cases h
      rfl
  · cases h
    rfl

namespace Expression

variable {ts us : Tokens}

/-- Whether the tokens of an expression stand at positions with a property. -/
structure Tokens.Stand (P : Position → Prop) (ts : Tokens) : Prop where
  rest : ∀ t ∈ ts.rest, P t.position
  last : P ts.last

namespace Tokens.Stand

theorem position (h : ts.Stand P) : P ts.position := by
  obtain ⟨rest, last⟩ := ts
  cases rest with
  | nil => exact h.last
  | cons t rest => exact h.rest t List.mem_cons_self

theorem advance (h : ts.Stand P) : ts.advance.Stand P :=
  ⟨fun t ht => h.rest t (List.mem_of_mem_tail ht), h.last⟩

theorem ofList {tokens : List Token} (hSome : tokens ≠ []) (h : ∀ t ∈ tokens, P t.position) :
    (Tokens.ofList tokens).Stand P := by
  refine ⟨h, ?_⟩
  unfold Tokens.ofList
  cases hLast : tokens.getLast? with
  | none => exact absurd (List.getLast?_eq_none_iff.mp hLast) hSome
  | some t => exact h t (List.mem_of_getLast? hLast)

end Tokens.Stand

theorem length_advance {t : Token} {rest : List Token} (h : ts.rest = t :: rest) :
    ts.advance.rest.length + 1 = ts.rest.length := by
  rw [Tokens.advance, h]
  rfl

theorem exits_expect (h : AdmitsTokens l P F) (hStand : ts.Stand P) (text : String) :
    Exits F (ts.expect text : Except Fault Tokens) fun us =>
      us.rest.length < ts.rest.length ∧ us.Stand P := by
  unfold Tokens.expect Tokens.eat?
  split
  · rename_i us hEat
    split at hEat
    · rename_i t rest hRest
      split at hEat
      · cases hEat
        have hLength := length_advance hRest
        exact Exits.ok ⟨by omega, hStand.advance⟩
      · cases hEat
    · cases hEat
  · exact .failAt (h.placed trivial hStand.position)

/-- What becomes of evaluations of expressions with names that stand for zero, within `n` steps. -/
structure ExitsWithin (P : Position → Prop) (F : Fault → Prop) (n : Nat) : Prop where
  operand : ∀ ts : Tokens, ts.Stand P → 3 * ts.rest.length < n →
    Exits F (operand (m := Except Fault) zeroNames n ts) fun r =>
      r.2.rest.length < ts.rest.length ∧ r.2.Stand P
  climb : ∀ (ts : Tokens) level, ts.Stand P → 3 * ts.rest.length + 1 < n →
    Exits F (climb (m := Except Fault) zeroNames n level ts) fun r =>
      r.2.rest.length < ts.rest.length ∧ r.2.Stand P
  extend : ∀ (ts : Tokens) level lhs, ts.Stand P → 3 * ts.rest.length < n →
    Exits F (extend (m := Except Fault) zeroNames n level lhs ts) fun r =>
      r.2.rest.length ≤ ts.rest.length ∧ r.2.Stand P

theorem exitsWithin_operand (h : AdmitsTokens l P F) {n : Nat} (ih : ExitsWithin P F n) (ts : Tokens)
    (hStand : ts.Stand P) (hn : 3 * ts.rest.length < n + 1) :
    Exits F (operand (m := Except Fault) zeroNames (n + 1) ts) fun r =>
      r.2.rest.length < ts.rest.length ∧ r.2.Stand P := by
  rw [operand]
  split
  · exact .failAt (h.placed trivial hStand.position)
  · rename_i t rest hRest
    have ht : P t.position := hStand.rest t (hRest ▸ List.mem_cons_self)
    have hLength := length_advance hRest
    have hAdvance : ts.advance.rest.length < ts.rest.length ∧ ts.advance.Stand P :=
      ⟨by omega, hStand.advance⟩
    have hName : Exits F ((zeroNames : Resolver (Except Fault))
        (Expression.climb zeroNames n lowestPrecedence) ts) fun r =>
          r.2.rest.length < ts.rest.length ∧ r.2.Stand P := hAdvance
    split
    · refine (ih.climb ts.advance _ hAdvance.2 (by omega)).bind fun r hr => ?_
      refine (exits_expect h hr.2 ")").bind fun us hus => ?_
      exact Exits.ok ⟨by dsimp only; omega, hus.2⟩
    · split
      · refine (ih.climb ts.advance 0 hAdvance.2 (by omega)).bind fun r hr => ?_
        refine Exits.bind (P := fun _ => True) ?_ fun v _ =>
          Exits.ok ⟨by dsimp only; omega, hr.2⟩
        unfold applyUnary
        split
        · exact (h.orFailAt (Constant.reasoned_unary _ _) ht).bind fun _ _ => trivial
        · trivial
      · split
        · refine Exits.bind (P := fun _ => True) ?_ fun v _ => Exits.ok hAdvance
          unfold orThrow
          split
          · trivial
          · rename_i f hLiteral
            refine Exits.error ?_
            rw [Constant.placed_ofLiteral hLiteral]
            exact h.placed (Constant.reasoned_ofLiteral hLiteral) ht
        · exact hName
        · exact hName
        · split
          · exact hName
          · exact .failAt (h.placed trivial ht)

theorem exitsWithin_extend (h : AdmitsTokens l P F) {n : Nat} (ih : ExitsWithin P F n) (ts : Tokens)
    (level : Nat) (lhs : Evaluated) (hStand : ts.Stand P) (hn : 3 * ts.rest.length < n + 1) :
    Exits F (extend (m := Except Fault) zeroNames (n + 1) level lhs ts) fun r =>
      r.2.rest.length ≤ ts.rest.length ∧ r.2.Stand P := by
  rw [extend]
  split
  · exact Exits.ok ⟨Nat.le_refl _, hStand⟩
  · rename_i t rest hRest
    have ht : P t.position := hStand.rest t (hRest ▸ List.mem_cons_self)
    have hLength := length_advance hRest
    split
    · exact Exits.ok ⟨Nat.le_refl _, hStand⟩
    · split
      · exact .failAt (h.placed trivial ht)
      · split
        · exact Exits.ok ⟨Nat.le_refl _, hStand⟩
        · refine (ih.climb ts.advance _ hStand.advance (by omega)).bind fun r hr => ?_
          refine Exits.bind (P := fun _ => True) ?_ fun v _ => ?_
          · unfold applyBinary
            split
            · exact (h.orFailAt (Constant.reasoned_binary _ _ _) ht).bind fun _ _ => trivial
            · trivial
          · exact (ih.extend r.2 level v hr.2 (by omega)).mono fun x hx => ⟨by omega, hx.2⟩

theorem exitsWithin (h : AdmitsTokens l P F) (n : Nat) : ExitsWithin P F n := by
  induction n with
  | zero =>
    exact ⟨fun _ _ hn => absurd hn (Nat.not_lt_zero _), fun _ _ _ hn => absurd hn (Nat.not_lt_zero _),
      fun _ _ _ _ hn => absurd hn (Nat.not_lt_zero _)⟩
  | succ n ih =>
    refine ⟨exitsWithin_operand h ih, fun ts level hStand hn => ?_, exitsWithin_extend h ih⟩
    rw [climb]
    refine (ih.operand ts hStand (by omega)).bind fun r hr => ?_
    exact (ih.extend r.2 level r.1 hr.2 (by omega)).mono fun x hx => ⟨by omega, hx.2⟩

theorem exits_evaluate_zeroNames (h : AdmitsTokens l P F) {tokens : List Token}
    (hStand : ∀ t ∈ tokens, P t.position) :
    Exits F (evaluate (m := Except Fault) zeroNames tokens) fun _ => True := by
  unfold evaluate
  split
  · exact .fail (h.unplaced trivial)
  · rename_i hSome
    have hTokens := Tokens.Stand.ofList (by simpa using hSome) hStand
    refine Exits.bind (P := fun r => ∀ t ∈ r.2, P t.position) ?_ fun r hr => ?_
    · refine Exits.bind ((exitsWithin h (budgetFor tokens)).climb _ _ hTokens ?_)
        fun r hr => Exits.ok hr.2.rest
      rw [Tokens.ofList, budgetFor]
      dsimp only
      omega
    · dsimp only
      split
      · trivial
      · rename_i t _ hRest
        exact .failAt (h.placed trivial (hr t (hRest ▸ List.mem_cons_self)))

end Expression

namespace Condition

theorem exits_definedOperand (h : AdmitsTokens l P F) {place : Token} (hPlace : P place.position)
    (ts : List Token) : Exits F (definedOperand place ts) fun _ => True := by
  unfold definedOperand
  repeat' split
  all_goals first | trivial | exact .failAt (h.placed trivial hPlace)

/-- What the tokens of a condition are replaced by stands where they did. -/
theorem exits_substitute {table : MacroTable} (h : AdmitsTokens table.lexicon P F) (skip : Nat)
    {ts : List Token} (hStand : ∀ t ∈ ts, P t.position) :
    Exits F (substitute table skip ts) fun us => ∀ t ∈ us, P t.position := by
  induction ts generalizing skip with
  | nil =>
    unfold substitute
    exact Exits.ok nofun
  | cons t ts ih =>
    obtain ⟨ht, hRest⟩ := List.forall_mem_cons.mp hStand
    have hKept : ∀ skip, Exits F (substitute table skip ts >>= fun rest => .ok (t :: rest))
        fun us => ∀ t ∈ us, P t.position := fun skip =>
      (ih skip hRest).bind fun us hus => Exits.ok (List.forall_mem_cons.mpr ⟨ht, hus⟩)
    have hCalled : ∀ args skip, Exits F (Macro.expand table t args >>= fun replaced =>
        substitute table skip ts >>= fun rest => .ok (replaced ++ rest))
        fun us => ∀ t ∈ us, P t.position := fun args skip =>
      (Macro.exits_expand h t args).bind fun vs hvs => (ih skip hRest).bind fun us hus =>
        Exits.ok (List.forall_mem_append.mpr ⟨fun v hv => hvs v hv ▸ ht, hus⟩)
    cases skip with
    | succ skip =>
      unfold substitute
      exact ih skip hRest
    | zero =>
      unfold substitute
      split
      · exact (exits_definedOperand h ht _).bind fun x _ => (ih _ hRest).bind fun us hus =>
          Exits.ok (List.forall_mem_cons.mpr ⟨ht, hus⟩)
      · split
        · exact hKept 0
        · split
          · split
            · exact (Macro.exits_arguments (h.unplaced trivial) _).bind fun x _ => hCalled _ _
            · exact hKept 0
          · exact hCalled none 0

theorem exits_holds {table : MacroTable} {directive : Token} (h : AdmitsTokens table.lexicon P F)
    (hPlace : ∀ col, P ⟨directive.position.line, col⟩) (text : List Char) :
    Exits F (holds table directive text) fun _ => True := by
  have hLine : ∀ ts : List Token, ∀ t ∈ ts.map (onLine directive.position.line), P t.position := by
    intro ts t ht
    obtain ⟨u, -, rfl⟩ := List.mem_map.mp ht
    exact hPlace _
  unfold holds
  refine (h.tokenize _ _).bind fun tokens _ => ?_
  refine (exits_substitute h 0 (hLine tokens)).bind fun tokens hTokens => ?_
  refine (Expression.exits_evaluate_zeroNames h hTokens).bind fun v _ => ?_
  cases hTruth : v.value.truth with
  | ok b => trivial
  | error cause => exact .fail (h.unplaced (Constant.reasoned_truth _ cause hTruth))

end Condition

end Admitted

end IdlReader
