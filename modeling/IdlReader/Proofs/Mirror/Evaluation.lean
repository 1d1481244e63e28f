import IdlReader.Proofs.Mirror.Session

/-!
# Evaluation in mirrored sessions

Expressions of mirrored tokens have the same values in mirrored sessions, and mirrored
declarations become done with the same ones.

* `follows_evaluate`: expressions whose operands follow each other.
* `follows_declaredValue`: the parts of declarations.
* `followsEvaluation_evaluateDeclaration`: declarations.
-/

namespace IdlReader

open IdlReader.Tree

/-- Whether an outcome and the tokens behind it stand for those of another evaluation. -/
structure Mirror.Evaluates (M : Mirror) (r r' : Evaluated × Expression.Tokens) : Prop where
  outcome : r'.1 = r.1
  rest : M.Tokens r.2.rest r'.2.rest

namespace Token.Mirrors

variable {M : Mirror} {t t' : Token}

theorem unaryOperator? (h : t.Mirrors M t') :
    Expression.unaryOperator? t' = Expression.unaryOperator? t := by
  unfold Expression.unaryOperator?
  rw [h.kind, h.text]

theorem binaryOperator? (h : t.Mirrors M t') :
    Expression.binaryOperator? t' = Expression.binaryOperator? t := by
  unfold Expression.binaryOperator?
  rw [h.kind, h.text]

theorem isTerminator (h : t.Mirrors M t') :
    Expression.isTerminator t' = Expression.isTerminator t := by
  unfold Expression.isTerminator
  rw [h.kind, h.text]

theorem ofLiteral (h : t.Mirrors M t') {c : Constant}
    (hc : Constant.ofLiteral t = .ok c) : Constant.ofLiteral t' = .ok c := by
  unfold Constant.ofLiteral at hc ⊢
  rw [h.kind, h.text]
  split at hc
  · cases hText : Constant.ofLiteralText _ t.text.toList with
    | ok a =>
      rw [hText] at hc
      exact hc
    | error cause =>
      rw [hText] at hc
      cases hc
  · cases hc

end Token.Mirrors

/-- Mirrored tokens without the next one. -/
theorem Expression.Tokens.mirrors_advance {M : Mirror} {ts ts' : Tokens}
    (h : M.Tokens ts.rest ts'.rest) : M.Tokens ts.advance.rest ts'.advance.rest := by
  obtain ⟨rest, last⟩ := ts
  obtain ⟨rest', last'⟩ := ts'
  cases h with
  | nil => exact .nil
  | cons _ hRest => exact hRest

/-- Mirrored tokens behind a mark. -/
theorem Expression.Tokens.mirrors_eat? {M : Mirror} {ts ts' : Tokens}
    (h : M.Tokens ts.rest ts'.rest) (text : String) :
    (ts.eat? text = none ∧ ts'.eat? text = none) ∨ ∃ us us', ts.eat? text = some us ∧
      ts'.eat? text = some us' ∧ M.Tokens us.rest us'.rest := by
  have hAdvance := mirrors_advance h
  obtain ⟨rest, last⟩ := ts
  obtain ⟨rest', last'⟩ := ts'
  unfold eat?
  cases h with
  | nil => exact Or.inl ⟨rfl, rfl⟩
  | @cons t t' _ _ ht hRest =>
    dsimp only
    rw [ht.is]
    cases t.is text with
    | false => exact Or.inl ⟨rfl, rfl⟩
    | true => exact Or.inr ⟨_, _, rfl, rfl, hAdvance⟩

namespace Parsing

variable {M : Mirror} {s s' : Session} {α α' β β' : Type}

/-! ## Lists -/

theorem Follows.mapM {f : α → Parsing β} {f' : α' → Parsing β'} {P : α → α' → Prop}
    {Q : β → β' → Prop} {l : List α} {l' : List α'}
    (hf : ∀ {s s' : Session} a a', P a a' → s.Mirrors M s' → Follows M (f a) (f' a') s s' Q)
    (hl : List.Forall₂ P l l') (h : s.Mirrors M s') :
    Follows M (l.mapM f) (l'.mapM f') s s' (List.Forall₂ Q) := by
  induction hl generalizing s s' with
  | nil => exact Follows.pure h .nil
  | cons hFirst _ ih =>
    rw [List.mapM_cons, List.mapM_cons]
    refine (hf _ _ hFirst h).bind ?_
    intro b b' u u' _ hb hu
    refine (ih hu).bind ?_
    intro bs bs' v v' _ hbs hv
    exact Follows.pure hv (.cons hb hbs)

theorem Follows.forM {f f' : EntityId → Parsing Unit} {l : List EntityId}
    (hf : ∀ {s s' : Session} id, s.Mirrors M s' →
      Follows M (f id) (f' (M.entity id)) s s' fun _ _ => True)
    (h : s.Mirrors M s') :
    Follows M (l.forM f) ((l.map M.entity).forM f') s s' fun _ _ => True := by
  induction l generalizing s s' with
  | nil => exact Follows.pure h trivial
  | cons id l ih => exact (hf id h).bind fun _ _ _ _ _ _ hu => ih hu

/-! ## Expressions -/

section Expressions

open Expression

theorem follows_expect (h : s.Mirrors M s') {ts ts' : Tokens} (hts : M.Tokens ts.rest ts'.rest)
    (text : String) : Follows M (ts.expect text) (ts'.expect text) s s'
      fun r r' => M.Tokens r.rest r'.rest := by
  unfold Tokens.expect
  rcases Tokens.mirrors_eat? hts text with ⟨hNone, hNone'⟩ | ⟨us, us', hSome, hSome', hus⟩
  · rw [hNone]
    exact follows_failAt _ _ _
  · rw [hSome, hSome']
    exact Follows.pure h hus

theorem follows_applyUnary (h : s.Mirrors M s') (op : UnaryOperator) (p p' : Position)
    (a : Evaluated) : Follows M (applyUnary op p a) (applyUnary op p' a) s s' Eq := by
  cases a with
  | known c =>
    refine (follows_orFailAt h p p' _).bind ?_
    rintro b _ u u' _ rfl hu
    exact Follows.pure hu rfl
  | dynamic => exact Follows.pure h rfl

theorem follows_applyBinary (h : s.Mirrors M s') (op : BinaryOperator) (p p' : Position)
    (a b : Evaluated) : Follows M (applyBinary op p a b) (applyBinary op p' a b) s s' Eq := by
  unfold applyBinary
  split
  · refine (follows_orFailAt h p p' _).bind ?_
    rintro c _ u u' _ rfl hu
    exact Follows.pure hu rfl
  · exact Follows.pure h rfl

/-- Whether actions on the tokens of expressions follow each other. -/
def FollowsTokens (M : Mirror) (x x' : Tokens → Parsing (Evaluated × Tokens)) : Prop :=
  ∀ {s s' : Session} {ts ts' : Tokens}, s.Mirrors M s' → M.Tokens ts.rest ts'.rest →
    Follows M (x ts) (x' ts') s s' M.Evaluates

/-- Whether operands follow each other if the expressions inside of them do. -/
def FollowsOperands (M : Mirror) (resolve resolve' : Resolver Parsing) : Prop :=
  ∀ index index', FollowsTokens M index index' →
    FollowsTokens M (resolve index) (resolve' index')

variable {resolve resolve' : Resolver Parsing}

theorem follows_steps (hResolve : FollowsOperands M resolve resolve') (n : Nat) :
    FollowsTokens M (operand resolve n) (operand resolve' n) ∧
      (∀ level, FollowsTokens M (climb resolve n level) (climb resolve' n level)) ∧
      ∀ level lhs, FollowsTokens M (extend resolve n level lhs) (extend resolve' n level lhs) := by
  induction n with
  | zero =>
    refine ⟨fun _ _ => ?_, fun level _ _ _ _ _ _ => ?_, fun level lhs _ _ _ _ _ _ => ?_⟩
    · rw [operand]
      exact follows_fail _ _
    · rw [climb]
      exact follows_fail _ _
    · rw [extend]
      exact follows_fail _ _
  | succ n ih =>
    obtain ⟨ihOperand, ihClimb, ihExtend⟩ := ih
    refine ⟨?_, ?_, ?_⟩
    · intro s s' ts ts' h hts
      have hAdvance := Tokens.mirrors_advance hts
      have hResolved := hResolve _ _ (ihClimb lowestPrecedence) h hts
      rw [operand, operand]
      obtain ⟨rest, last⟩ := ts
      obtain ⟨rest', last'⟩ := ts'
      cases hts with
      | nil => exact follows_failAt _ _ _
      | @cons t t' _ _ ht _ =>
        dsimp only
        rw [ht.is "(", ht.is "::", ht.unaryOperator?, ht.kind]
        refine Follows.ite (fun _ => ?_) fun _ => ?_
        · refine (ihClimb _ h hAdvance).bind ?_
          rintro ⟨_, us⟩ ⟨inner, us'⟩ u u' _ ⟨rfl, hus⟩ hu
          refine (follows_expect hu hus ")").bind ?_
          exact fun vs vs' v v' _ hvs hv => Follows.pure hv ⟨rfl, hvs⟩
        · cases unaryOperator? t with
          | some op =>
            refine (ihClimb _ h hAdvance).bind ?_
            rintro ⟨_, us⟩ ⟨inner, us'⟩ u u' _ ⟨rfl, hus⟩ hu
            refine (follows_applyUnary hu op _ _ _).bind ?_
            rintro result _ v v' _ rfl hv
            exact Follows.pure hv ⟨rfl, hus⟩
          | none =>
            cases t.kind with
            | literal kind =>
              refine (follows_orThrow h _ fun c hc => ht.ofLiteral hc).bind ?_
              rintro c _ u u' _ rfl hu
              exact Follows.pure hu ⟨rfl, hAdvance⟩
            | identifier | keyword => exact hResolved
            | _ => exact Follows.ite (fun _ => hResolved) fun _ => follows_failAt _ _ _
    · intro level s s' ts ts' h hts
      rw [climb, climb]
      refine (ihOperand h hts).bind ?_
      rintro ⟨_, us⟩ ⟨lhs, us'⟩ u u' _ ⟨rfl, hus⟩ hu
      exact ihExtend level lhs hu hus
    · intro level lhs s s' ts ts' h hts
      have hAdvance := Tokens.mirrors_advance hts
      have hDone : Follows M (pure (lhs, ts)) (pure (lhs, ts')) s s' M.Evaluates :=
        Follows.pure h ⟨rfl, hts⟩
      rw [extend, extend]
      obtain ⟨rest, last⟩ := ts
      obtain ⟨rest', last'⟩ := ts'
      cases hts with
      | nil => exact hDone
      | @cons t t' _ _ ht _ =>
        dsimp only
        rw [ht.isTerminator, ht.binaryOperator?]
        refine Follows.ite (fun _ => hDone) fun _ => ?_
        cases binaryOperator? t with
        | none => exact follows_failAt _ _ _
        | some op =>
          refine Follows.ite (fun _ => hDone) fun _ => ?_
          refine (ihClimb _ h hAdvance).bind ?_
          rintro ⟨_, us⟩ ⟨rhs, us'⟩ u u' _ ⟨rfl, hus⟩ hu
          refine (follows_applyBinary hu op _ _ _ _).bind ?_
          rintro value _ v v' _ rfl hv
          exact ihExtend _ _ hv hus

theorem follows_evaluateAt (hResolve : FollowsOperands M resolve resolve') (h : s.Mirrors M s')
    {tokens tokens' : List Token} (hTokens : M.Tokens tokens tokens') :
    Follows M (evaluateAt resolve lowestPrecedence tokens)
      (evaluateAt resolve' lowestPrecedence tokens') s s'
      fun r r' => r'.1 = r.1 ∧ M.Tokens r.2 r'.2 := by
  unfold evaluateAt budgetFor
  rw [hTokens.length_eq]
  refine ((follows_steps hResolve _).2.1 _ h hTokens).bind ?_
  rintro ⟨_, us⟩ ⟨value, us'⟩ u u' _ ⟨rfl, hus⟩ hu
  exact Follows.pure hu ⟨rfl, hus⟩

/-- Expressions of mirrored tokens have the same values. -/
theorem follows_evaluate (hResolve : FollowsOperands M resolve resolve') (h : s.Mirrors M s')
    {tokens tokens' : List Token} (hTokens : M.Tokens tokens tokens') :
    Follows M (evaluate resolve tokens) (evaluate resolve' tokens') s s' Eq := by
  have hAt := follows_evaluateAt hResolve h hTokens
  unfold evaluate
  cases hTokens with
  | nil => exact follows_fail_bind _ _
  | cons _ _ =>
    refine hAt.bind ?_
    rintro ⟨_, us⟩ ⟨value, us'⟩ u u' _ ⟨rfl, hus⟩ hu
    cases hus with
    | nil => exact Follows.pure hu rfl
    | cons _ _ => exact follows_failAt _ _ _

/-! ## Operands -/

/-- The name behind the mark that separates names. -/
theorem follows_nameBehind {place place' : Position} {n : Nat} (name : String)
    (hTail : ∀ (name : String) {ts ts' : Tokens}, M.Tokens ts.rest ts'.rest →
      Follows M (scopedNameTail place n name ts) (scopedNameTail place' n name ts') s s'
        fun r r' => r'.1 = r.1 ∧ M.Tokens r.2.rest r'.2.rest)
    {us us' : Tokens} (hus : M.Tokens us.rest us'.rest) : Follows M
      (match us.rest with
        | [] => failAt .identifierExpected place
        | t :: _ =>
          if t.isIdentifier then scopedNameTail place n (name ++ t.text) us.advance
          else failAtToken .identifierExpected t)
      (match us'.rest with
        | [] => failAt .identifierExpected place'
        | t :: _ =>
          if t.isIdentifier then scopedNameTail place' n (name ++ t.text) us'.advance
          else failAtToken .identifierExpected t) s s'
      fun r r' => r'.1 = r.1 ∧ M.Tokens r.2.rest r'.2.rest := by
  have hAdvance := Tokens.mirrors_advance hus
  obtain ⟨rest, last⟩ := us
  obtain ⟨rest', last'⟩ := us'
  cases hus with
  | nil => exact follows_failAt _ _ _
  | @cons t t' _ _ ht _ =>
    dsimp only
    rw [ht.isIdentifier, ht.text]
    exact Follows.ite (fun _ => hTail _ hAdvance) fun _ => follows_failAtToken _ _ _

theorem follows_scopedNameTail (place place' : Position) (n : Nat) (name : String)
    {ts ts' : Tokens} (h : s.Mirrors M s') (hts : M.Tokens ts.rest ts'.rest) :
    Follows M (scopedNameTail place n name ts) (scopedNameTail place' n name ts') s s'
      fun r r' => r'.1 = r.1 ∧ M.Tokens r.2.rest r'.2.rest := by
  induction n generalizing name ts ts' with
  | zero => exact follows_fail _ _
  | succ n ih =>
    have hRest : ∀ {us us' : Tokens} (name : String) (hus : M.Tokens us.rest us'.rest), _ :=
      fun name hus => follows_nameBehind name (fun name _ _ hts => ih name hts) hus
    unfold scopedNameTail
    dsimp only
    by_cases hContinued : name.toList.getLast? = some ':'
    · simp only [if_pos hContinued]
      exact hRest _ hts
    · simp only [if_neg hContinued]
      rcases Tokens.mirrors_eat? hts "::" with ⟨hNone, hNone'⟩ | ⟨us, us', hSome, hSome', hus⟩
      · rw [hNone, hNone']
        exact Follows.pure h ⟨rfl, hts⟩
      · rw [hSome, hSome']
        exact hRest _ hus

/-- The member behind a point. -/
theorem follows_member {index index' : Tokens → Parsing (Evaluated × Tokens)}
    {place place' : Position} {n : Nat}
    (hTail : ∀ {ts ts' : Tokens}, M.Tokens ts.rest ts'.rest →
      Follows M (accessorTail index place n ts) (accessorTail index' place' n ts') s s'
        fun r r' => r'.1 = r.1 ∧ r'.2.1 = r.2.1 ∧ M.Tokens r.2.2.rest r'.2.2.rest)
    {us us' : Tokens} (hus : M.Tokens us.rest us'.rest) : Follows M
      (match us.rest with
        | t :: _ =>
          if t.isWord then do
            let (as, dynamic, ts) ← accessorTail index place n us.advance
            return (.member t.text :: as, dynamic, ts)
          else failAt .memberNameExpected place
        | [] => failAt .memberNameExpected place)
      (match us'.rest with
        | t :: _ =>
          if t.isWord then do
            let (as, dynamic, ts) ← accessorTail index' place' n us'.advance
            return (.member t.text :: as, dynamic, ts)
          else failAt .memberNameExpected place'
        | [] => failAt .memberNameExpected place') s s'
      fun r r' => r'.1 = r.1 ∧ r'.2.1 = r.2.1 ∧ M.Tokens r.2.2.rest r'.2.2.rest := by
  have hAdvance := Tokens.mirrors_advance hus
  obtain ⟨rest, last⟩ := us
  obtain ⟨rest', last'⟩ := us'
  cases hus with
  | nil => exact follows_failAt _ _ _
  | @cons t t' _ _ ht _ =>
    dsimp only
    rw [ht.isWord, ht.text]
    refine Follows.ite (fun _ => ?_) fun _ => follows_failAt _ _ _
    refine (hTail hAdvance).bind ?_
    rintro ⟨_, _, vs⟩ ⟨as, dynamic, vs'⟩ u u' _ ⟨rfl, rfl, hvs⟩ hu
    exact Follows.pure hu ⟨rfl, rfl, hvs⟩

theorem follows_accessorTail {index index' : Tokens → Parsing (Evaluated × Tokens)}
    (hIndex : FollowsTokens M index index') (place place' : Position) (n : Nat)
    {ts ts' : Tokens} (h : s.Mirrors M s') (hts : M.Tokens ts.rest ts'.rest) :
    Follows M (accessorTail index place n ts) (accessorTail index' place' n ts') s s'
      fun r r' => r'.1 = r.1 ∧ r'.2.1 = r.2.1 ∧ M.Tokens r.2.2.rest r'.2.2.rest := by
  induction n generalizing ts ts' s s' with
  | zero => exact follows_fail _ _
  | succ n ih =>
    have hPoint : (ts'.rest.head?.map fun t => t.kind == .operator && t.text == ".").getD false =
        (ts.rest.head?.map fun t => t.kind == .operator && t.text == ".").getD false := by
      obtain ⟨rest, last⟩ := ts
      obtain ⟨rest', last'⟩ := ts'
      cases hts with
      | nil => rfl
      | cons ht _ =>
        dsimp only [List.head?_cons, Option.map_some]
        rw [ht.kind, ht.text]
    unfold accessorTail
    rw [hPoint]
    refine Follows.ite (fun _ => follows_member (fun hts => ih h hts) (Tokens.mirrors_advance hts))
      fun _ => ?_
    rcases Tokens.mirrors_eat? hts "[" with ⟨hNone, hNone'⟩ | ⟨us, us', hSome, hSome', hus⟩
    · rw [hNone, hNone']
      exact Follows.pure h ⟨rfl, rfl, hts⟩
    · rw [hSome, hSome']
      dsimp only
      refine (hIndex h hus).bind ?_
      rintro ⟨_, vs⟩ ⟨i, vs'⟩ u u' _ ⟨rfl, hvs⟩ hu
      refine (follows_expect hu hvs "]").bind ?_
      intro ws ws' v v' _ hws hv
      cases i with
      | dynamic =>
        refine (ih hv hws).bind ?_
        rintro ⟨_, _, xs⟩ ⟨as, dynamic, xs'⟩ w w' _ ⟨rfl, rfl, hxs⟩ hw
        exact Follows.pure hw ⟨rfl, rfl, hxs⟩
      | known c =>
        refine (follows_orFailAt hv _ _ _).bind ?_
        rintro i _ w w' _ rfl hw
        refine (ih hw hws).bind ?_
        rintro ⟨_, _, xs⟩ ⟨as, dynamic, xs'⟩ x x' _ ⟨rfl, rfl, hxs⟩ hx
        exact Follows.pure hx ⟨rfl, rfl, hxs⟩

end Expressions

section Declarations

/-- Whether evaluations of mirrored declarations follow each other. -/
def FollowsEvaluation (M : Mirror) (evaluate evaluate' : EntityId → Parsing Unit) : Prop :=
  ∀ {s s' : Session} (id : EntityId), s.Mirrors M s' →
    Follows M (evaluate id) (evaluate' (M.entity id)) s s' fun _ _ => True

variable {evaluate evaluate' : EntityId → Parsing Unit}
  (hEvaluate : FollowsEvaluation M evaluate evaluate')

include hEvaluate

/-- The value that accessors lead to in the value of a declaration. -/
theorem follows_storedValue (h : s.Mirrors M s') (place place' : Position) (name : String)
    (id : EntityId) (accessors : List Accessor) : Follows M (do
        orAt place (evaluate id)
        let t ← tree
        match (t.get id).declaration?.bind fun d =>
          d.value.navigate? t.caseSensitive accessors with
        | some (.simple v) => return v
        | some _ => failAt (.valueUnusable name) place
        | none => failAt (.undefinedName name) place) (do
        orAt place' (evaluate' (M.entity id))
        let t ← tree
        match (t.get (M.entity id)).declaration?.bind fun d =>
          d.value.navigate? t.caseSensitive accessors with
        | some (.simple v) => return v
        | some _ => failAt (.valueUnusable name) place'
        | none => failAt (.undefinedName name) place') s s' Eq := by
  refine (follows_orAt (hEvaluate id h)).bind ?_
  intro _ _ u u' _ _ hu
  refine Follows.tree ?_
  cases hd : (u.tree.get id).declaration? with
  | none => exact follows_failAt _ _ _
  | some d =>
    obtain ⟨d', hd', hMirrors⟩ := (hu.tree.entity id).declaration? hd
    rw [hd', Option.bind_some, Option.bind_some, hMirrors.value, hu.tree.caseSensitive]
    split
    · exact Follows.pure hu rfl
    · exact follows_failAt _ _ _
    · exact follows_failAt _ _ _

theorem follows_operandValue (h : s.Mirrors M s') (place place' : Position) (name : String)
    (id : EntityId) (accessors : List Accessor) (dynamic : Bool) :
    Follows M (operandValue evaluate place name id accessors dynamic)
      (operandValue evaluate' place' name (M.entity id) accessors dynamic) s s' Eq := by
  have hValue := follows_storedValue hEvaluate h place place' name id accessors
  unfold operandValue
  refine Follows.entity ?_
  rw [(h.tree.entity id).kind]
  dsimp only
  cases (s.tree.get id).kind with
  | field | attr | parameter | caseEntry => exact Follows.pure h rfl
  | const | enumEntry => exact Follows.ite (fun _ => Follows.pure h rfl) fun _ => hValue
  | _ => exact follows_failAt _ _ _

open Expression in
theorem followsOperands_resolver (scope : EntityId) :
    FollowsOperands M (resolver evaluate scope) (resolver evaluate' (M.entity scope)) := by
  intro index index' hIndex s s' ts ts' h hts
  have hAdvance := Tokens.mirrors_advance hts
  unfold resolver
  obtain ⟨rest, last⟩ := ts
  obtain ⟨rest', last'⟩ := ts'
  cases hts with
  | nil => exact follows_failAt _ _ _
  | @cons t t' us us' ht hus =>
    dsimp only
    rw [hus.length_eq, ht.text]
    refine (follows_scopedNameTail _ _ _ _ h hAdvance).bind ?_
    rintro ⟨_, vs⟩ ⟨name, vs'⟩ u u' _ ⟨rfl, hvs⟩ hu
    refine (follows_accessorTail hIndex _ _ _ hu hvs).bind ?_
    rintro ⟨_, _, ws⟩ ⟨accessors, dynamic, ws'⟩ v v' _ ⟨rfl, rfl, hws⟩ hv
    refine Follows.tree ?_
    rw [hv.reflects.find]
    cases v.tree.find scope _ true with
    | none => exact follows_failAt _ _ _
    | some id =>
      refine (follows_operandValue hEvaluate hv _ _ _ id _ _).bind ?_
      rintro value _ w w' _ rfl hw
      exact Follows.pure hw ⟨rfl, hws⟩

theorem follows_evaluateIn (h : s.Mirrors M s') (scope : EntityId) {tokens tokens' : List Token}
    (hTokens : M.Tokens tokens tokens') : Follows M (evaluateIn evaluate scope tokens)
      (evaluateIn evaluate' (M.entity scope) tokens') s s' Eq :=
  follows_evaluate (followsOperands_resolver hEvaluate scope) h hTokens

/-! ## Parts of declarations -/

theorem follows_arraySize (h : s.Mirrors M s') (scope : EntityId) {dimension dimension' : List Token}
    (hDimension : M.Tokens dimension dimension') : Follows M (arraySize evaluate scope dimension)
      (arraySize evaluate' (M.entity scope) dimension') s s' Eq := by
  have hIn := follows_evaluateIn hEvaluate h scope hDimension
  unfold arraySize
  cases hDimension with
  | nil => exact Follows.pure h rfl
  | @cons first first' _ _ hFirst _ =>
    dsimp only
    refine hIn.bind ?_
    rintro v _ u u' _ rfl hu
    cases v with
    | dynamic => exact Follows.pure hu rfl
    | known c =>
      refine (follows_orFailAt hu _ _ _).bind ?_
      rintro size _ w w' _ rfl hw
      exact Follows.ite (fun _ => follows_failAtToken_bind _ _ _) fun _ => Follows.pure hw rfl

theorem follows_nextEntryValue (h : s.Mirrors M s') (id scope : EntityId) :
    Follows M (nextEntryValue evaluate id scope)
      (nextEntryValue evaluate' (M.entity id) (M.entity scope)) s s' Eq := by
  have hBefore : (((s'.tree.get (M.entity scope)).children.takeWhile (· ≠ M.entity id)).filter
      fun c => (s'.tree.get c).kind = .enumEntry) =
      (((s.tree.get scope).children.takeWhile (· ≠ id)).filter
        fun c => (s.tree.get c).kind = .enumEntry).map M.entity := by
    have hKinds := h.tree.filter_kind (fun k => decide (k = .enumEntry))
      ((s.tree.get scope).children.takeWhile (· ≠ id))
    rw [(h.tree.entity scope).children, List.takeWhile_map]
    have hSame : ((fun c => decide (c ≠ M.entity id)) ∘ M.entity) = fun c => decide (c ≠ id) := by
      funext c
      exact decide_eq_decide.mpr (not_congr M.entity_injective.eq_iff)
    rw [hSame]
    exact hKinds
  unfold nextEntryValue
  refine Follows.tree ?_
  dsimp only
  rw [hBefore, List.getLast?_map]
  cases List.getLast? _ with
  | none => exact Follows.pure h rfl
  | some previous =>
    refine (hEvaluate previous h).bind ?_
    intro _ _ u u' _ _ hu
    refine Follows.entity ?_
    have hValue : ((u'.tree.get (M.entity previous)).declaration?.bind fun d =>
        d.value.constant?) = (u.tree.get previous).declaration?.bind fun d => d.value.constant? := by
      cases hd : (u.tree.get previous).declaration? with
      | none => rw [(hu.tree.entity previous).declaration?_none hd]
      | some d =>
        obtain ⟨d', hd', hMirrors⟩ := (hu.tree.entity previous).declaration? hd
        rw [hd', Option.bind_some, Option.bind_some, hMirrors.value]
    rw [hValue]
    refine (follows_orFail hu _).bind ?_
    rintro sum _ v v' _ rfl hv
    exact follows_orFail hv _

theorem follows_entryValue (h : s.Mirrors M s') (id scope : EntityId) {d d' : Declaration}
    (hd : d.Mirrors M d') : Follows M (entryValue evaluate id d scope)
      (entryValue evaluate' (M.entity id) d' (M.entity scope)) s s' Eq := by
  have hAssignment := hd.assignment
  unfold entryValue
  have hIn := follows_evaluateIn hEvaluate h scope hAssignment
  generalize d.assignment = tokens at hAssignment hIn ⊢
  generalize d'.assignment = tokens' at hAssignment hIn ⊢
  cases hAssignment with
  | nil =>
    refine (follows_nextEntryValue hEvaluate h id scope).bind ?_
    rintro c _ u u' _ rfl hu
    exact Follows.pure hu rfl
  | cons _ _ =>
    refine hIn.bind ?_
    rintro v _ u u' _ rfl hu
    cases v with
    | dynamic => exact follows_failAtToken _ _ _
    | known c =>
      refine (follows_orFailAt hu _ _ _).bind ?_
      rintro c _ w w' _ rfl hw
      exact Follows.pure hw rfl

theorem follows_labelValues (h : s.Mirrors M s') (union : EntityId) (switchKind : Option Kind)
    {labels labels' : List (List Token)} (hLabels : List.Forall₂ M.Tokens labels labels') :
    Follows M (labelValues evaluate union switchKind labels)
      (labelValues evaluate' (M.entity union) switchKind labels') s s' Eq := by
  induction hLabels generalizing s s' with
  | nil => exact Follows.pure h rfl
  | @cons label label' labels labels' hLabel _ ih =>
    have hIn := follows_evaluateIn hEvaluate h union hLabel
    cases hLabel with
    | nil =>
      rw [labelValues, labelValues]
      exact ih h
    | cons _ _ =>
      rw [labelValues, labelValues]
      refine hIn.bind ?_
      rintro v _ u u' _ rfl hu
      cases v with
      | dynamic => exact follows_failAtToken _ _ _
      | known c =>
        have hRest : ∀ {u u' : Session} (c : Constant), u.Mirrors M u' → Follows M (do
            let cs ← labelValues evaluate union switchKind labels
            return c :: cs) (do
            let cs ← labelValues evaluate' (M.entity union) switchKind labels'
            return c :: cs) u u' Eq := by
          intro u u' c hu
          refine (ih hu).bind ?_
          rintro cs _ w w' _ rfl hw
          exact Follows.pure hw rfl
        cases switchKind with
        | some k =>
          refine (follows_orFailAt hu _ _ _).bind ?_
          rintro c _ w w' _ rfl hw
          exact hRest c hw
        | none => exact hRest c hu

end Declarations

/-! ## Initializers -/

theorem mirrors_reverse {ts ts' : List Token} (h : M.Tokens ts ts') :
    M.Tokens ts.reverse ts'.reverse := List.rel_reverse h

theorem follows_splitElements (h : s.Mirrors M s') (depth : Nat)
    {element element' tokens tokens' : List Token} (hElement : M.Tokens element element')
    (hTokens : M.Tokens tokens tokens') : Follows M (splitElements depth element tokens)
      (splitElements depth element' tokens') s s' (List.Forall₂ M.Tokens) := by
  induction hTokens generalizing depth element element' with
  | nil =>
    cases hElement with
    | nil => exact Follows.pure h .nil
    | cons ht hts => exact Follows.pure h (.cons (mirrors_reverse (.cons ht hts)) .nil)
  | @cons t t' ts ts' ht hts ih =>
    have hDepth : initializerDepth depth t' = initializerDepth depth t := by
      unfold initializerDepth
      rw [ht.isOneOf, ht.isOneOf]
    unfold splitElements
    rw [ht.is, hDepth]
    refine Follows.ite (fun _ => ?_) fun _ => ih _ (.cons ht hElement)
    cases hElement with
    | nil => exact follows_failAtToken _ _ _
    | cons hFirst hRest =>
      rw [List.isEmpty_cons, List.isEmpty_cons]
      refine Follows.ite (fun hEmpty => absurd hEmpty Bool.false_ne_true) fun _ =>
        (ih depth .nil).bind ?_
      intro elements elements' u u' _ hElements hu
      exact Follows.pure hu (.cons (mirrors_reverse (.cons hFirst hRest)) hElements)

theorem follows_splitInitializer (h : s.Mirrors M s') {tokens tokens' : List Token}
    (hTokens : M.Tokens tokens tokens') : Follows M (splitInitializer tokens)
      (splitInitializer tokens') s s' (List.Forall₂ M.Tokens) := by
  unfold splitInitializer
  cases hTokens with
  | nil => exact Follows.pure h .nil
  | @cons first first' rest rest' hFirst hRest =>
    have hLast : (rest'.getLast?.map (·.is "\x7d")).getD false =
        (rest.getLast?.map (·.is "\x7d")).getD false := by
      have hReversed := mirrors_reverse hRest
      rw [List.getLast?_eq_head?_reverse, List.getLast?_eq_head?_reverse]
      generalize rest.reverse = ts at hReversed ⊢
      generalize rest'.reverse = ts' at hReversed ⊢
      cases hReversed with
      | nil => rfl
      | cons ht _ =>
        dsimp only [List.head?_cons, Option.map_some, Option.getD_some]
        exact ht.is _
    have hInner : M.Tokens rest.dropLast rest'.dropLast := by
      rw [List.dropLast_eq_take, List.dropLast_eq_take, hRest.length_eq]
      exact List.forall₂_take _ hRest
    dsimp only
    rw [hLast, hFirst.is]
    exact Follows.ite (fun _ => follows_splitElements h 0 .nil hInner)
      fun _ => follows_failAtToken _ _ _

theorem follows_textElements (h : s.Mirrors M s') (type : DeclaredType) (size : Option Nat)
    {t t' : Token} (ht : t.Mirrors M t') : Follows M (textElements type size t)
      (textElements (type.renumber M.entity) size t') s s' Eq := by
  unfold textElements
  rw [DeclaredType.kind?_renumber]
  refine (follows_orThrow h _ fun c hc => ht.ofLiteral hc).bind ?_
  rintro c _ u u' _ rfl hu
  dsimp only
  refine Follows.ite (fun _ => follows_failAtToken_bind _ _ _) fun _ => ?_
  refine (Follows.mapM (P := Eq) (Q := Eq) ?_ (List.forall₂_refl _) hu).bind ?_
  · rintro v v' d _ rfl hv
    refine (follows_orFailAt hv _ _ _).bind ?_
    rintro c _ w w' _ rfl hw
    exact Follows.pure hw rfl
  · intro elements elements' v v' _ hElements hv
    rw [List.forall₂_eq_eq_eq] at hElements
    rw [hElements]
    exact Follows.pure hv rfl

theorem mirrors_isTextLiteral {tokens tokens' : List Token} (h : M.Tokens tokens tokens') :
    isTextLiteral tokens' = isTextLiteral tokens := by
  unfold isTextLiteral
  cases h with
  | nil => rfl
  | cons ht hRest =>
    cases hRest with
    | nil =>
      dsimp only
      rw [ht.kind]
    | cons _ _ => rfl

section Values

/-- Whether values of mirrored types from mirrored tokens follow each other. -/
def FollowsBuilder (M : Mirror) (build build' : Builder) : Prop :=
  ∀ {s s' : Session} (type : DeclaredType) (sizes : List (Option Nat)) {tokens tokens' : List Token},
    s.Mirrors M s' → M.Tokens tokens tokens' →
    Follows M (build type sizes tokens) (build' (type.renumber M.entity) sizes tokens') s s' Eq

variable {evaluate evaluate' : EntityId → Parsing Unit}
  (hEvaluate : FollowsEvaluation M evaluate evaluate')

include hEvaluate

theorem follows_scalarValue (h : s.Mirrors M s') (scope : EntityId) (type : DeclaredType)
    (constant : Bool) (first first' : Token) {tokens tokens' : List Token}
    (hTokens : M.Tokens tokens tokens') :
    Follows M (scalarValue evaluate scope type constant first tokens)
      (scalarValue evaluate' (M.entity scope) (type.renumber M.entity) constant first' tokens')
      s s' Eq := by
  unfold scalarValue
  rw [DeclaredType.kind?_renumber]
  refine (follows_evaluateIn hEvaluate h scope hTokens).bind ?_
  rintro v _ u u' _ rfl hu
  cases v with
  | dynamic =>
    exact Follows.ite (fun _ => follows_failAtToken _ _ _) fun _ => Follows.pure hu rfl
  | known c =>
    cases type.kind? with
    | none => exact follows_failAtToken _ _ _
    | some k =>
      refine (follows_orFailAt hu _ _ _).bind ?_
      rintro c _ w w' _ rfl hw
      exact Follows.pure hw rfl

theorem follows_buildMembers {build build' : Builder} (hBuild : FollowsBuilder M build build')
    (h : s.Mirrors M s') (members : List EntityId) {elements elements' : List (List Token)}
    (hElements : List.Forall₂ M.Tokens elements elements') :
    Follows M (buildMembers evaluate build members elements)
      (buildMembers evaluate' build' (members.map M.entity) elements') s s' Eq := by
  induction members generalizing elements elements' s s' with
  | nil => exact Follows.pure h rfl
  | cons m ms ih =>
    have hTail : List.Forall₂ M.Tokens elements.tail elements'.tail := by
      cases hElements with
      | nil => exact .nil
      | cons _ hRest => exact hRest
    rw [List.map_cons]
    unfold buildMembers
    refine (hEvaluate m h).bind ?_
    intro _ _ u u' _ _ hu
    refine Follows.entity ?_
    cases hd : (u.tree.get m).declaration? with
    | none =>
      rw [(hu.tree.entity m).declaration?_none hd]
      exact ih hu hTail
    | some d =>
      obtain ⟨d', hd', hMirrors⟩ := (hu.tree.entity m).declaration? hd
      have hRest : ∀ {v v' : Session} (value : ValueNode), v.Mirrors M v' → Follows M (do
          let vs ← buildMembers evaluate build ms elements.tail
          return ((u.tree.get m).name, value) :: vs) (do
          let vs ← buildMembers evaluate' build' (ms.map M.entity) elements'.tail
          return ((u'.tree.get (M.entity m)).name, value) :: vs) v v' Eq := by
        intro v v' value hv
        refine (ih hv hTail).bind ?_
        rintro vs _ w w' _ rfl hw
        exact Follows.pure hw (by rw [(hu.tree.entity m).name])
      rw [hd']
      dsimp only
      cases hElements with
      | nil =>
        refine (Follows.pure (Q := Eq) hu hMirrors.value.symm).bind ?_
        rintro value _ v v' _ rfl hv
        exact hRest _ hv
      | cons hTokens _ =>
        rw [hMirrors.type, hMirrors.sizes]
        refine (hBuild d.type d.sizes hu hTokens).bind ?_
        rintro value _ v v' _ rfl hv
        exact hRest _ hv

theorem follows_buildValue (scope : EntityId) (constant : Bool) (n : Nat) :
    FollowsBuilder M (buildValue evaluate scope constant n)
      (buildValue evaluate' (M.entity scope) constant n) := by
  induction n with
  | zero => exact fun _ _ _ _ _ _ => follows_fail _ _
  | succ n ih =>
    intro s s' type sizes tokens tokens' h hTokens
    have hAll := hTokens
    cases hTokens with
    | nil =>
      unfold buildValue
      exact Follows.pure h rfl
    | @cons first first' rest rest' hFirst hRest =>
      cases sizes with
      | nil =>
        unfold buildValue
        refine Follows.tree ?_
        rw [h.reflects.compoundDefinition?]
        cases compoundDefinition? s.tree type with
        | none => exact follows_scalarValue hEvaluate h scope type constant _ _ hAll
        | some definition =>
          have hMembers := h.tree.filter_kind (fun k => decide (k = .field))
            (s.tree.get definition).children
          dsimp only [Option.map_some]
          rw [(h.tree.entity definition).children, hMembers]
          refine (follows_splitInitializer h hAll).bind ?_
          intro elements elements' u u' _ hElements hu
          rw [List.length_map, hElements.length_eq]
          refine Follows.ite (fun _ => follows_failAtToken_bind _ _ _) fun _ => ?_
          refine (follows_buildMembers hEvaluate ih hu _ hElements).bind ?_
          rintro values _ v v' _ rfl hv
          exact Follows.pure hv rfl
      | cons size inner =>
        unfold buildValue
        rw [DeclaredType.base_renumber, mirrors_isTextLiteral hAll]
        refine Follows.ite (fun _ => follows_textElements h type size hFirst) fun _ => ?_
        refine (follows_splitInitializer h hAll).bind ?_
        intro elements elements' u u' _ hElements hu
        dsimp only
        rw [hElements.length_eq]
        refine Follows.ite (fun _ => follows_failAtToken_bind _ _ _) fun _ => ?_
        refine (Follows.mapM (P := M.Tokens) (Q := Eq) (fun ts ts' hts hv =>
          ih type inner hv hts) hElements hu).bind ?_
        intro values values' v v' _ hValues hv
        rw [List.forall₂_eq_eq_eq] at hValues
        rw [hValues]
        exact Follows.pure hv rfl

theorem follows_declaredValue (h : s.Mirrors M s') (id scope : EntityId) (kind : EntityKind)
    {d d' : Declaration} (hd : d.Mirrors M d') (sizes : List (Option Nat)) :
    Follows M (declaredValue evaluate id kind d sizes scope)
      (declaredValue evaluate' (M.entity id) kind d' sizes (M.entity scope)) s s' Eq := by
  have hBuild : ∀ constant, Follows M (do
      let v ← buildValue evaluate scope constant (d.assignment.length + 1) d.type sizes d.assignment
      return (v, ([] : List Constant))) (do
      let v ← buildValue evaluate' (M.entity scope) constant (d'.assignment.length + 1) d'.type
        sizes d'.assignment
      return (v, [])) s s' Eq := by
    intro constant
    rw [hd.type, hd.assignment.length_eq]
    refine (follows_buildValue hEvaluate scope constant _ d.type sizes h hd.assignment).bind ?_
    rintro v _ u u' _ rfl hu
    exact Follows.pure hu rfl
  unfold declaredValue
  cases kind with
  | enumEntry =>
    refine (follows_entryValue hEvaluate h id scope hd).bind ?_
    rintro v _ u u' _ rfl hu
    exact Follows.pure hu rfl
  | caseEntry =>
    refine Follows.tree ?_
    have hSwitch : ((s'.tree.get (M.entity scope)).definition?.bind fun u =>
        u.switchType.bind DeclaredType.kind?) =
        (s.tree.get scope).definition?.bind fun u => u.switchType.bind DeclaredType.kind? := by
      rw [(h.tree.entity scope).definition?]
      cases (s.tree.get scope).definition? with
      | none => rfl
      | some u =>
        unfold Definition.renumber
        dsimp only [Option.map_some, Option.bind_some]
        cases u.switchType with
        | none => rfl
        | some type => exact DeclaredType.kind?_renumber type
    dsimp only [Option.bind_eq_bind]
    rw [hSwitch]
    refine (follows_labelValues hEvaluate h scope _ hd.labels).bind ?_
    rintro values _ u u' _ rfl hu
    exact Follows.pure hu rfl
  | const | field => exact hBuild _
  | _ => exact Follows.pure h rfl

end Values

/-! ## Declarations -/

/-- Evaluations with at least as many declarations left follow each other. -/
theorem followsEvaluation_within {n n' : Nat} (hLe : n ≤ n') :
    FollowsEvaluation M (evaluateWithin n) (evaluateWithin n') := by
  induction n generalizing n' with
  | zero => exact fun _ _ => follows_fail _ _
  | succ n ih =>
    obtain ⟨n', rfl⟩ := Nat.exists_eq_add_of_le' hLe
    have hInner : FollowsEvaluation M (evaluateWithin n) (evaluateWithin (n' + n)) :=
      ih (Nat.le_add_left n n')
    intro s s' id h
    have hEntity := h.tree.entity id
    rw [← Nat.add_assoc]
    unfold evaluateWithin
    refine Follows.entity ?_
    cases hd : (s.tree.get id).declaration? with
    | none =>
      rw [hEntity.declaration?_none hd]
      exact Follows.pure h trivial
    | some d =>
      obtain ⟨d', hd', hMirrors⟩ := hEntity.declaration? hd
      have hScope : (s'.tree.get (M.entity id)).parent.getD root =
          M.entity ((s.tree.get id).parent.getD root) := by
        rw [hEntity.parent]
        cases (s.tree.get id).parent with
        | none => exact M.entity_root.symm
        | some p => rfl
      rw [hd']
      dsimp only
      rw [hMirrors.progress, hScope, hEntity.kind]
      cases d.progress with
      | done => exact Follows.pure h trivial
      | processing => exact follows_fail _ _
      | pending =>
        have hStart : Follows M (modifyDeclaration id Declaration.started)
            (modifyDeclaration (M.entity id) Declaration.started) s s' fun _ _ => True :=
          follows_modifyEntity h .start fun hMirrors =>
            hMirrors.mapDeclaration fun d d' hd => { hd with progress := rfl }
        refine hStart.bind ?_
        intro _ _ u u' _ _ hu
        refine (Follows.mapM (Q := Eq) (fun dimension dimension' hDimension hv =>
          follows_arraySize hInner hv _ hDimension) hMirrors.dimensions hu).bind ?_
        intro sizes sizes' v v' _ hSizes hv
        rw [List.forall₂_eq_eq_eq] at hSizes
        subst hSizes
        refine (follows_declaredValue hInner hv id _ _ hMirrors sizes).bind ?_
        rintro ⟨value, caseValues⟩ _ w w' _ rfl hw
        exact follows_modifyEntity hw .finish fun hMirrors => hMirrors.mapDeclaration
          fun d d' hd => { hd with sizes := rfl, value := rfl, caseValues := rfl, progress := rfl }

/-- Mirrored declarations become done alike. -/
theorem followsEvaluation_evaluateDeclaration :
    FollowsEvaluation M evaluateDeclaration evaluateDeclaration := by
  intro s s' id h
  refine Follows.tree ?_
  exact followsEvaluation_within (Nat.succ_le_succ h.tree.size) id h

end Parsing

end IdlReader
