import IdlReader.Proofs.Macro.Argument

/-!
# Arguments of a call

The arguments of a call stand behind its opening parenthesis with a comma between each two of them, up
to the first closing parenthesis that is not inside of parentheses. The tokens of a call are read up to
the same parenthesis, although one more is counted then: the one that opens the call.

* `EndsAt`: where a call ends, and `IsArgument`: what is an argument.
* `endsAt_of_splitArguments`, `splitArguments_of_joined`: what splitting does, and when it does so.
* `endsAt_callTokens`: the tokens that are read of a call.
-/

namespace IdlReader.Macro

variable {depth i : Nat} {t : Token} {ts a : List Token} {args : List (List Token)}

/-! ## Parentheses -/

/-- How many more parentheses tokens open than they close. -/
def nesting (ts : List Token) : Int :=
  (ts.countP fun t => t.is "(" : Nat) - (ts.countP fun t => t.is ")" : Nat)

theorem nesting_cons (t : Token) (ts : List Token) :
    nesting (t :: ts) = nesting [t] + nesting ts := by
  unfold nesting
  rw [← List.singleton_append, List.countP_append, List.countP_append]
  omega

/-- A parenthesis that closes nothing is never counted. -/
theorem depthAfter_eq (h : depth = 0 → t.is ")" = false) :
    (depthAfter depth t : Int) = depth + nesting [t] := by
  unfold depthAfter nesting
  rw [List.countP_singleton, List.countP_singleton]
  cases hOpening : t.is "(" with
  | true =>
    rw [Token.not_is_of_is hOpening (by decide)]
    simp
  | false =>
    cases hClosing : t.is ")" with
    | false => simp
    | true =>
      have hPositive : depth ≠ 0 := fun hZero => by simp [h hZero] at hClosing
      simp
      omega

/-- Whether the token at a place is a closing parenthesis and no parenthesis is open in front of it, if
`depth` of them are open in front of the first token. -/
structure ClosesAt (depth : Nat) (ts : List Token) (i : Nat) : Prop where
  closing : ∃ t ∈ ts[i]?, t.is ")" = true
  outside : depth + nesting (ts.take i) = 0

/-- Whether a place is the first one where a parenthesis closes the call. -/
structure EndsAt (depth : Nat) (ts : List Token) (i : Nat) : Prop where
  closes : ClosesAt depth ts i
  first : ∀ j < i, ¬ ClosesAt depth ts j

theorem EndsAt.unique {j : Nat} (h : EndsAt depth ts i) (h' : EndsAt depth ts j) : i = j := by
  rcases Nat.lt_trichotomy i j with hLess | hEq | hLess
  · exact absurd h.closes (h'.first i hLess)
  · exact hEq
  · exact absurd h'.closes (h.first j hLess)

theorem closesAt_cons (h : depth = 0 → t.is ")" = false) :
    ClosesAt depth (t :: ts) (i + 1) ↔ ClosesAt (depthAfter depth t) ts i := by
  have hDepth : (depth : Int) + nesting ((t :: ts).take (i + 1)) =
      depthAfter depth t + nesting (ts.take i) := by
    rw [List.take_succ_cons, nesting_cons, depthAfter_eq h, Int.add_assoc]
  constructor
  · rintro ⟨hClosing, hOutside⟩
    exact ⟨hClosing, hDepth ▸ hOutside⟩
  · rintro ⟨hClosing, hOutside⟩
    exact ⟨hClosing, hDepth ▸ hOutside⟩

theorem not_closesAt_zero (h : depth = 0 → t.is ")" = false) : ¬ ClosesAt depth (t :: ts) 0 := by
  rintro ⟨⟨u, hu, hClosing⟩, hOutside⟩
  cases hu
  have hDepth : depth = 0 := by
    simpa [nesting] using hOutside
  rw [h hDepth] at hClosing
  cases hClosing

theorem endsAt_zero (h : t.is ")" = true) : EndsAt 0 (t :: ts) 0 :=
  ⟨⟨⟨t, rfl, h⟩, rfl⟩, fun j hj => absurd hj (Nat.not_lt_zero j)⟩

theorem EndsAt.cons (hEnds : EndsAt (depthAfter depth t) ts i) (h : depth = 0 → t.is ")" = false) :
    EndsAt depth (t :: ts) (i + 1) := by
  refine ⟨(closesAt_cons h).mpr hEnds.closes, fun j hj hCloses => ?_⟩
  cases j with
  | zero => exact not_closesAt_zero h hCloses
  | succ j => exact hEnds.first j (Nat.lt_of_succ_lt_succ hj) ((closesAt_cons h).mp hCloses)

/-! ## Arguments -/

/-- Whether tokens are one argument: they close the parentheses that they open, and no others, and no
comma stands outside of parentheses. -/
structure IsArgument (a : List Token) : Prop where
  balanced : nesting a = 0
  closed : ∀ p, p <+: a → 0 ≤ nesting p
  separated : ∀ (p : List Token) (t : Token), p ++ [t] <+: a → t.is "," = true → 0 < nesting p

/-- Whether tokens are arguments with one comma between each two of them. -/
inductive Joined : List (List Token) → List Token → Prop where
  | single (a : List Token) : Joined [a] a
  | cons (a : List Token) {comma : Token} {args : List (List Token)} {ts : List Token}
      (hComma : comma.is "," = true) (hRest : Joined args ts) :
      Joined (a :: args) (a ++ comma :: ts)

theorem balanced_iff : Balanced depth a ↔ depth + nesting a = 0 ∧
    (∀ p, p <+: a → 0 ≤ depth + nesting p) ∧
    ∀ (p : List Token) (t : Token), p ++ [t] <+: a → t.is "," = true → 0 < depth + nesting p := by
  induction a generalizing depth with
  | nil =>
    have hNil : nesting [] = 0 := rfl
    simp [Balanced, hNil]
  | cons t a ih =>
    have hStep : (depth = 0 → t.is ")" = false) → ∀ p,
        (depth : Int) + nesting (t :: p) = depthAfter depth t + nesting p := by
      intro h p
      rw [nesting_cons, depthAfter_eq h, Int.add_assoc]
    constructor
    · rintro ⟨hOutside, hRest⟩
      have h := hStep fun hZero => (hOutside hZero).1
      obtain ⟨hBalanced, hClosed, hSeparated⟩ := ih.mp hRest
      refine ⟨(h a).trans hBalanced, fun p hp => ?_, fun p u hp hComma => ?_⟩
      · cases p with
        | nil => exact Int.natCast_nonneg depth
        | cons v p =>
          obtain ⟨rfl, hTail⟩ := List.cons_prefix_cons.mp hp
          exact h p ▸ hClosed p hTail
      · cases p with
        | nil =>
          obtain ⟨rfl, -⟩ := List.cons_prefix_cons.mp hp
          have hPositive : depth ≠ 0 := fun hZero => by simp [(hOutside hZero).2] at hComma
          change 0 < (depth : Int) + 0
          omega
        | cons v p =>
          obtain ⟨rfl, hTail⟩ := List.cons_prefix_cons.mp hp
          exact h p ▸ hSeparated p u hTail hComma
    · rintro ⟨hBalanced, hClosed, hSeparated⟩
      have hClosing : depth = 0 → t.is ")" = false := by
        rintro rfl
        refine Bool.eq_false_iff.mpr fun hClosing => ?_
        have hBelow := hClosed [t] (List.cons_prefix_cons.mpr ⟨rfl, List.nil_prefix⟩)
        have hOpening : t.is "(" = false := Token.not_is_of_is hClosing (by decide)
        simp [nesting, hClosing, hOpening] at hBelow
      have hComma : depth = 0 → t.is "," = false := by
        rintro rfl
        refine Bool.eq_false_iff.mpr fun hComma => ?_
        exact absurd (hSeparated [] t (List.cons_prefix_cons.mpr ⟨rfl, List.nil_prefix⟩) hComma)
          (by decide)
      have h := hStep hClosing
      refine ⟨fun hZero => ⟨hClosing hZero, hComma hZero⟩,
        ih.mpr ⟨(h a).symm.trans hBalanced, ?_, ?_⟩⟩
      · exact fun p hp => h p ▸ hClosed (t :: p) (List.cons_prefix_cons.mpr ⟨rfl, hp⟩)
      · exact fun p u hp hComma =>
          h p ▸ hSeparated (t :: p) u (List.cons_prefix_cons.mpr ⟨rfl, hp⟩) hComma

theorem isArgument_iff : IsArgument a ↔ Balanced 0 a := by
  rw [balanced_iff]
  simp only [Int.natCast_zero, Int.zero_add]
  exact ⟨fun h => ⟨h.balanced, h.closed, h.separated⟩, fun h => ⟨h.1, h.2.1, h.2.2⟩⟩

/-! ## Splitting -/

/-- The first argument may start inside of parentheses. -/
theorem joined_consFirst (h : Joined args ts) (t : Token) : Joined (consFirst t args) (t :: ts) := by
  cases h with
  | single => exact .single (t :: ts)
  | cons a hComma hRest => exact .cons (t :: a) hComma hRest

/-- A token that does not close the call closes a parenthesis that is open. -/
theorem not_closing (h : ¬(t.is ")" && depth == 0) = true) : depth = 0 → t.is ")" = false := by
  rintro rfl
  simpa using h

theorem depthAfter_comma (h : t.is "," = true) : depthAfter depth t = depth := by
  rw [depthAfter, Token.not_is_of_is h (by decide), Token.not_is_of_is h (by decide)]
  rfl

/-- What is split off: the tokens up to the end of the call, as its arguments. -/
theorem endsAt_of_splitArguments {n : Nat} (h : splitArguments depth ts = some (args, n)) :
    ∃ i a as, n = i + 1 ∧ EndsAt depth ts i ∧ args = a :: as ∧ Joined args (ts.take i) ∧
      Balanced depth a ∧ ∀ b ∈ as, Balanced 0 b := by
  fun_induction splitArguments depth ts generalizing args n with
  | case1 => cases h
  | case2 depth t ts hClosing =>
    rw [Bool.and_eq_true, beq_iff_eq] at hClosing
    obtain ⟨hClosing, rfl⟩ := hClosing
    cases h
    exact ⟨0, [], [], rfl, endsAt_zero hClosing, rfl, .single [], rfl, List.forall_mem_nil _⟩
  | case3 depth t ts hClosing hComma ih =>
    rw [Bool.and_eq_true, beq_iff_eq] at hComma
    obtain ⟨hComma, rfl⟩ := hComma
    obtain ⟨r, hRest, hEq⟩ := Option.map_eq_some_iff.mp h
    cases hEq
    obtain ⟨i, a, as, hn, hEnds, hArgs, hJoined, hFirst, hOthers⟩ := ih hRest
    refine ⟨i + 1, [], r.1, congrArg (· + 1) hn, ?_, rfl, .cons [] hComma hJoined, rfl, ?_⟩
    · refine .cons ?_ (not_closing hClosing)
      rwa [depthAfter_comma hComma]
    · rw [hArgs]
      exact List.forall_mem_cons.mpr ⟨hFirst, hOthers⟩
  | case4 depth t ts hClosing hComma ih =>
    obtain ⟨r, hRest, hEq⟩ := Option.map_eq_some_iff.mp h
    cases hEq
    obtain ⟨i, a, as, hn, hEnds, hArgs, hJoined, hFirst, hOthers⟩ := ih hRest
    refine ⟨i + 1, t :: a, as, congrArg (· + 1) hn, hEnds.cons (not_closing hClosing), ?_,
      joined_consFirst hJoined t, ⟨fun hZero => ⟨not_closing hClosing hZero, ?_⟩, hFirst⟩, hOthers⟩
    · rw [hArgs]
      rfl
    · subst hZero
      simpa using hComma

/-- Nothing is split off where no call ends. -/
theorem not_closesAt_of_splitArguments (h : splitArguments depth ts = none) (i : Nat) :
    ¬ ClosesAt depth ts i := by
  fun_induction splitArguments depth ts generalizing i with
  | case1 =>
    rintro ⟨⟨t, ht, -⟩, -⟩
    cases ht
  | case2 => cases h
  | case3 depth t ts hClosing hComma ih =>
    rw [Bool.and_eq_true, beq_iff_eq] at hComma
    obtain ⟨hComma, rfl⟩ := hComma
    cases i with
    | zero => exact not_closesAt_zero (not_closing hClosing)
    | succ i =>
      rw [closesAt_cons (not_closing hClosing), depthAfter_comma hComma]
      exact ih (Option.map_eq_none_iff.mp h) i
  | case4 depth t ts hClosing hComma ih =>
    cases i with
    | zero => exact not_closesAt_zero (not_closing hClosing)
    | succ i =>
      rw [closesAt_cons (not_closing hClosing)]
      exact ih (Option.map_eq_none_iff.mp h) i

theorem splitArguments_comma (h : Balanced depth a) {comma : Token} (hComma : comma.is "," = true)
    (ts : List Token) : splitArguments depth (a ++ comma :: ts) =
      (splitArguments 0 ts).map fun r => (a :: r.1, a.length + 1 + r.2) := by
  induction a generalizing depth with
  | nil =>
    obtain rfl : depth = 0 := h
    rw [List.nil_append, splitArguments, Token.not_is_of_is hComma (by decide), hComma]
    simp [Nat.add_comm]
  | cons t a ih =>
    obtain ⟨hOutside, hRest⟩ := h
    have hPlain : (t.is ")" && depth == 0) = false ∧ (t.is "," && depth == 0) = false := by
      cases depth with
      | zero => simp [hOutside rfl]
      | succ depth => exact ⟨Bool.and_false _, Bool.and_false _⟩
    rw [List.cons_append, splitArguments, hPlain.1, hPlain.2, ih hRest]
    simp [Function.comp_def, consFirst, Nat.add_right_comm]

/-- Arguments that are joined are split again. -/
theorem splitArguments_of_joined (h : Joined args ts) (hArguments : ∀ a ∈ args, Balanced 0 a)
    {close : Token} (hClose : close.is ")" = true) (rest : List Token) :
    splitArguments 0 (ts ++ close :: rest) = some (args, ts.length + 1) := by
  induction h with
  | single a =>
    exact splitArguments_of_balanced (hArguments a List.mem_cons_self) hClose rest
  | cons a hComma hRest ih =>
    obtain ⟨hFirst, hOthers⟩ := List.forall_mem_cons.mp hArguments
    rw [List.append_assoc, List.cons_append, splitArguments_comma hFirst hComma, ih hOthers]
    simp
    omega

/-- The tokens are split at their commas up to the end of the call, if there is one. -/
theorem splitArguments_eq_some_iff {n : Nat} : splitArguments 0 ts = some (args, n) ↔
    ∃ i, n = i + 1 ∧ EndsAt 0 ts i ∧ Joined args (ts.take i) ∧ ∀ a ∈ args, IsArgument a := by
  simp only [isArgument_iff]
  constructor
  · intro h
    obtain ⟨i, a, as, hn, hEnds, rfl, hJoined, hFirst, hOthers⟩ := endsAt_of_splitArguments h
    exact ⟨i, hn, hEnds, hJoined, List.forall_mem_cons.mpr ⟨hFirst, hOthers⟩⟩
  · rintro ⟨i, rfl, hEnds, hJoined, hArguments⟩
    obtain ⟨close, hAt, hClosing⟩ := hEnds.closes.closing
    obtain ⟨hLess, rfl⟩ := List.getElem?_eq_some_iff.mp hAt
    have hParts := splitArguments_of_joined hJoined hArguments hClosing (ts.drop (i + 1))
    rwa [← List.drop_eq_getElem_cons, List.take_append_drop,
      List.length_take_of_le (Nat.le_of_lt hLess)] at hParts

theorem arguments_eq_ok_iff {n : Nat} :
    arguments ts = .ok (args, n) ↔ splitArguments 0 ts = some (args, n) := by
  unfold arguments
  cases splitArguments 0 ts with
  | none => simp [fail]
  | some r => simp

theorem exists_arguments (h : EndsAt 0 ts i) : ∃ args, arguments ts = .ok (args, i + 1) := by
  cases hSome : splitArguments 0 ts with
  | none => exact absurd h.closes (not_closesAt_of_splitArguments hSome i)
  | some r =>
    obtain ⟨j, hn, hEnds, -⟩ := splitArguments_eq_some_iff.mp hSome
    exact ⟨r.1, arguments_eq_ok_iff.mpr (by rw [hSome, h.unique hEnds, ← hn])⟩

theorem arguments_of_not_endsAt (h : ¬ ∃ i, EndsAt 0 ts i) : arguments ts = fail .callUnclosed := by
  unfold arguments
  cases hSome : splitArguments 0 ts with
  | none => rfl
  | some r =>
    obtain ⟨i, -, hEnds, -⟩ := splitArguments_eq_some_iff.mp hSome
    exact absurd ⟨i, hEnds⟩ h

/-! ## Calls that are read -/

/-- One parenthesis more is open while a call is read than while it is split. -/
theorem depthAfter_succ (h : depth = 0 → t.is ")" = false) :
    depthAfter (depth + 1) t = depthAfter depth t + 1 := by
  have hSplit := depthAfter_eq h
  have hRead : (depthAfter (depth + 1) t : Int) = (depth + 1 : Nat) + nesting [t] :=
    depthAfter_eq fun hZero => absurd hZero (Nat.succ_ne_zero depth)
  omega

theorem depthAfter_one (h : t.is ")" = true) : depthAfter 1 t = 0 := by
  rw [depthAfter, Token.not_is_of_is h (by decide), h]
  rfl

/-- Reading a call counts parentheses as splitting it does. -/
theorem callTokens_succ (name : Token) (n depth : Nat) (r : Reader) (g : Gathered) :
    r.callTokens name (n + 1) depth g = do
      let (t, r, g) ← r.rawSignificant r.charactersLeft g
      if t.isFinish || t.kind = .directive then failAt (.callUnclosedIn name.text) name.position
      else if depthAfter depth t = 0 then return ([t], r, g)
      else
        let (ts, r, g) ← r.callTokens name n (depthAfter depth t) g
        return (t :: ts, r, g) := rfl

/-- The tokens of a call are read up to the parenthesis that closes it. -/
theorem endsAt_callTokens {name : Token} {n : Nat} {r r' : Reader} {g g' : Gathered}
    (h : r.callTokens name n (depth + 1) g = .ok (ts, r', g')) :
    ∃ (front : List Token) (close : Token), ts = front ++ [close] ∧
      EndsAt depth ts front.length := by
  induction n generalizing depth ts r g with
  | zero => cases h
  | succ n ih =>
    rw [callTokens_succ] at h
    obtain ⟨⟨t, r₁, g₁⟩, -, h⟩ := bind_eq_ok.mp h
    dsimp only at h
    split at h
    · cases h
    · by_cases hEnd : t.is ")" = true ∧ depth = 0
      · obtain ⟨hClosing, rfl⟩ := hEnd
        rw [if_pos (depthAfter_one hClosing)] at h
        cases h
        exact ⟨[], t, rfl, endsAt_zero hClosing⟩
      · have hOpen : depth = 0 → t.is ")" = false :=
          fun hZero => Bool.eq_false_iff.mpr fun hClosing => hEnd ⟨hClosing, hZero⟩
        rw [depthAfter_succ hOpen, if_neg (Nat.succ_ne_zero _)] at h
        obtain ⟨⟨us, r₂, g₂⟩, hRest, h⟩ := bind_eq_ok.mp h
        cases h
        obtain ⟨front, close, rfl, hEnds⟩ := ih hRest
        exact ⟨t :: front, close, rfl, hEnds.cons hOpen⟩

/-- Splitting the tokens behind the opening parenthesis of a call. There is a result if and only if there
is a first closing parenthesis outside of parentheses. The arguments are then those that the tokens in
front of it are joined of, and the number is the one of the tokens through it. Where there is none, the
call is not closed. The tokens that are read of a call are split, and none is left over. -/
theorem separated_arguments (ts : List Token) :
    (∀ args n, arguments ts = .ok (args, n) ↔ ∃ i, n = i + 1 ∧ EndsAt 0 ts i ∧
      Joined args (ts.take i) ∧ ∀ a ∈ args, IsArgument a) ∧
    (∀ i, EndsAt 0 ts i → ∃ args, arguments ts = .ok (args, i + 1)) ∧
    ((¬ ∃ i, EndsAt 0 ts i) → arguments ts = fail .callUnclosed) ∧
    ∀ {name : Token} {n : Nat} {r r' : Reader} {g g' : Gathered},
      r.callTokens name n 1 g = .ok (ts, r', g') →
      EndsAt 0 ts (ts.length - 1) ∧ ∃ args, arguments ts = .ok (args, ts.length) := by
  refine ⟨fun args n => arguments_eq_ok_iff.trans splitArguments_eq_some_iff,
    fun i => exists_arguments, arguments_of_not_endsAt, fun h => ?_⟩
  obtain ⟨front, close, rfl, hEnds⟩ := endsAt_callTokens h
  have hLength : (front ++ [close]).length = front.length + 1 := List.length_append
  rw [hLength, Nat.add_sub_cancel]
  exact ⟨hEnds, exists_arguments hEnds⟩

/-- A call whose second argument stands in parentheses is read through its last parenthesis and split into
both arguments; without any token, it is not closed. -/
theorem separated_arguments_nested :
    let r : Reader := { env := {}, files := .empty, macros := ⟨({} : Environment).lexicon, []⟩
                        frames := [⟨0, none, Cursor.ofText "x, (y)) z".toList, 0⟩] }
    (∃ ts r' g', r.callTokens (.point .identifier "F" .start 0) 20 1 {} = .ok (ts, r', g') ∧
      EndsAt 0 ts 5 ∧ ∃ args, arguments ts = .ok (args, 6) ∧ Joined args (ts.take 5) ∧
        args.map joinTexts = ["x", "( y )"]) ∧
    arguments [] = fail .callUnclosed := by
  intro r
  have hRead : (r.callTokens (.point .identifier "F" .start 0) 20 1 {}).toOption.any
      (fun x => x.1.length == 6 &&
        (arguments x.1).toOption.any fun y => y.1.map joinTexts == ["x", "( y )"]) = true := by
    decide +kernel
  obtain ⟨⟨ts, r', g'⟩, hTokens, hRead⟩ := any_toOption hRead
  rw [Bool.and_eq_true, beq_iff_eq] at hRead
  obtain ⟨hLength, hTexts⟩ := hRead
  obtain ⟨hSplit, -, -, hCall⟩ := separated_arguments ts
  obtain ⟨hEnds, args, hArgs⟩ := hCall hTokens
  rw [hLength] at hEnds hArgs
  obtain ⟨x, hSame, hTexts⟩ := any_toOption hTexts
  cases hArgs.symm.trans hSame
  obtain ⟨i, hn, -, hJoined, -⟩ := (hSplit args 6).mp hArgs
  cases hn
  refine ⟨⟨ts, r', g', hTokens, hEnds, args, hArgs, hJoined, beq_iff_eq.mp hTexts⟩, ?_⟩
  refine (separated_arguments []).2.2.1 ?_
  rintro ⟨i, hEnds⟩
  obtain ⟨t, ht, -⟩ := hEnds.closes.closing
  cases ht

end IdlReader.Macro
