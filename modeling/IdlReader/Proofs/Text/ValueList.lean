import IdlReader.ValueList

/-!
# Lists of values that are written and split again

A value is written in quotes, where quotes and backslashes stand behind a backslash, or as it is if
it shows nothing that the reader of a list would take for more than a character of the value. Splitting
gives back the values that were written, however they are told apart.

* `IsPlain`: which values may be written as they are.
* `Reader.run_plain`, `Reader.run_quoted`: reading a written value.
* `split_of_lists`: splitting a list gives back its values.
-/

namespace IdlReader.ValueList

/-- Whether a character opens a bracket. -/
def isOpening (c : Char) : Bool := c == '(' || c == '\x7b'

/-- Whether a character closes a bracket. -/
def isClosing (c : Char) : Bool := c == ')' || c == '\x7d'

/-- Whether a character separates values. -/
def isSeparator (c : Char) : Bool := c == ',' || c == ';'

/-- Whether a value may be written as it is: it shows no quotes and no backslashes, its brackets are
balanced, whatever their shapes, and its separators stand inside brackets. -/
structure IsPlain (v : List Char) : Prop where
  ne_nil : v ≠ []
  quote : '"' ∉ v
  backslash : '\\' ∉ v
  balanced : v.countP isClosing = v.countP isOpening
  closed : ∀ p, p <+: v → p.countP isClosing ≤ p.countP isOpening
  separated : ∀ (p : List Char) (c : Char), p ++ [c] <+: v → isSeparator c = true →
    p.countP isClosing < p.countP isOpening

theorem isPlain_iff {v : List Char} : IsPlain v ↔ v ≠ [] ∧ '"' ∉ v ∧ '\\' ∉ v ∧
    v.countP isClosing = v.countP isOpening ∧ ∀ n < v.length + 1,
      (v.take n).countP isClosing ≤ (v.take n).countP isOpening ∧
      v[n]?.all (fun c => !isSeparator c ||
        decide ((v.take n).countP isClosing < (v.take n).countP isOpening)) = true := by
  have hAll : ∀ n, v[n]?.all (fun c => !isSeparator c ||
      decide ((v.take n).countP isClosing < (v.take n).countP isOpening)) = true ↔
      ∀ c ∈ v[n]?, isSeparator c = true →
        (v.take n).countP isClosing < (v.take n).countP isOpening := by
    intro n
    cases v[n]? with
    | none => simp
    | some c =>
      rw [Option.all_some, Bool.or_eq_true, Bool.not_eq_true', decide_eq_true_eq]
      constructor
      · rintro hc _ ⟨⟩ hSeparator
        exact hc.resolve_left (by rw [hSeparator]; decide)
      · intro hc
        cases hSeparator : isSeparator c with
        | false => exact Or.inl rfl
        | true => exact Or.inr (hc c rfl hSeparator)
  simp only [hAll]
  constructor
  · intro h
    refine ⟨h.ne_nil, h.quote, h.backslash, h.balanced, fun n _ => ⟨?_, fun c hc hSeparator => ?_⟩⟩
    · exact h.closed _ (List.take_prefix n v)
    · refine h.separated _ c ?_ hSeparator
      have hTake : v.take (n + 1) = v.take n ++ [c] := by
        rw [List.take_add_one, hc]
        rfl
      rw [← hTake]
      exact List.take_prefix (n + 1) v
  · rintro ⟨hNe, hQuote, hBackslash, hBalanced, hTakes⟩
    refine ⟨hNe, hQuote, hBackslash, hBalanced, fun p hp => ?_, fun p c hp hSeparator => ?_⟩
    · have hTake := (hTakes p.length (Nat.lt_succ_of_le hp.length_le)).1
      rwa [← List.prefix_iff_eq_take.mp hp] at hTake
    · obtain ⟨s, rfl⟩ := hp
      have hLength : p.length < (p ++ [c] ++ s).length + 1 := by
        simp only [List.length_append]
        omega
      have hTake := (hTakes p.length hLength).2 c (by simp) hSeparator
      simpa using hTake

instance (v : List Char) : Decidable (IsPlain v) := decidable_of_iff _ isPlain_iff.symm

/-- A character inside of quotes. -/
def escaped (c : Char) : List Char := if c = '"' ∨ c = '\\' then ['\\', c] else [c]

/-- A value in quotes. -/
def quoted (v : List Char) : List Char := '"' :: (v.flatMap escaped ++ ['"'])

/-- How a value is written. -/
inductive Writes (v : List Char) : List Char → Prop where
  | quoted : Writes v (quoted v)
  | plain (h : IsPlain v) : Writes v v

/-- How values are written one behind the other. -/
inductive Lists : List (List Char) → List Char → Prop where
  | last {v w : List Char} (hValue : Writes v w) : Lists [v] w
  | more {v w : List Char} {vs : List (List Char)} {s : List Char} {c : Char} (hValue : Writes v w)
      (hSeparator : isSeparator c = true) (hRest : Lists vs s) : Lists (v :: vs) (w ++ c :: s)

/-! ## Single characters -/

namespace Input

variable {c : Char}

theorem ofChar_of_isOpening (h : isOpening c = true) : ofChar c = .openBracket := by
  simp only [isOpening, Bool.or_eq_true, beq_iff_eq] at h
  rcases h with rfl | rfl <;> decide

theorem ofChar_of_isClosing (h : isClosing c = true) : ofChar c = .closeBracket := by
  simp only [isClosing, Bool.or_eq_true, beq_iff_eq] at h
  rcases h with rfl | rfl <;> decide

theorem ofChar_of_isSeparator (h : isSeparator c = true) : ofChar c = .separator := by
  simp only [isSeparator, Bool.or_eq_true, beq_iff_eq] at h
  rcases h with rfl | rfl <;> decide

theorem ofChar_other (hQuote : c ≠ '"') (hOpening : isOpening c = false)
    (hClosing : isClosing c = false) (hSeparator : isSeparator c = false) : ofChar c = .other := by
  simp only [isOpening, isClosing, isSeparator, Bool.or_eq_false_iff, beq_eq_false_iff_ne] at *
  simp [ofChar, *]

theorem ofChar_ne_quote (h : c ≠ '"') : ofChar c ≠ .quote := by
  unfold ofChar
  rw [if_neg h]
  split
  · nofun
  · split
    · nofun
    · split <;> nofun

theorem ofChar_ne_finish (c : Char) : ofChar c ≠ .finish := by
  unfold ofChar
  split
  · nofun
  · split
    · nofun
    · split
      · nofun
      · split <;> nofun

end Input

theorem not_isClosing_of_isOpening {c : Char} (h : isOpening c = true) : isClosing c = false := by
  simp only [isOpening, Bool.or_eq_true, beq_iff_eq] at h
  rcases h with rfl | rfl <;> decide

theorem ne_backslash_of_isSeparator {c : Char} (h : isSeparator c = true) : c ≠ '\\' := by
  rintro rfl
  cases h

theorem not_isBracket_of_isSeparator {c : Char} (h : isSeparator c = true) :
    isOpening c = false ∧ isClosing c = false := by
  simp only [isSeparator, Bool.or_eq_true, beq_iff_eq] at h
  rcases h with rfl | rfl <;> decide

namespace Reader

variable {r r' : Reader} {v rest : List Char}

theorem run_cons {c : Char} (hBackslash : c ≠ '\\') (h : r.feed (Input.ofChar c) [c] = .ok r') :
    r.run (c :: rest) = r'.run rest := by
  rw [run.eq_4 r c rest (fun hEq _ => hBackslash hEq) (fun _ _ hEq _ => hBackslash hEq), h]
  rfl

theorem run_escaped {c : Char} (h : r.feed .other [c] = .ok r') :
    r.run ('\\' :: c :: rest) = r'.run rest := by
  rw [run, h]
  rfl

/-! ## Values in quotes -/

/-- A character inside of quotes belongs to the value, and no bracket counts. -/
theorem feed_quoteString {input : Input} (hState : r.state = .quoteString) (hQuote : input ≠ .quote)
    (hFinish : input ≠ .finish) (text : List Char) :
    r.feed input text = .ok { r with value := text.reverse ++ r.value } := by
  obtain ⟨state, depth, value, values⟩ := r
  cases hState
  cases input <;> first | rfl | exact absurd rfl hQuote | exact absurd rfl hFinish

/-- The characters between quotes are those of the value. -/
theorem run_flatMap_escaped (hState : r.state = .quoteString) (v rest : List Char) :
    r.run (v.flatMap escaped ++ rest) = { r with value := v.reverse ++ r.value }.run rest := by
  induction v generalizing r with
  | nil => rfl
  | cons c v ih =>
    have hBelow := ih (r := { r with value := [c].reverse ++ r.value }) hState
    rw [List.flatMap_cons, List.append_assoc]
    by_cases hSpecial : c = '"' ∨ c = '\\'
    · have hFeed : r.feed .other [c] = .ok { r with value := [c].reverse ++ r.value } := by
        apply feed_quoteString hState <;> nofun
      rw [escaped, if_pos hSpecial, List.cons_append, List.cons_append, List.nil_append,
        run_escaped hFeed, hBelow]
      simp
    · have hFeed : r.feed (Input.ofChar c) [c] = .ok { r with value := [c].reverse ++ r.value } :=
        feed_quoteString hState (Input.ofChar_ne_quote (not_or.mp hSpecial).1)
          (Input.ofChar_ne_finish c) [c]
      rw [escaped, if_neg hSpecial, List.cons_append, List.nil_append,
        run_cons (not_or.mp hSpecial).2 hFeed, hBelow]
      simp

theorem run_quoted (v rest : List Char) (values : List (List Char)) :
    (⟨.valueOrQuote, 0, [], values⟩ : Reader).run (quoted v ++ rest) =
      (⟨.commaOrEnd, 0, v.reverse, values⟩ : Reader).run rest := by
  have hOpen : (⟨.valueOrQuote, 0, [], values⟩ : Reader).feed (Input.ofChar '"') ['"'] =
      .ok ⟨.quoteString, 0, [], values⟩ := rfl
  have hClose : (⟨.quoteString, 0, v.reverse, values⟩ : Reader).feed (Input.ofChar '"') ['"'] =
      .ok ⟨.commaOrEnd, 0, v.reverse, values⟩ := rfl
  rw [quoted, List.cons_append, run_cons (by decide) hOpen, List.append_assoc,
    run_flatMap_escaped rfl, List.append_nil]
  exact run_cons (by decide) hClose

/-! ## Values as they are -/

/-- The reader behind a part of a value that is written as it is. -/
def behind (values : List (List Char)) (p : List Char) : Reader where
  state := if p = [] then .valueOrQuote else .valueOrComma
  depth := p.countP isOpening - p.countP isClosing
  value := p.reverse
  values := values

section Behind

variable {p : List Char} {c : Char}

theorem state_behind_ne (values : List (List Char)) (p : List Char) :
    (behind values p).state ≠ .quoteString := by
  unfold behind
  dsimp only
  split <;> nofun

theorem countP_snoc (q : Char → Bool) (p : List Char) (c : Char) :
    (p ++ [c]).countP q = p.countP q + if q c then 1 else 0 := by
  rw [List.countP_append, List.countP_singleton]

/-- The depth is that of the part of the value that was read. -/
theorem depthAfter_behind (h : IsPlain v) (hPrefix : p ++ [c] <+: v) (hQuote : c ≠ '"')
    (values : List (List Char)) :
    (behind values p).depthAfter (Input.ofChar c) = (behind values (p ++ [c])).depth := by
  have hClosed := h.closed _ hPrefix
  have hBefore := h.closed p ((List.prefix_append p [c]).trans hPrefix)
  unfold depthAfter
  rw [if_neg (state_behind_ne values p)]
  simp only [behind, countP_snoc] at hClosed ⊢
  cases hOpening : isOpening c with
  | true =>
    rw [Input.ofChar_of_isOpening hOpening, not_isClosing_of_isOpening hOpening]
    simp only [if_true, Bool.false_eq_true, if_false]
    omega
  | false =>
    rw [hOpening] at hClosed
    cases hClosing : isClosing c with
    | true =>
      rw [Input.ofChar_of_isClosing hClosing]
      simp only [if_true, Bool.false_eq_true, if_false]
      omega
    | false =>
      cases hSeparator : isSeparator c with
      | true =>
        rw [Input.ofChar_of_isSeparator hSeparator]
        rfl
      | false =>
        rw [Input.ofChar_other hQuote hOpening hClosing hSeparator]
        rfl

/-- A separator stands inside of brackets, so that no character ends the value. -/
theorem transition_behind (h : IsPlain v) (hPrefix : p ++ [c] <+: v) (hQuote : c ≠ '"')
    (values : List (List Char)) :
    transition (behind values p).state (Input.ofChar c)
      (decide (0 < (behind values (p ++ [c])).depth)) = .ok (.valueOrComma, .keep) := by
  have hState := state_behind_ne values p
  revert hState
  generalize (behind values p).state = state
  intro hState
  cases hSeparator : isSeparator c with
  | true =>
    have hInside := h.separated p c hPrefix hSeparator
    obtain ⟨hOpening, hClosing⟩ := not_isBracket_of_isSeparator hSeparator
    have hNested : 0 < (behind values (p ++ [c])).depth := by
      simp only [behind, countP_snoc, hOpening, hClosing, Bool.false_eq_true, if_false]
      omega
    rw [Input.ofChar_of_isSeparator hSeparator, decide_eq_true hNested]
    cases state <;> first | rfl | exact absurd rfl hState
  | false =>
    have hKind : Input.ofChar c = .openBracket ∨ Input.ofChar c = .closeBracket ∨
        Input.ofChar c = .other := by
      cases hOpening : isOpening c with
      | true => exact Or.inl (Input.ofChar_of_isOpening hOpening)
      | false =>
        cases hClosing : isClosing c with
        | true => exact Or.inr (Or.inl (Input.ofChar_of_isClosing hClosing))
        | false => exact Or.inr (Or.inr (Input.ofChar_other hQuote hOpening hClosing hSeparator))
    rcases hKind with hKind | hKind | hKind <;> rw [hKind] <;>
      cases state <;> first | rfl | exact absurd rfl hState

/-- The next character of a plain value belongs to the value. -/
theorem feed_behind (h : IsPlain v) (hPrefix : p ++ [c] <+: v) (values : List (List Char)) :
    (behind values p).feed (Input.ofChar c) [c] = .ok (behind values (p ++ [c])) := by
  have hQuote : c ≠ '"' := fun hEq => h.quote (hEq ▸ hPrefix.subset (by simp))
  unfold feed
  dsimp only
  rw [depthAfter_behind h hPrefix hQuote, transition_behind h hPrefix hQuote]
  simp [behind, bind, Except.bind, pure, Except.pure]

end Behind

/-- A value that may be written as it is is read to its end, where no bracket is open. -/
theorem run_plain (h : IsPlain v) (rest : List Char) (values : List (List Char)) :
    (⟨.valueOrQuote, 0, [], values⟩ : Reader).run (v ++ rest) =
      (⟨.valueOrComma, 0, v.reverse, values⟩ : Reader).run rest := by
  have hRun : ∀ s p : List Char, p ++ s = v →
      (behind values p).run (s ++ rest) = (behind values v).run rest := by
    intro s
    induction s with
    | nil =>
      intro p hSplit
      rw [List.append_nil] at hSplit
      rw [hSplit, List.nil_append]
    | cons c s ih =>
      intro p hSplit
      have hSplit' : p ++ [c] ++ s = v := by rw [List.append_assoc]; exact hSplit
      have hMem : c ∈ v := hSplit ▸ List.mem_append_right p List.mem_cons_self
      have hBackslash : c ≠ '\\' := fun hEq => h.backslash (hEq ▸ hMem)
      rw [List.cons_append, run_cons hBackslash (feed_behind h ⟨s, hSplit'⟩ values), ih _ hSplit']
  have hBehind : behind values v = ⟨.valueOrComma, 0, v.reverse, values⟩ := by
    rw [behind, if_neg h.ne_nil, h.balanced, Nat.sub_self]
  rw [← hBehind]
  exact hRun v [] rfl

/-! ## Lists -/

/-- Behind a written value the reader waits for a separator or for the end. -/
theorem run_written {w : List Char} (h : Writes v w) (values : List (List Char)) :
    ∃ state, (state = .commaOrEnd ∨ state = .valueOrComma) ∧ ∀ rest,
      (⟨.valueOrQuote, 0, [], values⟩ : Reader).run (w ++ rest) =
        (⟨state, 0, v.reverse, values⟩ : Reader).run rest := by
  cases h with
  | quoted => exact ⟨_, Or.inl rfl, fun rest => run_quoted v rest values⟩
  | plain hPlain => exact ⟨_, Or.inr rfl, fun rest => run_plain hPlain rest values⟩

theorem run_lists {vs : List (List Char)} {text : List Char} (h : Lists vs text)
    (values : List (List Char)) :
    (⟨.valueOrQuote, 0, [], values⟩ : Reader).run text =
      .ok ⟨.valueOrQuote, 0, [], vs.reverse ++ values⟩ := by
  induction h generalizing values with
  | @last v w hValue =>
    obtain ⟨state, hState, hRun⟩ := run_written hValue values
    rw [← List.append_nil w, hRun]
    rcases hState with rfl | rfl <;> simp [run, feed, transition, depthAfter, bind, Except.bind, pure, Except.pure]
  | @more v w vs s c hValue hSeparator hRest ih =>
    obtain ⟨state, hState, hRun⟩ := run_written hValue values
    have hEmit : (⟨state, 0, v.reverse, values⟩ : Reader).feed (Input.ofChar c) [c] =
        .ok ⟨.valueOrQuote, 0, [], v :: values⟩ := by
      rw [Input.ofChar_of_isSeparator hSeparator]
      rcases hState with rfl | rfl <;>
        simp [feed, transition, depthAfter, bind, Except.bind, pure, Except.pure]
    rw [hRun, run_cons (ne_backslash_of_isSeparator hSeparator) hEmit, ih]
    simp

end Reader

theorem Writes.ne_nil {v w : List Char} (h : Writes v w) : w ≠ [] := by
  cases h with
  | quoted => exact List.cons_ne_nil _ _
  | plain hPlain => exact hPlain.ne_nil

theorem Lists.ne_nil {vs : List (List Char)} {text : List Char} (h : Lists vs text) : text ≠ [] := by
  cases h with
  | last hValue => exact hValue.ne_nil
  | more hValue => exact List.append_ne_nil_of_left_ne_nil hValue.ne_nil _

/-- **Lists of values.** Values that are written in quotes, or as they are where they may, with commas
and semicolons between them in any mixture, are what the list is split into. -/
theorem split_of_lists {values : List (List Char)} {text : List Char} (h : Lists values text) :
    split text = .ok values := by
  have hEmpty : text.isEmpty = false := List.isEmpty_eq_false_iff.mpr h.ne_nil
  rw [split, hEmpty, Reader.initial, Reader.run_lists h]
  simp [bind, Except.bind, pure, Except.pure]

/-- Four values, one empty and one with all that needs quotes, and two with separators in brackets. -/
theorem split_of_lists_mixed :
    Lists ["a,\"b\\".toList, "f(1;\x7b2,3)\x7d".toList, [], "(;)".toList]
      "\"a,\\\"b\\\\\";f(1;\x7b2,3)\x7d,\"\";(;)".toList ∧
    split "\"a,\\\"b\\\\\";f(1;\x7b2,3)\x7d,\"\";(;)".toList =
      .ok ["a,\"b\\".toList, "f(1;\x7b2,3)\x7d".toList, [], "(;)".toList] := by
  have hLists : Lists ["a,\"b\\".toList, "f(1;\x7b2,3)\x7d".toList, [], "(;)".toList]
      "\"a,\\\"b\\\\\";f(1;\x7b2,3)\x7d,\"\";(;)".toList := by
    have hFirst := Writes.quoted (v := "a,\"b\\".toList)
    have hSecond := Writes.plain (v := "f(1;\x7b2,3)\x7d".toList) (by decide)
    have hThird := Writes.quoted (v := [])
    have hFourth := Writes.plain (v := "(;)".toList) (by decide)
    exact .more (c := ';') hFirst rfl (.more (c := ',') hSecond rfl
      (.more (c := ';') hThird rfl (.last hFourth)))
  exact ⟨hLists, split_of_lists hLists⟩

end IdlReader.ValueList
