import IdlReader.Proofs.Token.Line

/-!
# Tokens read again

The text of a token is read as this token again, alone or in front of white space: what made the
scanner stop at its end was never needed to get there.

* `IsBreak`: what no token goes on into.
* `Lexeme.read_text`: the text of a lexeme.
* `tokenize_text`: the text of a token.
-/

namespace IdlReader

namespace Lexeme

variable {p q : Position} {s u w : List Char} {x : Lexeme}

/-! ## Breaks -/

/-- Whether a text is empty or starts with white space. -/
def IsBreak (u : List Char) : Prop := ∀ c ∈ u.head?, isSpace c = true

theorem forall_head?_nil {P : Char → Prop} : ∀ c ∈ ([] : List Char).head?, P c :=
  fun c hc => absurd hc (Option.not_mem_none c)

theorem isBreak_nil : IsBreak [] := forall_head?_nil

/-- Whether a class of characters has no white space in it. -/
def isSpaceless (f : Char → Bool) : Bool := [' ', '\t', '\n', '\r', '\x0c'].all fun c => !f c

/-- What holds of no white space does not hold of the first character. -/
theorem IsBreak.not (h : IsBreak u) {f : Char → Bool}
    (hf : isSpaceless f = true) :
    ∀ c ∈ u.head?, f c = false := by
  intro c hc
  have hSpace := h c hc
  have hMem : c ∈ [' ', '\t', '\n', '\r', '\x0c'] := by
    simpa [isSpace, or_assoc] using hSpace
  simpa using List.all_eq_true.mp hf c hMem

theorem IsBreak.head (h : IsBreak u) {f : Char → Bool}
    (hf : isSpaceless f = true) :
    (u.head?.map f).getD false = false := by
  cases u with
  | nil => rfl
  | cons c u => exact h.not hf c rfl

/-- Whether a text stops a scanner as `rest` does. -/
def StopsLike (w rest : List Char) : Prop := IsBreak w ∨ w.head? = rest.head?

theorem StopsLike.not {rest : List Char} (h : StopsLike w rest) {f : Char → Bool}
    (hf : isSpaceless f = true)
    (hRest : ∀ c ∈ rest.head?, f c = false) : ∀ c ∈ w.head?, f c = false := by
  rcases h with hBreak | hSame
  · exact hBreak.not hf
  · rwa [hSame]

/-- A text that goes on as another one does has a first character of the same class. -/
theorem StopsLike.head {rest t : List Char} (h : StopsLike w rest) (hText : t ++ rest = s)
    {f : Char → Bool} (hf : isSpaceless f = true)
    (hs : ∀ c ∈ s.head?, f c = false) : ∀ c ∈ (t ++ w).head?, f c = false := by
  subst hText
  cases t with
  | nil => exact h.not hf hs
  | cons e t => exact hs

/-! ## Scanners -/

theorem takeWhile_text (f : Char → Bool) (s : List Char) (hw : ∀ c ∈ w.head?, f c = false) :
    (s.takeWhile f ++ w).takeWhile f = s.takeWhile f ∧ (s.takeWhile f ++ w).dropWhile f = w := by
  have hAll : ∀ c ∈ s.takeWhile f, f c = true :=
    fun c hc => List.all_eq_true.mp List.all_takeWhile c hc
  have hStop : w.takeWhile f = [] ∧ w.dropWhile f = w := by
    cases w with
    | nil => exact ⟨rfl, rfl⟩
    | cons c w =>
      have hc : ¬ f c = true := Bool.eq_false_iff.mp (hw c rfl)
      exact ⟨List.takeWhile_cons_of_neg hc, List.dropWhile_cons_of_neg hc⟩
  rw [List.takeWhile_append_of_pos hAll, List.dropWhile_append_of_pos hAll, hStop.1, hStop.2,
    List.append_nil]
  exact ⟨rfl, rfl⟩

theorem head?_dropWhile (f : Char → Bool) (s : List Char) :
    ∀ c ∈ (s.dropWhile f).head?, f c = false := by
  intro c hc
  have hHead := List.head?_dropWhile_not f s
  rw [hc] at hHead
  exact hHead

theorem throughQuote_text {quote : Char} {r : List Char × List Char}
    (h : throughQuote quote s = some r) : throughQuote quote (r.1 ++ u) = some (r.1, u) := by
  have hPlain : ∀ {c : Char} {t : List Char}, (c = '\\' → t = [] → False) →
      (∀ d v, c = '\\' → t = d :: v → False) → c ≠ '\\' := by
    intro c t hOpen hEscape hEq
    cases t with
    | nil => exact hOpen hEq rfl
    | cons d v => exact hEscape d v hEq rfl
  fun_induction throughQuote quote s generalizing r with
  | case1 => cases h
  | case2 => cases h
  | case3 c s ih =>
    obtain ⟨y, hy, rfl⟩ := Option.map_eq_some_iff.mp h
    rw [List.cons_append, List.cons_append, throughQuote, ih hy]
    rfl
  | case4 => cases h
  | case5 s hOpen hEscape hLine =>
    cases h
    have hQuote := hPlain hOpen hEscape
    rw [List.cons_append, throughQuote, if_neg hLine, if_pos rfl]
    · rfl
    · exact fun hEq => absurd hEq hQuote
    · exact fun _ _ hEq => absurd hEq hQuote
  | case6 c s hOpen hEscape hLine hQuote ih =>
    obtain ⟨y, hy, rfl⟩ := Option.map_eq_some_iff.mp h
    have hChar := hPlain hOpen hEscape
    rw [List.cons_append, throughQuote, if_neg hLine, if_neg hQuote, ih hy]
    · rfl
    · exact fun hEq => absurd hEq hChar
    · exact fun _ _ hEq => absurd hEq hChar

/-- Whether no decimal number goes on with a character. -/
def stopsDecimal (floating : Bool) (c : Char) : Bool :=
  !(c.isDigit || (c == '.' && !floating) || c == 'e' || c == 'E')

theorem decimalRun_of_stop {floating : Bool} (hw : ∀ c ∈ w.head?, stopsDecimal floating c = true) :
    decimalRun floating w = ([], floating, w) := by
  match w with
  | [] => rfl
  | [c] =>
    have hStop := hw c rfl
    grind [decimalRun, stopsDecimal]
  | c :: d :: w =>
    have hStop := hw c rfl
    grind [decimalRun, stopsDecimal]

theorem decimalRun_digit {floating : Bool} {c : Char} (hc : c.isDigit = true) (s : List Char) :
    decimalRun floating (c :: s) =
      (c :: (decimalRun floating s).1, (decimalRun floating s).2.1, (decimalRun floating s).2.2) := by
  cases s <;> grind [decimalRun]

theorem decimalRun_point (s : List Char) :
    decimalRun false ('.' :: s) =
      ('.' :: (decimalRun true s).1, (decimalRun true s).2.1, (decimalRun true s).2.2) := by
  cases s <;> rfl

theorem decimalRun_sign {floating : Bool} {c d : Char} (hc : c = 'e' ∨ c = 'E')
    (hd : d = '+' ∨ d = '-') (s : List Char) :
    decimalRun floating (c :: d :: s) =
      (c :: d :: (decimalRun true s).1, (decimalRun true s).2.1, (decimalRun true s).2.2) := by
  rcases hc with rfl | rfl <;> rcases hd with rfl | rfl <;> cases floating <;> rfl

theorem decimalRun_exponent {floating : Bool} {c : Char} (hc : c = 'e' ∨ c = 'E') {s : List Char}
    (hs : ∀ d ∈ s.head?, d ≠ '+' ∧ d ≠ '-') :
    decimalRun floating (c :: s) =
      (c :: (decimalRun true s).1, (decimalRun true s).2.1, (decimalRun true s).2.2) := by
  cases s with
  | nil => rcases hc with rfl | rfl <;> cases floating <;> rfl
  | cons d s =>
    have hSign : (decide (d = '+') || decide (d = '-')) = false := by simp [hs d rfl]
    rw [decimalRun, hSign]
    rcases hc with rfl | rfl <;> cases floating <;> rfl

theorem decimalRun_stops (floating : Bool) (s : List Char) :
    ∀ c ∈ (decimalRun floating s).2.2.head?, stopsDecimal (decimalRun floating s).2.1 c = true := by
  fun_induction decimalRun floating s with
  | case1 => exact forall_head?_nil
  | case2 => exact forall_head?_nil
  | case3 => exact forall_head?_nil
  | case4 floating c hDigit hOther =>
    rintro _ ⟨⟩
    grind [stopsDecimal]
  | case5 => assumption
  | case6 => assumption
  | case7 => assumption
  | case8 => assumption
  | case9 floating c d s hDigit hPoint hExponent =>
    rintro _ ⟨⟩
    grind [stopsDecimal]

theorem decimalRun_text (floating : Bool) (s : List Char)
    (hw : StopsLike w (decimalRun floating s).2.2) :
    decimalRun floating ((decimalRun floating s).1 ++ w) =
      ((decimalRun floating s).1, (decimalRun floating s).2.1, w) := by
  have hStops : ∀ c ∈ w.head?, stopsDecimal (decimalRun floating s).2.1 c = true := by
    have hRun := decimalRun_stops floating s
    generalize (decimalRun floating s).2.1 = after at hRun
    have hNot := hw.not (f := fun c => !stopsDecimal after c) (by cases after <;> decide)
      (by simpa using hRun)
    simpa using hNot
  have hSpace : isSpaceless (fun c => c == '+' || c == '-') = true := by
    decide
  fun_induction decimalRun floating s with
  | case1 => exact decimalRun_of_stop hStops
  | case2 floating c hDigit => 
    rw [List.singleton_append, decimalRun_digit hDigit, decimalRun_of_stop hStops]
  | case3 floating c hDigit hOther =>
    rw [List.singleton_append]
    by_cases hPoint : c = '.'
    · subst hPoint
      obtain rfl : floating = false := by simpa using hOther
      rw [decimalRun_point, decimalRun_of_stop hStops]
    · have hExponent : c = 'e' ∨ c = 'E' := by simpa [hPoint] using hOther
      have hHead := hw.not hSpace forall_head?_nil
      rw [decimalRun_exponent hExponent (by simpa using hHead), decimalRun_of_stop hStops]
  | case4 floating c hDigit hOther => exact decimalRun_of_stop hStops
  | case5 floating c d s hDigit r ih =>
    rw [List.cons_append, decimalRun_digit hDigit, ih hw hStops]
  | case6 floating c d s hDigit hPoint r ih =>
    obtain ⟨rfl, rfl⟩ : c = '.' ∧ floating = false := by simpa using hPoint
    rw [List.cons_append, decimalRun_point, ih hw hStops]
  | case7 floating c d s hDigit hPoint hExponent hSign r ih => 
    rw [List.cons_append, List.cons_append, decimalRun_sign (by simpa using hExponent)
      (by simpa using hSign), ih hw hStops]
  | case8 floating c d s hDigit hPoint hExponent hSign r ih => 
    have hNext : d ≠ '+' ∧ d ≠ '-' := by simpa using hSign
    have hHead := hw.head (decimalRun_append true (d :: s)) hSpace (by simpa using hNext)
    rw [List.cons_append, decimalRun_exponent (by simpa using hExponent) (by simpa using hHead),
      ih hw hStops]
  | case9 floating c d s hDigit hPoint hExponent => exact decimalRun_of_stop hStops

theorem suffixRun_stops (kind : LiteralKind) (s : List Char) :
    ∀ c ∈ (suffixRun kind s).2.2.head?, suffixKind? (suffixRun kind s).2.1 c = none := by
  fun_induction suffixRun kind s with
  | case1 => exact forall_head?_nil
  | case2 => assumption
  | case3 kind c s hNone =>
    rintro _ ⟨⟩
    exact hNone

theorem suffixRun_text (kind : LiteralKind) (s : List Char)
    (hw : StopsLike w (suffixRun kind s).2.2) :
    suffixRun kind ((suffixRun kind s).1 ++ w) =
      ((suffixRun kind s).1, (suffixRun kind s).2.1, w) := by
  have hStops : suffixRun (suffixRun kind s).2.1 w = ([], (suffixRun kind s).2.1, w) := by
    have hRun := suffixRun_stops kind s
    generalize (suffixRun kind s).2.1 = after at hRun
    have hNot := hw.not (f := fun c => (suffixKind? after c).isSome) (by cases after <;> decide)
      (by simpa using hRun)
    cases w with
    | nil => rfl
    | cons c w =>
      have hNone : suffixKind? after c = none := by simpa using hNot
      rw [suffixRun, hNone]
  fun_induction suffixRun kind s with
  | case1 => exact hStops
  | case2 kind c s kind' hKind r ih =>
    rw [List.cons_append, suffixRun, hKind]
    dsimp only
    rw [ih hw hStops]
  | case3 => exact hStops

/-! ## Numbers -/

/-- Whether a character names a radix behind a zero. -/
def isRadix (c : Char) : Bool := c == 'x' || c == 'X' || c == 'b' || c == 'B'

/-- The kind of a number that a zero opens, unless a digit is too large for it. -/
def zeroKind? (digits : List Char) (floating : Bool) : Option LiteralKind :=
  if floating then some .floating
  else if digits.length = 1 then some .decInteger
  else if digits.any (· > '7') then none
  else some .octInteger

/-- A number with a zero in front that names no radix. -/
theorem unsuffixed_zero (hs : ∀ c ∈ s.head?, isRadix c = false) :
    unsuffixed p ('0' :: s) =
      let r := decimalRun false ('0' :: s)
      (zeroKind? r.1 r.2.1).elim (failAt .badOctal p) fun kind => .ok (r.1, kind, r.2.2) := by
  cases s with
  | nil => rfl
  | cons c s =>
    have hRadix := hs c rfl
    simp only [isRadix, Bool.or_eq_false_iff, beq_eq_false_iff_ne] at hRadix
    rw [unsuffixed, if_neg (by simp [hRadix]), if_neg (by simp [hRadix])]
    dsimp only
    unfold zeroKind?
    repeat' split
    all_goals rfl

theorem unsuffixed_other (hs : ∀ c ∈ s.head?, c ≠ '0') :
    unsuffixed p s =
      let r := decimalRun false s
      .ok (r.1, if r.2.1 then .floating else .decInteger, r.2.2) := by
  rw [unsuffixed]
  rintro c t rfl
  exact hs '0' rfl rfl

/-- The digits of a radix, which is named behind a zero. -/
theorem takeWhile_radix {f : Char → Bool} (t : List Char)
    (hf : isSpaceless f = true)
    (hw : StopsLike w (t.dropWhile f)) :
    (t.takeWhile f ++ w).takeWhile f = t.takeWhile f ∧ (t.takeWhile f ++ w).dropWhile f = w :=
  takeWhile_text f t (hw.not hf (head?_dropWhile f t))

/-- A number behind the name of its radix. -/
theorem unsuffixed_radix_text {r : List Char × LiteralKind × List Char} {c : Char} {t : List Char}
    (hRadix : isRadix c = true) (h : unsuffixed p ('0' :: c :: t) = .ok r)
    (hw : StopsLike w r.2.2) : unsuffixed q (r.1 ++ w) = .ok (r.1, r.2.1, w) := by
  rw [unsuffixed] at h
  dsimp only at h
  split at h
  · rename_i hHex
    split at h
    · cases h
    · rename_i hDigits
      cases h
      obtain ⟨hTake, hDrop⟩ := takeWhile_radix t (by decide) hw
      rw [List.cons_append, List.cons_append, unsuffixed, if_pos hHex]
      dsimp only
      rw [hTake, hDrop, if_neg hDigits]
  · rename_i hHex
    split at h
    · rename_i hBin
      split at h
      · cases h
      · rename_i hDigits
        cases h
        obtain ⟨hTake, hDrop⟩ := takeWhile_radix t (by decide) hw
        rw [List.cons_append, List.cons_append, unsuffixed, if_neg hHex, if_pos hBin]
        dsimp only
        rw [hTake, hDrop, if_neg hDigits]
    · rename_i hBin
      refine absurd hRadix ?_
      simp_all [isRadix]

theorem unsuffixed_text {r : List Char × LiteralKind × List Char} (h : unsuffixed p s = .ok r)
    (hw : StopsLike w r.2.2) : unsuffixed q (r.1 ++ w) = .ok (r.1, r.2.1, w) := by
  by_cases hZero : ∀ c ∈ s.head?, c ≠ '0'
  · rw [unsuffixed_other hZero] at h
    cases h
    have hHead := hw.head (decimalRun_append false s) (f := (· == '0')) (by decide)
      (by simpa using hZero)
    rw [unsuffixed_other (by simpa using hHead), decimalRun_text false s hw]
  · obtain ⟨t, rfl⟩ : ∃ t, s = '0' :: t := by
      cases s with
      | nil => exact absurd forall_head?_nil hZero
      | cons d t =>
        have hText : d = '0' := by simpa using hZero
        exact ⟨t, congrArg (· :: t) hText⟩
    by_cases hRadix : ∀ c ∈ t.head?, isRadix c = false
    · have hRun := decimalRun_text (w := w) false ('0' :: t)
      rw [unsuffixed_zero hRadix] at h
      rw [decimalRun_digit (by decide)] at h hRun
      cases hKind : zeroKind? ('0' :: (decimalRun false t).1) (decimalRun false t).2.1 with
      | none => simp only [hKind, Option.elim_none] at h; cases h
      | some kind =>
        simp only [hKind, Option.elim_some] at h
        cases h
        have hHead := hw.head (decimalRun_append false t) (by decide) hRadix
        rw [List.cons_append, unsuffixed_zero hHead, ← List.cons_append, hRun hw]
        simp only [hKind, Option.elim_some]
    · cases t with
      | nil => exact absurd forall_head?_nil hRadix
      | cons c t => exact unsuffixed_radix_text (by simpa using hRadix) h hw

/-- A lexeme in front of a text that it does not take in. -/
def inFrontOf (x : Lexeme) (u : List Char) : Lexeme := { x with dropped := [], rest := u }

theorem number_text (hu : IsBreak u) (h : number p s = .ok x) :
    number q (x.text ++ u) = .ok (x.inFrontOf u) := by
  unfold number at h ⊢
  obtain ⟨⟨digits, kind, rest⟩, hDigits, h⟩ := bind_eq_ok.mp h
  dsimp only at h
  split at h
  · cases h
  · cases h
    have hLike : StopsLike ((suffixRun kind rest).1 ++ u) rest := by
      have hSuffix := suffixRun_append kind rest
      cases hRun : (suffixRun kind rest).1 with
      | nil => exact .inl hu
      | cons c t =>
        rw [← hSuffix, hRun]
        exact .inr rfl
    rw [List.append_assoc, unsuffixed_text hDigits hLike]
    dsimp only [ok_bind_eq]
    rw [suffixRun_text kind rest (.inl hu)]
    dsimp only
    rw [if_neg (by rw [hu.head (by decide)]; decide)]
    rfl

/-! ## Lexemes -/

theorem quoted_text {encoding : List Char} (h : quoted p encoding s = .ok x) :
    ∃ t, x.text = encoding ++ t ∧ t.head? = s.head? ∧
      quoted q encoding (t ++ u) = .ok (x.inFrontOf u) := by
  cases s with
  | nil => cases h
  | cons quote body =>
    unfold quoted at h
    dsimp only at h
    split at h
    · rename_i text rest hBody
      cases h
      refine ⟨quote :: text, rfl, rfl, ?_⟩
      have hAgain : throughQuote quote (text ++ u) = some (text, u) := throughQuote_text hBody
      rw [List.cons_append, quoted, hAgain]
      rfl
    · cases h

theorem word_text {l : Lexicon} (hu : IsBreak u) (h : word l p s = .ok x) :
    word l q (x.text ++ u) = .ok (x.inFrontOf u) := by
  unfold word at h
  dsimp only at h
  split at h
  · rename_i hQuoted
    obtain ⟨t, hText, hHead, hAgain⟩ := quoted_text (q := q) (u := u) h
    rw [← hHead] at hQuoted
    cases t with
    | nil => simp at hQuoted
    | cons quote t =>
      have hQuote : isQuote quote = true := (Bool.and_eq_true_iff.mp hQuoted).2
      have hStop : ∀ c ∈ (quote :: t ++ u).head?, Text.isWord c = false := by
        rintro _ ⟨⟩
        rcases (by simpa [isQuote] using hQuote : quote = '"' ∨ quote = '\'') with rfl | rfl <;> rfl
      obtain ⟨hTake, hDrop⟩ := takeWhile_text Text.isWord s hStop
      rw [hText, List.append_assoc]
      unfold word
      dsimp only
      rw [hTake, hDrop]
      exact (if_pos hQuoted).trans hAgain
  · rename_i hPlain
    cases h
    obtain ⟨hTake, hDrop⟩ := takeWhile_text Text.isWord s (hu.not (by decide))
    rw [word]
    dsimp only
    rw [hTake, hDrop, hu.head (by decide), Bool.and_false]
    rfl

theorem operator_text (hu : IsBreak u) (c : Char) (s : List Char) :
    ∃ t, (operator c s).text = c :: t ∧ operator c (t ++ u) = (operator c s).inFrontOf u := by
  have hSingle : operator c u = { kind := .operator, text := [c], rest := u } := by
    cases u with
    | nil => rfl
    | cons d u =>
      have hDouble : isDoubleOperator c d = false :=
        hu.not (by unfold isSpaceless isDoubleOperator; split <;> rfl) d rfl
      rw [operator, hDouble]
      rfl
  cases s with
  | nil => exact ⟨[], rfl, hSingle⟩
  | cons d s =>
    by_cases hDouble : isDoubleOperator c d = true
    · rw [operator, if_pos hDouble]
      refine ⟨[d], rfl, ?_⟩
      rw [List.singleton_append, operator, if_pos hDouble]
      rfl
    · rw [operator, if_neg hDouble]
      exact ⟨[], rfl, hSingle⟩

theorem mark_text {c : Char} (hu : IsBreak u) (h : mark p c s = .ok x) :
    ∃ t, x.text = c :: t ∧ mark q c (t ++ u) = .ok (x.inFrontOf u) := by
  unfold mark at h
  split at h
  · rename_i hSeparator
    cases h
    exact ⟨[], rfl, if_pos hSeparator⟩
  · rename_i hSeparator
    split at h
    · rename_i hColon
      subst hColon
      split at h
      · cases h
        exact ⟨[':'], rfl, rfl⟩
      · cases h
        refine ⟨[], rfl, ?_⟩
        cases u with
        | nil => rfl
        | cons d u =>
          have hOther : d ≠ ':' := by simpa using hu.not (f := (· == ':')) (by decide)
          rw [List.nil_append, mark, if_neg hSeparator, if_pos rfl]
          · rfl
          · exact fun _ hText => hOther (List.cons.inj hText).1
    · rename_i hColon
      split at h
      · rename_i hOpen
        cases h
        obtain ⟨t, hText, hAgain⟩ := operator_text hu c s
        refine ⟨t, hText, ?_⟩
        exact (if_neg hSeparator).trans <| (if_neg hColon).trans <|
          (if_pos hOpen).trans (congrArg Except.ok hAgain)
      · rename_i hOpen
        split at h
        · rename_i hSingle
          cases h
          exact ⟨[], rfl, (if_neg hSeparator).trans <| (if_neg hColon).trans <|
            (if_neg hOpen).trans (if_pos hSingle)⟩
        · cases h

/-- A number that a point opens takes in the digit behind it. -/
theorem number_point {d : Char} (hd : d.isDigit = true) (h : number p ('.' :: d :: s) = .ok x) :
    ∃ t, x.text = '.' :: d :: t := by
  have hZero : ∀ c ∈ ('.' :: d :: s).head?, c ≠ '0' := by
    rintro _ ⟨⟩
    decide
  unfold number at h
  rw [unsuffixed_other hZero, decimalRun_point, decimalRun_digit hd] at h
  dsimp only [ok_bind_eq] at h
  generalize suffixRun _ (decimalRun true s).2.2 = suffix at h
  split at h
  · cases h
  · cases h
    exact ⟨_, rfl⟩

/-! ## The choice -/

section Choice

variable {l : Lexicon} {c : Char}

theorem read_quoted (hc : isQuote c = true) : read l p c s = quoted p [] (c :: s) := by
  have hSlash : c ≠ '/' := by
    rintro rfl
    cases hc
  unfold read
  dsimp only
  rw [if_neg (fun h => hSlash h.1), if_neg (fun h => hSlash h.1), if_pos hc]

/-- Whether a number starts with a character in front of a text. -/
def opensNumber (c : Char) (s : List Char) : Bool :=
  c.isDigit || (c == '.' && (s.head?.getD ' ').isDigit)

theorem read_number (h : opensNumber c s = true) : read l p c s = number p (c :: s) := by
  have hChar : c ≠ '/' ∧ isQuote c = false := by
    constructor
    · rintro rfl
      cases h
    · rw [Bool.eq_false_iff]
      intro hQuote
      rcases (by simpa [isQuote] using hQuote : c = '"' ∨ c = '\'') with rfl | rfl <;> cases h
  unfold read
  dsimp only
  rw [if_neg (fun h => hChar.1 h.1), if_neg (fun h => hChar.1 h.1), hChar.2, if_neg (by decide)]
  exact if_pos h

theorem not_isDigit_of_isWordStart (hc : Text.isWordStart c = true) : c.isDigit = false := by
  change (c.isUpper || c.isLower || c == '_') = true at hc
  rw [Bool.or_eq_true, Bool.or_eq_true, beq_iff_eq] at hc
  rcases hc with (hUpper | hLower) | rfl
  · change decide (c.val ≥ 65 ∧ c.val ≤ 90) = true at hUpper
    change (decide (c.val ≥ 48) && decide (c.val ≤ 57)) = false
    grind
  · change (decide (c.val ≥ 97) && decide (c.val ≤ 122)) = true at hLower
    change (decide (c.val ≥ 48) && decide (c.val ≤ 57)) = false
    grind
  · rfl

theorem read_word (hc : Text.isWordStart c = true) : read l p c s = word l p (c :: s) := by
  have hChar : c ≠ '/' ∧ isQuote c = false ∧ c ≠ '.' := by
    refine ⟨?_, ?_, ?_⟩
    · rintro rfl
      cases hc
    · rw [Bool.eq_false_iff]
      intro hQuote
      rcases (by simpa [isQuote] using hQuote : c = '"' ∨ c = '\'') with rfl | rfl <;> cases hc
    · rintro rfl
      cases hc
  have hNumber : opensNumber c s = false := by
    rw [opensNumber, not_isDigit_of_isWordStart hc, beq_false_of_ne hChar.2.2]
    rfl
  unfold read
  dsimp only
  rw [if_neg (fun h => hChar.1 h.1), if_neg (fun h => hChar.1 h.1), hChar.2.1, if_neg (by decide)]
  exact (if_neg (Bool.eq_false_iff.mp hNumber)).trans (if_pos hc)

theorem read_mark (hSlash : c = '/' → s.head?.getD ' ' ≠ '/' ∧ s.head?.getD ' ' ≠ '*')
    (hQuote : isQuote c = false) (hNumber : opensNumber c s = false)
    (hWord : Text.isWordStart c = false) : read l p c s = mark p c s := by
  unfold read
  dsimp only
  rw [if_neg (fun h => (hSlash h.1).1 h.2), if_neg (fun h => (hSlash h.1).2 h.2), hQuote,
    if_neg (by decide), hWord]
  exact if_neg (Bool.eq_false_iff.mp hNumber)

/-- The text of a lexeme is read as this lexeme again, alone or in front of white space. -/
theorem read_text (hu : IsBreak u) (h : read l p c s = .ok x) (hKind : x.kind ≠ .comment) :
    ∃ t, x.text = c :: t ∧ read l q c (t ++ u) = .ok (x.inFrontOf u) := by
  obtain ⟨hSplits, hSome⟩ := covers_read x h
  obtain ⟨e, t, hText⟩ := List.exists_cons_of_ne_nil hSome
  obtain rfl : e = c := by
    rw [Splits, hText] at hSplits
    exact (List.cons.inj hSplits).1
  by_cases hQuote : isQuote e = true
  · rw [read_quoted hQuote] at h
    obtain ⟨t', hText', -, hAgain⟩ := quoted_text (q := q) (u := u) h
    rw [hText] at hText'
    subst hText'
    exact ⟨t, hText, by rw [read_quoted hQuote]; exact hAgain⟩
  by_cases hNumber : opensNumber e s = true
  · rw [read_number hNumber] at h
    refine ⟨t, hText, ?_⟩
    have hAgain : opensNumber e (t ++ u) = true := by
      unfold opensNumber at hNumber ⊢
      by_cases hDigit : e.isDigit = true
      · rw [hDigit, Bool.true_or]
      · obtain ⟨rfl, hNext⟩ : e = '.' ∧ (s.head?.getD ' ').isDigit = true := by
          simpa [hDigit] using hNumber
        cases s with
        | nil => cases hNext
        | cons d s =>
          obtain ⟨t', hText'⟩ := number_point hNext h
          rw [hText] at hText'
          rw [(List.cons.inj hText').2]
          exact hNext
    rw [read_number hAgain, ← List.cons_append, ← hText]
    exact number_text hu h
  by_cases hWord : Text.isWordStart e = true
  · rw [read_word hWord] at h
    refine ⟨t, hText, ?_⟩
    rw [read_word hWord, ← List.cons_append, ← hText]
    exact word_text hu h
  · rw [Bool.not_eq_true] at hQuote hNumber hWord
    have hSlash : e = '/' → s.head?.getD ' ' ≠ '/' ∧ s.head?.getD ' ' ≠ '*' := by
      rintro rfl
      refine ⟨fun hNext => hKind ?_, fun hNext => hKind ?_⟩
      · unfold read at h
        dsimp only at h
        rw [if_pos ⟨rfl, hNext⟩] at h
        cases h
        rfl
      · unfold read at h
        dsimp only at h
        rw [hNext, if_neg (by decide), if_pos ⟨rfl, rfl⟩] at h
        exact kind_blockComment x h
    rw [read_mark hSlash hQuote hNumber hWord] at h
    obtain ⟨t', hText', hAgain⟩ := mark_text (q := q) hu h
    obtain rfl : t' = t := by
      rw [hText] at hText'
      exact (List.cons.inj hText').2.symm
    -- an operator that another character could join to something else stands alone
    have hAlone : e = '/' ∨ e = '.' → t' = [] := by
      rintro (rfl | rfl) <;>
      · cases h
        exact (List.cons.inj hText).2.symm
    have hBreak : ∀ {f : Char → Bool}, f ' ' = false → isSpaceless f = true →
        f (u.head?.getD ' ') = false := by
      intro f hBlank hf
      cases u with
      | nil => exact hBlank
      | cons d u => exact hu.not hf d rfl
    refine ⟨t', hText, ?_⟩
    rw [read_mark _ hQuote _ hWord]
    · exact hAgain
    · rintro rfl
      rw [hAlone (.inl rfl), List.nil_append]
      exact ⟨beq_eq_false_iff_ne.mp (hBreak (f := (· == '/')) rfl rfl),
        beq_eq_false_iff_ne.mp (hBreak (f := (· == '*')) rfl rfl)⟩
    · unfold opensNumber at hNumber ⊢
      rw [(Bool.or_eq_false_iff.mp hNumber).1, Bool.false_or]
      by_cases hPoint : e = '.'
      · rw [hAlone (.inr hPoint), List.nil_append, hBreak (f := Char.isDigit) rfl rfl, Bool.and_false]
      · rw [beq_false_of_ne hPoint, Bool.false_and]

theorem not_isSpace_of_read (h : read l p c s = .ok x) : isSpace c = false := by
  rw [Bool.eq_false_iff]
  intro hSpace
  have hMem : ((((c = ' ' ∨ c = '\t') ∨ c = '\n') ∨ c = '\r') ∨ c = '\x0c') := by
    simpa [isSpace] using hSpace
  rcases hMem with (((rfl | rfl) | rfl) | rfl) | rfl <;> cases h

end Choice

end Lexeme

/-! ## Tokens -/

namespace Token

variable {l : Lexicon} {source : SourceId} {t : Token}

/-- Whether a token has the kind and the text of a lexeme that is no comment. -/
def IsLexeme (l : Lexicon) (t : Token) : Prop :=
  ∃ p c s x, Lexeme.read l p c s = .ok x ∧ x.kind ≠ .comment ∧ t.kind = x.kind ∧
    t.text.toList = x.text

/-- A lexeme in front of a break is the next token, and the cursor comes to the break. -/
theorem next_of_isLexeme (source : SourceId) (h : t.IsLexeme l) {c : Cursor} {sp u : List Char}
    (hSpace : ∀ e ∈ sp, Lexeme.isSpace e = true) (hu : Lexeme.IsBreak u)
    (hc : c.rest = sp ++ (t.text.toList ++ u)) :
    ∃ t' c', next l false source c = .ok (t', c') ∧ t'.unplaced = t.unplaced ∧ c'.rest = u ∧
      (t'.kind ≠ .comment ∧ t'.isFinish = false) := by
  obtain ⟨p, d, s, x, hRead, hComment, hKind, hText⟩ := h
  have hStart := Lexeme.not_isSpace_of_read hRead
  obtain ⟨v, hCons, hAgain⟩ := Lexeme.read_text (q := c.skipSpace.position) hu hRead hComment
  rw [hText, hCons] at hc
  have hSkip : c.skipSpace = c.moveOver sp (d :: (v ++ u)) :=
    Cursor.skipSpace_of_rest hc hSpace hStart
  have hNext : next l false source c = _ :=
    next_of_read (by rw [hSkip]; rfl) (fun hDirective => absurd hDirective.1 Bool.false_ne_true)
      hAgain
  refine ⟨_, _, hNext, unplaced_eq_iff.mpr ⟨hKind.symm, ?_⟩, rfl, hComment,
    beq_false_of_ne (Lexeme.kind_read x hRead).1⟩
  change String.ofList x.text = t.text
  rw [← hText, String.ofList_toList]

/-- The tokens of a text that the first token covers. -/
theorem tokenize_single {s : List Char} {c : Cursor} (hs : s ≠ [])
    (h : next l false source (Cursor.ofText s) = .ok (t, c)) (hEnd : c.rest = [])
    (hFinish : t.kind ≠ .finish) (hComment : t.kind ≠ .comment) :
    tokenize l false source s = .ok [t] := by
  have hLast : next l false source c = .ok (finish c.skipSpace.position source, c.skipSpace) := by
    have hRest : c.skipSpace.rest = [] := congrArg (List.dropWhile Lexeme.isSpace) hEnd
    unfold next
    dsimp only
    rw [hRest]
  obtain ⟨n, hn⟩ := Nat.exists_eq_succ_of_ne_zero (mt List.length_eq_zero_iff.mp hs)
  have hNotFinish : t.isFinish = false := beq_false_of_ne hFinish
  have hAll : ofText l false source s = ([t, finish c.skipSpace.position source], none) := by
    rw [ofText, hn, readAll, h]
    dsimp only
    rw [hNotFinish, readAll, hLast]
    rfl
  have hKept : decide (t.kind ≠ .comment ∧ t.kind ≠ .finish) = true :=
    decide_eq_true ⟨hComment, hFinish⟩
  unfold tokenize
  rw [hAll]
  dsimp only
  rw [List.filter_cons, hKept]
  rfl

/-- The text of a token is read as this token again. -/
theorem tokenize_text (source : SourceId) (h : t.IsLexeme l) :
    ∃ t', tokenize l false source t.text.toList = .ok [t'] ∧ t'.kind = t.kind ∧
      t'.text = t.text := by
  obtain ⟨t', c, hNext, hSame, hRest, hComment, hFinish⟩ :=
    next_of_isLexeme source h (c := Cursor.ofText t.text.toList) (List.forall_mem_nil _)
      Lexeme.isBreak_nil (List.append_nil _).symm
  have hSome : t.text.toList ≠ [] := by
    intro hNone
    have hShorter : c.rest.length < t.text.toList.length := (covers_next _ hNext).shorter hFinish
    rw [hNone] at hShorter
    exact absurd hShorter (Nat.not_lt_zero _)
  obtain ⟨hKind, hText⟩ := unplaced_eq_iff.mp hSame
  exact ⟨t', tokenize_single hSome hNext hRest (beq_eq_false_iff_ne.mp hFinish) hComment, hKind, hText⟩

end Token

end IdlReader
