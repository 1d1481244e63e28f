import IdlReader.Proofs.Source.Words
import IdlReader.Proofs.Token.Spelling

/-!
# Texts without white space

The first token of a text is known from the characters that it covers and from the one behind them,
which must not go on with it. So texts are scanned one token after the other, whether or not there is
white space between them (`Lexeme.Scans`).

* `Lexeme.opens_word`, `Lexeme.opens_decimal`, `Lexeme.opens_operator`: words, numbers and marks.
* `tokenize_of_scans`: the tokens of a text that was scanned to its end.
-/

namespace IdlReader

/-- The kind and the text of a token. -/
def Token.spelling (t : Token) : TokenKind × String := (t.kind, t.text)

namespace Lexeme

variable {l : Lexicon} {s u v : List Char} {ws ws' : List (TokenKind × String)} {kind : TokenKind}

/-! ## The first token -/

/-- Whether a text is the first token in front of another text, wherever it stands. -/
structure Opens (l : Lexicon) (s : List Char) (kind : TokenKind) (u : List Char) : Prop where
  notComment : kind ≠ .comment
  exists_cons : ∃ c t, s = c :: t ∧ c ≠ '#' ∧
    ∀ p, read l p c (t ++ u) = .ok { kind, text := s, rest := u }

/-- A word, in front of what is no word. -/
theorem opens_word {w : String} (hName : IsName w)
    (hQuote : encodings.contains w = true → ∀ c ∈ u.head?, isQuote c = false)
    (hKind : wordKind l w ≠ .comment) (hu : ∀ c ∈ u.head?, Text.isWord c = false) :
    Opens l w.toList (wordKind l w) u := by
  obtain ⟨c, t, hText⟩ : ∃ c t, w.toList = c :: t := by
    cases h : w.toList with
    | nil =>
      rw [IsName, h] at hName
      cases hName
    | cons c t => exact ⟨c, t, rfl⟩
  rw [IsName, hText, Text.isName, Bool.and_eq_true, List.all_eq_true] at hName
  obtain ⟨hStart, hWord⟩ := hName
  refine ⟨hKind, c, t, hText, ?_, fun p => ?_⟩
  · rintro rfl
    cases hStart
  · have hAll : ∀ d ∈ c :: t, Text.isWord d = true := by
      intro d hd
      rcases List.mem_cons.mp hd with rfl | hd
      · exact Text.isWord_of_isWordStart hStart
      · exact hWord d hd
    have hText' : (c :: t).takeWhile Text.isWord = c :: t := by
      rw [← List.append_nil (c :: t), List.takeWhile_append_of_pos hAll]
      rfl
    obtain ⟨hTake, hDrop⟩ := takeWhile_text Text.isWord (c :: t) hu
    rw [hText'] at hTake hDrop
    have hOf : String.ofList (c :: t) = w := by rw [← hText, String.ofList_toList]
    have hPlain : (encodings.contains w && (u.head?.map isQuote).getD false) = false := by
      cases hEncoding : encodings.contains w with
      | false => rfl
      | true =>
        cases u with
        | nil => rfl
        | cons d u => exact hQuote hEncoding d rfl
    rw [read_word hStart, ← List.cons_append]
    unfold word
    dsimp only
    rw [hTake, hDrop, hOf, hPlain, hText]
    rfl

/-- Digits are one decimal run. -/
theorem decimalRun_digits {ds : List Char} (hDigits : ∀ c ∈ ds, c.isDigit = true)
    (hu : ∀ c ∈ u.head?, stopsDecimal false c = true) :
    decimalRun false (ds ++ u) = (ds, false, u) := by
  induction ds with
  | nil => exact decimalRun_of_stop hu
  | cons c ds ih =>
    rw [List.cons_append, decimalRun_digit (hDigits c List.mem_cons_self),
      ih fun d hd => hDigits d (List.mem_cons_of_mem c hd)]

/-- A number that is not zero is written without a zero in front. -/
theorem head?_toDigits {n : Nat} (hn : 0 < n) : ∀ c ∈ (Nat.toDigits 10 n).head?, c ≠ '0' := by
  induction n using Nat.strongRecOn with
  | ind n ih =>
    by_cases hSmall : n < 10
    · rw [Nat.toDigits_of_lt_base hSmall]
      rintro _ ⟨⟩
      have hDigit : ∀ m : Nat, m < 10 → 0 < m → m.digitChar ≠ '0' := by decide
      exact hDigit n hSmall hn
    · rw [Nat.toDigits_of_base_le (by decide) (Nat.le_of_not_lt hSmall)]
      have hHead := ih (n / 10) (by omega) (by omega)
      cases hDigits : Nat.toDigits 10 (n / 10) with
      | nil => exact absurd hDigits Nat.toDigits_ne_nil
      | cons d ds =>
        rw [hDigits] at hHead
        exact hHead

theorem isWord_of_suffixKind? {kind : LiteralKind} {c : Char}
    (h : (suffixKind? kind c).isSome = true) : Text.isWord c = true := by
  unfold suffixKind? at h
  split at h
  · rename_i hLetter
    simp only [Bool.or_eq_true, decide_eq_true_eq] at hLetter
    rcases hLetter with ((rfl | rfl) | rfl) | rfl <;> rfl
  · split at h
    · split at h
      · rename_i hLetter
        simp only [Bool.or_eq_true, decide_eq_true_eq] at hLetter
        rcases hLetter with rfl | rfl <;> rfl
      · split at h
        · rename_i hLetter
          simp only [Bool.or_eq_true, decide_eq_true_eq] at hLetter
          rcases hLetter with rfl | rfl <;> rfl
        · cases h
    · cases h

/-- The digits of a number, in front of what is no word and no point. -/
theorem opens_decimal (n : Nat) (hu : ∀ c ∈ u.head?, Text.isWord c = false ∧ c ≠ '.') :
    Opens l (toString n).toList (.literal .decInteger) u := by
  -- No letter that numbers go on with stands behind the digits.
  have hNone : ∀ {f : Char → Bool}, (∀ c, f c = true → Text.isWord c = true ∨ c = '.') →
      ∀ c ∈ u.head?, f c = false := by
    intro f hf c hc
    refine Bool.eq_false_iff.mpr fun hTrue => ?_
    rcases hf c hTrue with hWord | hPoint
    · rw [(hu c hc).1] at hWord
      cases hWord
    · exact (hu c hc).2 hPoint
  have hStop : ∀ c ∈ u.head?, stopsDecimal false c = true := by
    have hGoes := hNone (f := fun c => !stopsDecimal false c) fun c hc => ?_
    · exact fun c hc => by simpa using hGoes c hc
    · simp only [stopsDecimal, Bool.not_not, Bool.not_false, Bool.and_true, Bool.or_eq_true,
        beq_iff_eq] at hc
      rcases hc with ((hDigit | rfl) | rfl) | rfl
      · left
        rw [Text.isWord, Char.isAlphanum, hDigit, Bool.or_true, Bool.true_or]
      · exact Or.inr rfl
      · exact Or.inl rfl
      · exact Or.inl rfl
  have hDigits : ∀ c ∈ Nat.toDigits 10 n, c.isDigit = true := fun c hc =>
    Nat.isDigit_of_mem_toDigits (by decide) (by decide) hc
  have hRun := decimalRun_digits hDigits hStop
  rw [Nat.toString_eq_ofList_toDigits, String.toList_ofList]
  have hUnsuffixed : ∀ p, unsuffixed p (Nat.toDigits 10 n ++ u) =
      .ok (Nat.toDigits 10 n, .decInteger, u) := by
    intro p
    rcases Nat.eq_zero_or_pos n with rfl | hPos
    · rw [Nat.toDigits_zero] at hRun ⊢
      have hRadix : ∀ c ∈ u.head?, isRadix c = false := by
        refine hNone fun c hc => Or.inl ?_
        simp only [isRadix, Bool.or_eq_true, beq_iff_eq] at hc
        rcases hc with ((rfl | rfl) | rfl) | rfl <;> rfl
      rw [List.singleton_append, unsuffixed_zero hRadix, ← List.singleton_append, hRun]
      rfl
    · have hHead := head?_toDigits hPos
      rw [unsuffixed_other, hRun]
      · rfl
      · intro c hc
        refine hHead c ?_
        cases hText : Nat.toDigits 10 n with
        | nil => exact absurd hText Nat.toDigits_ne_nil
        | cons d ds =>
          rw [hText] at hc
          exact hc
  have hSuffix : suffixRun .decInteger u = ([], .decInteger, u) := by
    cases u with
    | nil => rfl
    | cons c u =>
      have hSuffix : (suffixKind? .decInteger c).isSome = false := by
        refine hNone (f := fun c => (suffixKind? .decInteger c).isSome) (fun c hc => Or.inl ?_) c rfl
        exact isWord_of_suffixKind? hc
      rw [suffixRun, Option.not_isSome_iff_eq_none.mp (Bool.eq_false_iff.mp hSuffix)]
  cases hText : Nat.toDigits 10 n with
  | nil => exact absurd hText Nat.toDigits_ne_nil
  | cons c t =>
    rw [hText] at hDigits hUnsuffixed
    have hDigit := hDigits c List.mem_cons_self
    refine ⟨by decide, c, t, rfl, ?_, fun p => ?_⟩
    · rintro rfl
      cases hDigit
    · rw [read_number (by rw [opensNumber, hDigit, Bool.true_or]), ← List.cons_append, number,
        hUnsuffixed]
      dsimp only [ok_bind_eq]
      rw [hSuffix]
      dsimp only
      have hEnd : (u.head?.map Text.isWord).getD false = false := by
        cases u with
        | nil => rfl
        | cons d u => exact (hu d rfl).1
      rw [hEnd, if_neg (by decide), List.append_nil]
      rfl

theorem opens_comma : Opens l [','] .separator u :=
  ⟨nofun, ',', [], rfl, by decide, fun p => read_mark (c := ',') (fun h => by cases h) rfl rfl rfl⟩

/-- A bracket, in front of what does not make up an operator with it. -/
theorem opens_operator {c : Char} (hc : c = '<' ∨ c = '>')
    (hu : ∀ d ∈ u.head?, isDoubleOperator c d = false) : Opens l [c] .operator u := by
  refine ⟨nofun, c, [], rfl, ?_, fun p => ?_⟩
  · rintro rfl
    rcases hc with hc | hc <;> cases hc
  · have hMark : read l p c u = .ok (operator c u) := by
      rcases hc with rfl | rfl
      · exact read_mark (c := '<') (fun h => by cases h) rfl rfl rfl
      · exact read_mark (c := '>') (fun h => by cases h) rfl rfl rfl
    rw [List.nil_append, hMark]
    cases u with
    | nil => rfl
    | cons d u =>
      rw [operator, hu d rfl]
      rfl

theorem opens_double : Opens l ['>', '>'] .operator u :=
  ⟨nofun, '>', ['>'], rfl, by decide, fun p => read_mark (c := '>') (fun h => by cases h) rfl rfl rfl⟩

/-! ## Texts -/

/-- Whether a text is scanned as tokens of certain kinds and texts in front of what is left. -/
inductive Scans (l : Lexicon) : List Char → List (TokenKind × String) → List Char → Prop where
  | done {u : List Char} : Scans l u [] u
  | space {c : Char} {s u : List Char} {ws : List (TokenKind × String)}
      (hSpace : isSpace c = true) (hRest : Scans l s ws u) : Scans l (c :: s) ws u
  | token {kind : TokenKind} {s rest u : List Char} {ws : List (TokenKind × String)}
      (hOpens : Opens l s kind rest) (hRest : Scans l rest ws u) :
      Scans l (s ++ rest) ((kind, String.ofList s) :: ws) u

namespace Scans

theorem append (h : Scans l s ws u) (h' : Scans l u ws' v) : Scans l s (ws ++ ws') v := by
  induction h with
  | done => exact h'
  | space hSpace _ ih => exact .space hSpace (ih h')
  | token hOpens _ ih => exact .token hOpens (ih h')

theorem single (h : Opens l s kind u) : Scans l (s ++ u) [(kind, String.ofList s)] u :=
  .token h .done

theorem spaces {sp : List Char} (h : ∀ c ∈ sp, isSpace c = true) : Scans l (sp ++ u) [] u := by
  induction sp with
  | nil => exact .done
  | cons c sp ih =>
    exact .space (h c List.mem_cons_self) (ih fun d hd => h d (List.mem_cons_of_mem c hd))

end Scans

end Lexeme

namespace Token

open Lexeme

variable {l : Lexicon} {t : Token} {kind : TokenKind} {text : String}

theorem is_of_spelling (h : t.spelling = (kind, text))
    (hKind : kind ∈ [.identifier, .keyword, .separator, .operator]) (name : String) :
    t.is name = (text == name) := by
  cases h
  have hPlain : t.isPlain = true := by
    unfold isPlain
    simp only [List.mem_cons, List.not_mem_nil, or_false] at hKind
    rcases hKind with hKind | hKind | hKind | hKind <;> rw [hKind]
  rw [is, hPlain, Bool.true_and]

theorem isFinish_of_spelling (h : t.spelling = (kind, text)) (hKind : kind ≠ .finish) :
    t.isFinish = false := by
  cases h
  exact beq_false_of_ne hKind

/-- The tokens from a cursor on whose text is scanned to its end. -/
theorem readAll_of_scans (directives : Bool) (source : SourceId) {s : List Char} {ws : List (TokenKind × String)} (h : Scans l s ws [])
    {c : Cursor} (hc : c.rest = s) {n : Nat} (hn : s.length < n) :
    ∃ ts t, readAll l directives source n c = (ts ++ [t], none) ∧ ts.map spelling = ws ∧
      (∀ u ∈ ts, u.kind ≠ .comment ∧ u.isFinish = false) ∧ t.isFinish = true := by
  obtain ⟨n, rfl⟩ : ∃ m, n = m + 1 := ⟨n - 1, by omega⟩
  generalize hEnd : ([] : List Char) = u at h
  induction h generalizing c n with
  | done =>
    subst hEnd
    have hRest : c.skipSpace.rest = [] := congrArg (List.dropWhile Lexeme.isSpace) hc
    refine ⟨[], finish c.skipSpace.position source, ?_, rfl, List.forall_mem_nil _, rfl⟩
    rw [readAll, next]
    dsimp only
    rw [hRest]
    rfl
  | @space d s u ws hSpace hRest ih =>
    have hSame : next l directives source (c.moveOver [d] s) = next l directives source c := by
      unfold next
      rw [Cursor.skipSpace_moveOver hc (by simpa using hSpace)]
    have hAll : readAll l directives source (n + 1) (c.moveOver [d] s) =
        readAll l directives source (n + 1) c := by
      rw [readAll, readAll, hSame]
    rw [← hAll]
    exact ih rfl n (by simp at hn; omega) hEnd
  | @token kind s rest u ws hOpens hRest ih =>
    obtain ⟨hComment, d, t, rfl, hSharp, hRead⟩ := hOpens
    have hSkip : c.skipSpace = c.moveOver [] (d :: (t ++ rest)) :=
      Cursor.skipSpace_of_rest hc (List.forall_mem_nil _)
        (not_isSpace_of_read (hRead c.skipSpace.position))
    obtain ⟨p, hNext⟩ : ∃ p, next l directives source c =
        .ok ({ kind, text := String.ofList (d :: t), span := p, source },
          c.skipSpace.moveOver (d :: t ++ []) rest) :=
      ⟨_, next_of_read (by rw [hSkip]; rfl) (fun hDirective => hSharp hDirective.2.1)
        (hRead c.skipSpace.position)⟩
    have hFinish : (kind == .finish) = false :=
      beq_false_of_ne (kind_read _ (hRead c.skipSpace.position)).1
    obtain ⟨n, rfl⟩ : ∃ m, n = m + 1 := ⟨n - 1, by simp at hn; omega⟩
    obtain ⟨ts, t', hTokens, hSpelling, hKinds, hLast⟩ :=
      ih (c := c.skipSpace.moveOver (d :: t ++ []) rest) rfl n (by simp at hn; omega) hEnd
    refine ⟨{ kind, text := String.ofList (d :: t), span := p, source } :: ts, t', ?_,
      congrArg _ hSpelling, List.forall_mem_cons.mpr ⟨⟨hComment, hFinish⟩, hKinds⟩, hLast⟩
    rw [readAll, hNext]
    dsimp only
    rw [isFinish, hFinish, hTokens]
    rfl

end Token

/-- The tokens of a text that was split without a fault. -/
theorem tokenize_of_readAll {l : Lexicon} {directives : Bool} {source : SourceId} {s : List Char}
    {ts : List Token} {t : Token}
    (hAll : Token.ofText l directives source s = (ts ++ [t], none))
    (hKinds : ∀ u ∈ ts, u.kind ≠ .comment ∧ u.isFinish = false) (hLast : t.isFinish = true) :
    tokenize l directives source s = .ok ts := by
  have hKept : ts.filter (fun u => decide (u.kind ≠ .comment ∧ u.kind ≠ .finish)) = ts := by
    refine List.filter_eq_self.mpr fun u hu => decide_eq_true ⟨(hKinds u hu).1, ?_⟩
    exact beq_eq_false_iff_ne.mp (hKinds u hu).2
  have hDropped : decide (t.kind ≠ .comment ∧ t.kind ≠ .finish) = false :=
    decide_eq_false fun hNot => hNot.2 (beq_iff_eq.mp hLast)
  unfold tokenize
  rw [hAll]
  dsimp only
  rw [List.filter_append, hKept, List.filter_cons, hDropped]
  simp

/-- The tokens of a text that is scanned to its end. -/
theorem tokenize_of_scans {l : Lexicon} {s : List Char} {ws : List (TokenKind × String)}
    (h : Lexeme.Scans l s ws []) (directives : Bool) (source : SourceId) :
    ∃ ts, tokenize l directives source s = .ok ts ∧ ts.map Token.spelling = ws := by
  obtain ⟨ts, t, hAll, hSpelling, hKinds, hLast⟩ := Token.readAll_of_scans directives source h
    (c := Cursor.ofText s) rfl (Nat.lt_succ_self _)
  exact ⟨ts, tokenize_of_readAll hAll hKinds hLast, hSpelling⟩

end IdlReader
