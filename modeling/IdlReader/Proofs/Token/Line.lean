import IdlReader.Proofs.Token.Alike
import IdlReader.Proofs.Token.Lexeme

/-!
# Lexemes of a line

No lexeme of a line depends on what follows behind the line: it is the same where the line stands
in front of a further one, at whatever position.

* `Lexeme.read_append`: the lexeme at the front of a line.
* `Text.logicalLine_append_of_not_continued`: a line that no further one continues.
-/

namespace IdlReader

namespace Text

/-- Whether a text is empty or starts with the end of a line. -/
def IsLineEnd (u : List Char) : Prop := u = [] ∨ ∃ v, u = '\n' :: v

variable {s u : List Char} {p : Char → Bool}

theorem takeWhile_append_lineEnd (hu : IsLineEnd u) (hp : p '\n' = false) :
    (s ++ u).takeWhile p = s.takeWhile p := by
  induction s with
  | nil =>
    rcases hu with rfl | ⟨v, rfl⟩
    · rfl
    · rw [List.nil_append, List.takeWhile_cons_of_neg (by simp [hp]), List.takeWhile_nil]
  | cons c s ih => rw [List.cons_append, List.takeWhile_cons, List.takeWhile_cons, ih]

theorem dropWhile_append_lineEnd (hu : IsLineEnd u) (hp : p '\n' = false) :
    (s ++ u).dropWhile p = s.dropWhile p ++ u := by
  induction s with
  | nil =>
    rcases hu with rfl | ⟨v, rfl⟩
    · rfl
    · rw [List.nil_append, List.dropWhile_cons_of_neg (by simp [hp]), List.dropWhile_nil,
        List.nil_append]
  | cons c s ih =>
    rw [List.cons_append, List.dropWhile_cons, List.dropWhile_cons, ih]
    split <;> rfl

/-- The first character of a line, if it is one of a class without the end of a line. -/
theorem head?_append_lineEnd (hu : IsLineEnd u) (hp : p '\n' = false) :
    ((s ++ u).head?.map p).getD false = (s.head?.map p).getD false := by
  cases s with
  | nil =>
    rcases hu with rfl | ⟨v, rfl⟩
    · rfl
    · exact hp
  | cons c s => rfl

/-- Whether a character may stand between the start of a line and the number sign of a directive. -/
def isIndent (c : Char) : Bool := c == ' ' || c == '\t' || c == '\r'

/-! ## Ends of lines -/

/-- A line without the carriage return that belongs to its end. -/
def dropReturn : List Char → List Char
  | [] => []
  | [c] => if c = '\r' then [] else [c]
  | c :: s => c :: dropReturn s

theorem dropReturn_cons_cons (c d : Char) (s : List Char) :
    dropReturn (c :: d :: s) = c :: dropReturn (d :: s) := rfl

/-- Whether a line ends in a backslash, so that the next one continues it. -/
def IsContinued (line : List Char) : Prop := (dropReturn line).getLast? = some '\\'

instance (line : List Char) : Decidable (IsContinued line) := inferInstanceAs (Decidable (_ = _))

theorem not_isContinued_of_cons {c : Char} (h : ¬ IsContinued (c :: s)) : ¬ IsContinued s := by
  intro hContinued
  refine h ?_
  cases s with
  | nil => cases hContinued
  | cons d s =>
    rw [IsContinued] at hContinued ⊢
    rw [dropReturn_cons_cons]
    cases hDrop : dropReturn (d :: s) with
    | nil =>
      rw [hDrop] at hContinued
      cases hContinued
    | cons e t =>
      rw [hDrop] at hContinued
      rw [List.getLast?_cons_cons, hContinued]

/-- The logical line that starts with a character which is not a part of the end of a line. -/
theorem logicalLine_cons {c : Char} (hLine : c ≠ '\n')
    (hReturn : c = '\r' → ∃ d t, s = d :: t ∧ d ≠ '\n')
    (hSlash : c = '\\' → ∃ d t, s = d :: t ∧ d ≠ '\n' ∧ (d = '\r' → ∃ e v, t = e :: v ∧ e ≠ '\n')) :
    logicalLine (c :: s) =
      (c :: (logicalLine s).1, c :: (logicalLine s).2.1, (logicalLine s).2.2) := by
  rw [logicalLine]
  all_goals grind

/-- The logical line that a line makes up which no further one continues. -/
theorem logicalLine_append_of_not_continued (hu : IsLineEnd u) (hLine : '\n' ∉ s)
    (h : ¬ IsContinued s) : logicalLine (s ++ u) = (dropReturn s, s ++ u.take 1, u.drop 1) := by
  induction s with
  | nil => rcases hu with rfl | ⟨v, rfl⟩ <;> rfl
  | cons c s ih =>
    have hRest := ih (fun hMem => hLine (List.mem_cons_of_mem c hMem)) (not_isContinued_of_cons h)
    have hChar : c ≠ '\n' := fun hEq => hLine (hEq ▸ List.mem_cons_self)
    cases s with
    | nil =>
      by_cases hReturn : c = '\r'
      · subst hReturn
        rcases hu with rfl | ⟨v, rfl⟩ <;> rfl
      · have hDrop : dropReturn [c] = [c] := if_neg hReturn
        have hSlash : c ≠ '\\' := by
          rintro rfl
          exact h rfl
        rw [List.cons_append, logicalLine_cons hChar (fun hEq => absurd hEq hReturn)
          (fun hEq => absurd hEq hSlash), hRest, hDrop]
        rfl
    | cons d s =>
      have hNext : d ≠ '\n' := fun hEq => hLine (hEq ▸ List.mem_cons_of_mem c List.mem_cons_self)
      rw [List.cons_append, logicalLine_cons hChar, hRest, dropReturn_cons_cons]
      · rfl
      · exact fun _ => ⟨d, s ++ u, rfl, hNext⟩
      · rintro rfl
        refine ⟨d, s ++ u, rfl, hNext, ?_⟩
        rintro rfl
        cases s with
        | nil => exact absurd rfl h
        | cons e s => exact ⟨e, s ++ u, rfl, fun hEq => hLine (by simp [hEq])⟩

end Text

namespace Lexeme

open Text (IsLineEnd)

variable {p q : Position} {s u : List Char} {x : Lexeme}

/-- A lexeme in front of a further text. -/
def before (x : Lexeme) (u : List Char) : Lexeme := { x with rest := x.rest ++ u }

/-! ## Scanners -/

theorem throughTerminator_before {r : List Char × List Char} (h : throughTerminator s = some r) :
    throughTerminator (s ++ u) = some (r.1, r.2 ++ u) := by
  fun_induction throughTerminator s generalizing r with
  | case1 => cases h
  | case2 s =>
    cases h
    rfl
  | case3 c s hOpen ih =>
    obtain ⟨y, hy, rfl⟩ := Option.map_eq_some_iff.mp h
    rw [List.cons_append, throughTerminator, ih hy]
    · rfl
    · rintro t rfl hText
      cases s with
      | nil => cases hy
      | cons d s => exact hOpen s rfl (congrArg (· :: s) (List.cons.inj hText).1)

theorem throughQuote_before {quote : Char} {r : List Char × List Char}
    (h : throughQuote quote s = some r) : throughQuote quote (s ++ u) = some (r.1, r.2 ++ u) := by
  have hPlain : ∀ {c : Char} {t : List Char}, (c = '\\' → t = [] → False) →
      (∀ d v, c = '\\' → t = d :: v → False) → c ≠ '\\' := by
    intro c t hOpen hEscape hEq
    cases t with
    | nil => exact hOpen hEq rfl
    | cons d v => exact hEscape d v hEq rfl
  fun_induction throughQuote quote s generalizing r with
  | case1 => cases h
  | case2 => cases h
  | case3 c s ih =>
    obtain ⟨y, hy, rfl⟩ := Option.map_eq_some_iff.mp h
    rw [List.cons_append, List.cons_append, throughQuote, ih hy]
    rfl
  | case4 => cases h
  | case5 s hOpen hEscape hLine =>
    cases h
    have hQuote := hPlain hOpen hEscape
    rw [List.cons_append, throughQuote, if_neg hLine, if_pos rfl]
    · exact fun hEq => absurd hEq hQuote
    · exact fun _ _ hEq => absurd hEq hQuote
  | case6 c s hOpen hEscape hLine hQuote ih =>
    obtain ⟨y, hy, rfl⟩ := Option.map_eq_some_iff.mp h
    have hChar := hPlain hOpen hEscape
    rw [List.cons_append, throughQuote, if_neg hLine, if_neg hQuote, ih hy]
    · rfl
    · exact fun hEq => absurd hEq hChar
    · exact fun _ _ hEq => absurd hEq hChar

theorem decimalRun_before (hu : IsLineEnd u) (floating : Bool) (s : List Char) :
    decimalRun floating (s ++ u) =
      ((decimalRun floating s).1, (decimalRun floating s).2.1, (decimalRun floating s).2.2 ++ u) := by
  have hEnd : ∀ floating, decimalRun floating u = ([], floating, u) := by
    intro floating
    rcases hu with rfl | ⟨v, rfl⟩
    · rfl
    · cases v <;> rfl
  fun_induction decimalRun floating s with
  | case1 floating => exact hEnd floating
  -- the last character looks at the end of the line
  | case2 | case3 | case4 => rcases hu with rfl | ⟨v, rfl⟩ <;> grind [decimalRun]
  | _ => grind [decimalRun]

theorem suffixRun_before (hu : IsLineEnd u) (kind : LiteralKind) (s : List Char) :
    suffixRun kind (s ++ u) =
      ((suffixRun kind s).1, (suffixRun kind s).2.1, (suffixRun kind s).2.2 ++ u) := by
  fun_induction suffixRun kind s with
  | case1 kind =>
    rcases hu with rfl | ⟨v, rfl⟩
    · rfl
    · have hNone : suffixKind? kind '\n' = none := by cases kind <;> rfl
      rw [List.nil_append, suffixRun, hNone]
  | case2 kind c s kind' hKind r ih =>
    rw [List.cons_append, suffixRun, hKind]
    simp only [ih]
    rfl
  | case3 kind c s hKind => rw [List.cons_append, suffixRun, hKind]

theorem unsuffixed_before (hu : IsLineEnd u) {r : List Char × LiteralKind × List Char}
    (h : unsuffixed p s = .ok r) : unsuffixed q (s ++ u) = .ok (r.1, r.2.1, r.2.2 ++ u) := by
  unfold unsuffixed at h
  split at h
  · rename_i x s
    have hRun := decimalRun_before hu false ('0' :: x :: s)
    rw [List.cons_append, List.cons_append] at hRun
    rw [List.cons_append, List.cons_append, unsuffixed]
    dsimp only at h ⊢
    rw [Text.takeWhile_append_lineEnd hu (by decide), Text.takeWhile_append_lineEnd hu (by decide),
      Text.dropWhile_append_lineEnd hu (by decide), Text.dropWhile_append_lineEnd hu (by decide),
      hRun]
    split at h
    · rename_i hHex
      rw [if_pos hHex]
      split at h
      · cases h
      · rename_i hDigits
        cases h
        rw [if_neg hDigits]
    · rename_i hHex
      rw [if_neg hHex]
      split at h
      · rename_i hBin
        rw [if_pos hBin]
        split at h
        · cases h
        · rename_i hDigits
          cases h
          rw [if_neg hDigits]
      · rename_i hBin
        rw [if_neg hBin]
        split at h
        · rename_i hFloating
          cases h
          rw [if_pos hFloating]
        · rename_i hFloating
          rw [if_neg hFloating]
          split at h
          · rename_i hSingle
            cases h
            rw [if_pos hSingle]
          · rename_i hSingle
            rw [if_neg hSingle]
            split at h
            · cases h
            · rename_i hDigits
              cases h
              rw [if_neg hDigits]
  · rename_i hPlain
    cases h
    have hRun := decimalRun_before hu false s
    -- a lone zero is the only number of this kind that a further character could continue
    by_cases hZero : s = ['0']
    · subst hZero
      rcases hu with rfl | ⟨v, rfl⟩
      · rfl
      · rw [List.cons_append, List.nil_append, unsuffixed]
        dsimp only
        rw [if_neg (by decide), if_neg (by decide), ← List.singleton_append, hRun]
        rfl
    · rw [unsuffixed]
      · rw [hRun]
      · intro c t hText
        cases s with
        | nil =>
          rcases hu with rfl | ⟨v, rfl⟩
          · cases hText
          · cases hText
        | cons d s =>
          obtain ⟨rfl, hRest⟩ := List.cons.inj hText
          cases s with
          | nil => exact hZero rfl
          | cons e s => exact hPlain e s rfl

/-! ## Lexemes -/

theorem lineComment_before (hu : IsLineEnd u) (s : List Char) :
    lineComment (s ++ u) = (lineComment s).before u := by
  unfold lineComment before
  rw [Text.takeWhile_append_lineEnd hu (by rfl), Text.dropWhile_append_lineEnd hu (by rfl)]

theorem blockComment_before (h : blockComment p s = .ok x) (hs : 2 ≤ s.length) :
    blockComment q (s ++ u) = .ok (x.before u) := by
  unfold blockComment at h ⊢
  rw [List.drop_append_of_le_length hs, List.take_append_of_le_length hs]
  split at h
  · rename_i body rest hBody
    cases h
    rw [throughTerminator_before hBody]
    rfl
  · cases h

theorem quoted_before {encoding : List Char} (h : quoted p encoding s = .ok x) :
    quoted q encoding (s ++ u) = .ok (x.before u) := by
  cases s with
  | nil => cases h
  | cons quote body =>
    unfold quoted at h ⊢
    dsimp only [List.cons_append] at h ⊢
    split at h
    · rename_i text rest hBody
      cases h
      rw [throughQuote_before hBody]
      rfl
    · cases h

theorem word_before {l : Lexicon} (hu : IsLineEnd u) (h : word l p s = .ok x) :
    word l q (s ++ u) = .ok (x.before u) := by
  unfold word at h ⊢
  dsimp only at h ⊢
  rw [Text.takeWhile_append_lineEnd hu (by decide), Text.dropWhile_append_lineEnd hu (by decide),
    Text.head?_append_lineEnd hu (by decide)]
  split at h
  · rename_i hQuoted
    rw [if_pos hQuoted]
    exact quoted_before h
  · rename_i hPlain
    cases h
    rw [if_neg hPlain]
    rfl

theorem number_before (hu : IsLineEnd u) (h : number p s = .ok x) :
    number q (s ++ u) = .ok (x.before u) := by
  unfold number at h ⊢
  obtain ⟨⟨digits, kind, rest⟩, hDigits, h⟩ := bind_eq_ok.mp h
  rw [unsuffixed_before hu hDigits]
  dsimp only [ok_bind_eq] at h ⊢
  rw [suffixRun_before hu, Text.head?_append_lineEnd hu (by decide)]
  split at h
  · cases h
  · rename_i hSuffix
    cases h
    rw [if_neg hSuffix]
    rfl

theorem operator_before (hu : IsLineEnd u) (c : Char) (s : List Char) :
    operator c (s ++ u) = (operator c s).before u := by
  cases s with
  | nil =>
    rcases hu with rfl | ⟨v, rfl⟩
    · rfl
    · have hSingle : isDoubleOperator c '\n' = false := by
        unfold isDoubleOperator
        split <;> rfl
      rw [List.nil_append, operator, operator, hSingle]
      rfl
  | cons d s =>
    rw [List.cons_append, operator, operator]
    split <;> rfl

theorem mark_before (hu : IsLineEnd u) {c : Char} (h : mark p c s = .ok x) :
    mark q c (s ++ u) = .ok (x.before u) := by
  unfold mark at h ⊢
  split at h
  · rename_i hSeparator
    cases h
    rw [if_pos hSeparator]
    rfl
  · rename_i hSeparator
    rw [if_neg hSeparator]
    split at h
    · rename_i hColon
      rw [if_pos hColon]
      cases s with
      | nil =>
        cases h
        rcases hu with rfl | ⟨v, rfl⟩ <;> rfl
      | cons d s =>
        split at h
        · rename_i hText
          cases hText
          cases h
          rfl
        · rename_i hOther
          cases h
          rw [List.cons_append]
          split
          · rename_i hText
            exact absurd (congrArg (· :: s) (List.cons.inj hText).1) (hOther s)
          · rfl
    · rename_i hColon
      rw [if_neg hColon]
      split at h
      · rename_i hOpen
        cases h
        rw [if_pos hOpen, operator_before hu]
      · rename_i hOpen
        rw [if_neg hOpen]
        split at h
        · rename_i hSingle
          cases h
          rw [if_pos hSingle]
          rfl
        · cases h

/-- The lexeme at the front of a line is the same in front of a further text. -/
theorem read_append {l : Lexicon} {c : Char} (hu : IsLineEnd u) (h : read l p c s = .ok x) :
    read l q c (s ++ u) = .ok (x.before u) := by
  have hNext : ∀ {d : Char}, d ≠ '\n' → d ≠ ' ' →
      ((s ++ u).head?.getD ' ' = d ↔ s.head?.getD ' ' = d) := by
    intro d hLine hSpace
    cases s with
    | nil =>
      rcases hu with rfl | ⟨v, rfl⟩
      · rfl
      · exact iff_of_false hLine.symm hSpace.symm
    | cons e s => rfl
  have hDigit : ((s ++ u).head?.getD ' ').isDigit = (s.head?.getD ' ').isDigit := by
    cases s with
    | nil => rcases hu with rfl | ⟨v, rfl⟩ <;> rfl
    | cons e s => rfl
  unfold read at h ⊢
  dsimp only at h ⊢
  simp only [hNext (show '/' ≠ '\n' by decide) (by decide),
    hNext (show '*' ≠ '\n' by decide) (by decide), hDigit, ← List.cons_append]
  split at h
  · rename_i hComment
    cases h
    rw [if_pos hComment, lineComment_before hu]
  · rename_i hComment
    rw [if_neg hComment]
    split at h
    · rename_i hBlock
      rw [if_pos hBlock]
      refine blockComment_before h ?_
      cases s with
      | nil => cases hBlock.2
      | cons d s => simp
    · rename_i hBlock
      rw [if_neg hBlock]
      split at h
      · rename_i hQuote
        rw [if_pos hQuote]
        exact quoted_before h
      · rename_i hQuote
        rw [if_neg hQuote]
        split at h
        · rename_i hNumber
          rw [if_pos hNumber]
          exact number_before hu h
        · rename_i hNumber
          rw [if_neg hNumber]
          split at h
          · rename_i hWord
            rw [if_pos hWord]
            exact word_before hu h
          · rename_i hWord
            rw [if_neg hWord]
            exact mark_before hu h

end Lexeme

/-! ## Cursors -/

namespace Cursor

variable {c : Cursor}

/-- Whether a cursor stands behind `before` on its line. -/
structure IsBehind (c : Cursor) (before : List Char) : Prop where
  within : c.within = 0
  past : (c.past.takeWhile (· ≠ '\n')).reverse = before

theorem moveOver_moveOver (c : Cursor) (s t x y : List Char) :
    (c.moveOver s x).moveOver t y = c.moveOver (s ++ t) y := by
  unfold moveOver characterStart
  rw [List.reverse_append, List.append_assoc, Position.advance_append]
  rfl

theorem moveOver_nil (h : c.within = 0) : c.moveOver [] c.rest = c := by
  obtain ⟨past, within, rest, position⟩ := c
  cases h
  rfl

theorem IsBehind.moveOver {before s : List Char} (h : c.IsBehind before) (hs : '\n' ∉ s)
    (rest : List Char) : (c.moveOver s rest).IsBehind (before ++ s) := by
  refine ⟨rfl, ?_⟩
  have hLine : ∀ d ∈ s.reverse, (decide (d ≠ '\n')) = true := by
    intro d hd
    refine decide_eq_true ?_
    rintro rfl
    exact hs (List.mem_reverse.mp hd)
  rw [Cursor.moveOver, List.takeWhile_append_of_pos hLine, List.reverse_append, h.past,
    List.reverse_reverse]

/-- Behind the end of a line a cursor stands at the start of one. -/
theorem isBehind_moveOver_line (c : Cursor) (s rest : List Char) :
    (c.moveOver (s ++ ['\n']) rest).IsBehind [] := by
  refine ⟨rfl, ?_⟩
  rw [Cursor.moveOver, List.reverse_append]
  rfl

theorem IsBehind.atLineStart {before : List Char} (h : c.IsBehind before) :
    c.atLineStart = before.all Text.isIndent := by
  rw [Cursor.atLineStart, h.within, ← h.past, List.all_reverse]
  rfl

theorem skipSpace_of_rest {sp rest : List Char} (h : c.rest = sp ++ rest)
    (hSpace : ∀ d ∈ sp, Lexeme.isSpace d = true)
    (hRest : (rest.head?.map Lexeme.isSpace).getD false = false) :
    c.skipSpace = c.moveOver sp rest := by
  have hTake : rest.takeWhile Lexeme.isSpace = [] ∧ rest.dropWhile Lexeme.isSpace = rest := by
    cases rest with
    | nil => exact ⟨rfl, rfl⟩
    | cons d rest =>
      have hChar : ¬ Lexeme.isSpace d = true := Bool.eq_false_iff.mp hRest
      exact ⟨List.takeWhile_cons_of_neg hChar, List.dropWhile_cons_of_neg hChar⟩
  rw [skipSpace, h, List.takeWhile_append_of_pos hSpace, List.dropWhile_append_of_pos hSpace,
    hTake.1, hTake.2, List.append_nil]

/-- Moving over white space first makes no difference. -/
theorem skipSpace_moveOver {sp rest : List Char} (h : c.rest = sp ++ rest)
    (hSpace : ∀ d ∈ sp, Lexeme.isSpace d = true) :
    (c.moveOver sp rest).skipSpace = c.skipSpace := by
  rw [skipSpace, moveOver_moveOver, skipSpace, h, List.takeWhile_append_of_pos hSpace,
    List.dropWhile_append_of_pos hSpace]
  rfl

end Cursor

/-! ## Tokens -/

namespace Token

variable {l : Lexicon} {source : SourceId} {c d : Cursor} {u : List Char}

/-- The white space that is skipped in front of the next token. -/
theorem exists_space (c : Cursor) : ∃ sp, (∀ e ∈ sp, Lexeme.isSpace e = true) ∧
    c.rest = sp ++ c.skipSpace.rest ∧
    (c.skipSpace.rest.head?.map Lexeme.isSpace).getD false = false := by
  refine ⟨c.rest.takeWhile Lexeme.isSpace, fun e he => ?_, ?_, ?_⟩
  · exact List.all_eq_true.mp List.all_takeWhile e he
  · exact List.takeWhile_append_dropWhile.symm
  · have hHead := List.head?_dropWhile_not Lexeme.isSpace c.rest
    change ((c.rest.dropWhile Lexeme.isSpace).head?.map Lexeme.isSpace).getD false = false
    cases hText : c.rest.dropWhile Lexeme.isSpace with
    | nil => rfl
    | cons e s =>
      rw [hText] at hHead
      exact hHead

/-- The token that a lexeme behind the white space makes up. -/
theorem next_of_read {directives : Bool} {e : Char} {s : List Char} {x : Lexeme}
    (hText : c.skipSpace.rest = e :: s)
    (hPlain : ¬ (directives = true ∧ e = '#' ∧ c.skipSpace.atLineStart = true))
    (hRead : Lexeme.read l c.skipSpace.position e s = .ok x) :
    next l directives source c = .ok
      ({ kind := x.kind, text := String.ofList x.text,
         span := ⟨c.skipSpace.position,
          (c.skipSpace.moveOver (x.text ++ x.dropped) x.rest).position⟩, source },
        c.skipSpace.moveOver (x.text ++ x.dropped) x.rest) := by
  unfold next
  dsimp only
  rw [hText]
  dsimp only
  rw [if_neg hPlain, hRead]
  rfl

/-- The first token of what is left of a line is the same in front of a further text, unless a
directive starts there. -/
theorem next_append (source' : SourceId) (hu : Text.IsLineEnd u) (hRest : d.rest = c.rest ++ u)
    (hPlain : ∀ sp rest, c.rest = sp ++ '#' :: rest →
      (d.moveOver sp ('#' :: (rest ++ u))).atLineStart = false)
    {t : Token} {c' : Cursor} (h : next l false source c = .ok (t, c'))
    (hFinish : t.isFinish = false) :
    ∃ t' read, next l true source' d = .ok (t', d.moveOver read (c'.rest ++ u)) ∧ t'.Alike t ∧
      c.rest = read ++ c'.rest := by
  obtain ⟨sp, hSpace, hText, hHead⟩ := exists_space c
  unfold next at h
  dsimp only at h
  split at h
  · cases h
    cases hFinish
  · rename_i e s hSkipped
    rw [hSkipped] at hText hHead
    rw [if_neg (by simp)] at h
    obtain ⟨x, hRead, h⟩ := bind_eq_ok.mp h
    cases h
    have hSkip : d.skipSpace = d.moveOver sp (e :: (s ++ u)) :=
      Cursor.skipSpace_of_rest (by rw [hRest, hText, List.append_assoc]; rfl) hSpace hHead
    have hSplits : x.text ++ x.dropped ++ x.rest = e :: s := (Lexeme.covers_read x hRead).1
    have hDirective : ¬ (true = true ∧ e = '#' ∧ d.skipSpace.atLineStart = true) := by
      rintro ⟨-, rfl, hStart⟩
      rw [hSkip, hPlain _ _ hText] at hStart
      cases hStart
    have hNext : next l true source' d = _ :=
      next_of_read (by rw [hSkip]; rfl) hDirective (Lexeme.read_append hu hRead)
    rw [hSkip, Cursor.moveOver_moveOver] at hNext
    refine ⟨_, _, hNext, ⟨rfl, rfl, rfl⟩, ?_⟩
    rw [hText, ← hSplits]
    exact (List.append_assoc sp _ _).symm

/-- Where number signs open no directives there are none. -/
theorem kind_next : Ok (next l false source c) fun r => r.1.kind ≠ .directive := by
  unfold next
  dsimp only
  split
  · exact ok_ok nofun
  · rw [if_neg (by simp)]
    exact ok_bind (fun x hx => (Lexeme.kind_read x hx).2) fun x hx => ok_ok hx

/-- Only white space is left of a line that holds no further token. -/
theorem isSpace_of_isFinish {t : Token} {c' : Cursor} (h : next l false source c = .ok (t, c'))
    (hFinish : t.isFinish = true) : ∀ e ∈ c.rest, Lexeme.isSpace e = true := by
  obtain ⟨sp, hSpace, hText, -⟩ := exists_space c
  unfold next at h
  dsimp only at h
  split at h
  · rename_i hNone
    rwa [hText, hNone, List.append_nil]
  · rw [if_neg (by simp)] at h
    obtain ⟨x, hRead, h⟩ := bind_eq_ok.mp h
    cases h
    exact absurd (beq_iff_eq.mp hFinish) (Lexeme.kind_read x hRead).1

end Token

end IdlReader
