import IdlReader.Proofs.Source.Words

/-!
# What a lexeme covers

The text of a lexeme, what is dropped behind it and what is left make up the text it was read from,
and its text is not empty. So every token but the last covers a character.

* `Lexeme.covers_read`: the lexeme at the front of a text.
* `Token.covers_next`: what a cursor moves over.
-/

namespace IdlReader

namespace Lexeme

variable {p : Position} {s : List Char}

/-! ## Scanners -/

theorem dropTrailing_append (q : Char → Bool) (s : List Char) :
    Text.dropTrailing q s ++ (s.reverse.takeWhile q).reverse = s := by
  rw [Text.dropTrailing, ← List.reverse_append, List.takeWhile_append_dropWhile,
    List.reverse_reverse]

theorem append_drop_dropTrailing (q : Char → Bool) (s : List Char) :
    Text.dropTrailing q s ++ s.drop (Text.dropTrailing q s).length = s := by
  have hDrop : s.drop (Text.dropTrailing q s).length = (s.reverse.takeWhile q).reverse :=
    calc s.drop (Text.dropTrailing q s).length
        = (Text.dropTrailing q s ++ (s.reverse.takeWhile q).reverse).drop
            (Text.dropTrailing q s).length := by rw [dropTrailing_append]
      _ = (s.reverse.takeWhile q).reverse := List.drop_left
  rw [hDrop, dropTrailing_append]

/-- A text of which nothing is left consists of what is dropped. -/
theorem all_of_dropTrailing {q : Char → Bool} (h : Text.dropTrailing q s = []) :
    ∀ c ∈ s, q c = true := by
  intro c hc
  rw [← dropTrailing_append q s, h, List.nil_append, List.mem_reverse] at hc
  exact List.all_eq_true.mp List.all_takeWhile c hc

theorem throughTerminator_append {r : List Char × List Char} (h : throughTerminator s = some r) :
    r.1 ++ r.2 = s := by
  fun_induction throughTerminator s generalizing r with
  | case1 => cases h
  | case2 s =>
    cases h
    rfl
  | case3 c s _ ih =>
    obtain ⟨x, hx, rfl⟩ := Option.map_eq_some_iff.mp h
    exact congrArg (c :: ·) (ih hx)

theorem throughQuote_append {quote : Char} {r : List Char × List Char}
    (h : throughQuote quote s = some r) : r.1 ++ r.2 = s := by
  fun_induction throughQuote quote s generalizing r with
  | case1 => cases h
  | case2 => cases h
  | case3 c s ih =>
    obtain ⟨x, hx, rfl⟩ := Option.map_eq_some_iff.mp h
    exact congrArg (fun t => '\\' :: c :: t) (ih hx)
  | case4 => cases h
  | case5 =>
    cases h
    rfl
  | case6 c s _ _ _ _ ih =>
    obtain ⟨x, hx, rfl⟩ := Option.map_eq_some_iff.mp h
    exact congrArg (c :: ·) (ih hx)

theorem decimalRun_append (floating : Bool) (s : List Char) :
    (decimalRun floating s).1 ++ (decimalRun floating s).2.2 = s := by
  fun_induction decimalRun floating s <;> simp_all +zetaDelta

theorem suffixRun_append (kind : LiteralKind) (s : List Char) :
    (suffixRun kind s).1 ++ (suffixRun kind s).2.2 = s := by
  fun_induction suffixRun kind s <;> simp_all +zetaDelta

/-- A decimal number that starts with a digit or a point covers it. -/
theorem decimalRun_ne_nil {c : Char} (h : c.isDigit = true ∨ c = '.') (s : List Char) :
    (decimalRun false (c :: s)).1 ≠ [] := by
  rcases h with h | rfl
  · cases s <;> simp [decimalRun, h]
  · cases s <;> simp [decimalRun]

theorem splits_unsuffixed {c : Char} (hStart : c.isDigit = true ∨ c = '.') :
    Ok (unsuffixed p (c :: s)) fun r => r.1 ++ r.2.2 = c :: s ∧ r.1 ≠ [] := by
  have hRun := decimalRun_append false (c :: s)
  have hSome := decimalRun_ne_nil hStart s
  unfold unsuffixed
  split
  · rename_i x s' hText
    cases hText
    dsimp only
    split
    · split
      · exact ok_error _ _
      · exact ok_ok ⟨by simp [List.takeWhile_append_dropWhile], by simp⟩
    · split
      · split
        · exact ok_error _ _
        · exact ok_ok ⟨by simp [List.takeWhile_append_dropWhile], by simp⟩
      · split
        · exact ok_ok ⟨hRun, hSome⟩
        · split
          · exact ok_ok ⟨hRun, hSome⟩
          · split
            · exact ok_error _ _
            · exact ok_ok ⟨hRun, hSome⟩
  · exact ok_ok ⟨hRun, hSome⟩

/-! ## Lexemes -/

/-- Whether a lexeme is a part of `s` in front of the rest, and is there at all. -/
def Covers (x : Lexeme) (s : List Char) : Prop := x.Splits s ∧ x.text ≠ []

theorem covers_lineComment (s : List Char) : (lineComment ('/' :: '/' :: s)).Covers ('/' :: '/' :: s) := by
  generalize hText : '/' :: '/' :: s = t
  have hSplits : (lineComment t).Splits t := by
    unfold lineComment Splits
    dsimp only
    rw [append_drop_dropTrailing]
    exact List.takeWhile_append_dropWhile
  refine ⟨hSplits, ?_⟩
  subst hText
  unfold lineComment
  intro hNil
  dsimp only at hNil
  exact absurd (all_of_dropTrailing hNil '/' (by simp)) (by decide)

theorem covers_blockComment {t : List Char} (hText : 2 ≤ t.length) :
    Ok (blockComment p t) fun x => x.Covers t := by
  unfold blockComment
  split
  · rename_i body rest hRest
    refine ok_ok ⟨?_, ?_⟩
    · unfold Splits
      dsimp only
      have hBody := throughTerminator_append hRest
      rw [List.append_nil, List.append_assoc, hBody, List.take_append_drop]
    · intro hNil
      rw [List.append_eq_nil_iff, List.take_eq_nil_iff] at hNil
      rcases hNil.1 with h | h
      · cases h
      · rw [h] at hText
        cases hText
  · exact ok_error _ _

theorem covers_quoted {encoding : List Char} :
    Ok (quoted p encoding s) fun x => x.Covers (encoding ++ s) := by
  unfold quoted
  split
  · exact ok_error _ _
  · rename_i quote body
    split
    · rename_i text rest hQuote
      refine ok_ok ⟨?_, by simp⟩
      have hBody := throughQuote_append hQuote
      simp [Splits, ← hBody]
    · exact ok_error _ _

theorem covers_word {l : Lexicon} {c : Char} (h : Text.isWordStart c = true) :
    Ok (word l p (c :: s)) fun x => x.Covers (c :: s) := by
  have hParts := List.takeWhile_append_dropWhile (p := Text.isWord) (l := c :: s)
  unfold word
  dsimp only
  split
  · have hQuoted := @covers_quoted p ((c :: s).dropWhile Text.isWord) ((c :: s).takeWhile Text.isWord)
    rwa [hParts] at hQuoted
  · refine ok_ok ⟨?_, ?_⟩
    · unfold Splits
      rw [List.append_nil]
      exact hParts
    · rw [List.takeWhile_cons_of_pos (Text.isWord_of_isWordStart h)]
      exact List.cons_ne_nil _ _

theorem covers_number {c : Char} (hStart : c.isDigit = true ∨ c = '.') :
    Ok (number p (c :: s)) fun x => x.Covers (c :: s) := by
  unfold number
  refine ok_bind (splits_unsuffixed hStart) ?_
  rintro ⟨digits, kind, rest⟩ ⟨hDigits, hSome⟩
  dsimp only at hDigits hSome ⊢
  split
  · exact ok_error _ _
  · refine ok_ok ⟨?_, ?_⟩
    · have hSuffix := suffixRun_append kind rest
      unfold Splits
      dsimp only
      rw [List.append_nil, List.append_assoc, hSuffix, hDigits]
    · intro hNil
      exact hSome (List.append_eq_nil_iff.mp hNil).1

theorem covers_mark {c : Char} : Ok (mark p c s) fun x => x.Covers (c :: s) := by
  have hOperator : (operator c s).Covers (c :: s) := by
    unfold operator
    split
    · exact ⟨rfl, List.cons_ne_nil _ _⟩
    · split
      · exact ⟨rfl, List.cons_ne_nil _ _⟩
      · exact ⟨rfl, List.cons_ne_nil _ _⟩
  unfold mark
  split
  · exact ok_ok ⟨rfl, List.cons_ne_nil _ _⟩
  · split
    · rename_i hColon
      subst hColon
      split <;> exact ok_ok ⟨rfl, List.cons_ne_nil _ _⟩
    · split
      · exact ok_ok hOperator
      · split
        · exact ok_ok ⟨rfl, List.cons_ne_nil _ _⟩
        · exact ok_error _ _

/-- The lexeme at the front of a text is a part of it. -/
theorem covers_read {l : Lexicon} {c : Char} : Ok (read l p c s) fun x => x.Covers (c :: s) := by
  unfold read
  dsimp only
  split
  · rename_i h
    obtain ⟨rfl, hNext⟩ := h
    cases s with
    | nil => cases hNext
    | cons d s =>
      cases hNext
      exact ok_ok (covers_lineComment s)
  · split
    · rename_i h
      obtain ⟨rfl, hNext⟩ := h
      cases s with
      | nil => cases hNext
      | cons d s => exact covers_blockComment (by simp)
    · split
      · exact covers_quoted
      · split
        · rename_i hDigit
          refine covers_number ?_
          rw [Bool.or_eq_true, Bool.and_eq_true, beq_iff_eq] at hDigit
          exact hDigit.imp id And.left
        · split
          · rename_i hStart
            exact covers_word hStart
          · exact covers_mark

/-- A lexeme is neither a directive nor the end. -/
theorem kind_read {l : Lexicon} {c : Char} :
    Ok (read l p c s) fun x => x.kind ≠ .finish ∧ x.kind ≠ .directive := by
  have hLiteral : ∀ x : Lexeme, (∃ k, x.kind = .literal k) → x.kind ≠ .finish ∧ x.kind ≠ .directive := by
    rintro x ⟨k, hKind⟩
    rw [hKind]
    exact ⟨nofun, nofun⟩
  have hWord : ∀ name, wordKind l name ≠ .finish ∧ wordKind l name ≠ .directive := by
    intro name
    unfold wordKind
    repeat' split
    all_goals exact ⟨nofun, nofun⟩
  unfold read
  dsimp only
  split
  · exact ok_ok ⟨nofun, nofun⟩
  · split
    · exact kind_blockComment.mono fun x hKind => by simp [hKind]
    · split
      · exact kind_quoted.mono hLiteral
      · split
        · exact kind_number.mono hLiteral
        · split
          · unfold word
            dsimp only
            split
            · exact kind_quoted.mono hLiteral
            · exact ok_ok (hWord _)
          · refine kind_mark.mono ?_
            rintro x (hKind | hKind) <;> simp [hKind]

end Lexeme

/-! ## Tokens -/

namespace Token

variable {l : Lexicon} {directives : Bool} {source : SourceId} {c : Cursor}

/-- A directive covers the number sign and the rest of the line. -/
theorem suffix_directive {s : List Char} (h : c.rest = '#' :: s) :
    (directive source c).2.rest <:+ s := by
  have hLine : (directive source c).2.rest = (Text.logicalLine s).2.2 := by
    unfold directive Cursor.readLogicalLine Cursor.moveOver
    rw [h]
    rfl
  rw [hLine]
  exact ⟨_, Text.logicalLine_append s⟩

/-- A token covers a character, or it is the end. -/
structure Covers (c : Cursor) (r : Token × Cursor) : Prop where
  suffix : r.2.rest <:+ c.rest
  finish : r.1.isFinish = true → r.2.rest = []
  shorter : r.1.isFinish = false → r.2.rest.length < c.rest.length

theorem covers_next : Ok (next l directives source c) (Covers c) := by
  have hSpace : c.skipSpace.rest <:+ c.rest := List.dropWhile_suffix _
  unfold next
  dsimp only
  split
  · rename_i hEnd
    exact ok_ok ⟨hSpace, fun _ => hEnd, nofun⟩
  · rename_i d s hText
    rw [hText] at hSpace
    have hShorter : ∀ {rest : List Char}, rest <:+ s → rest <:+ c.rest ∧ rest.length < c.rest.length :=
      fun h => ⟨(h.trans (List.suffix_cons d s)).trans hSpace,
        Nat.lt_of_lt_of_le (Nat.lt_succ_of_le h.length_le) hSpace.length_le⟩
    split
    · rename_i hDirective
      obtain ⟨-, rfl, -⟩ := hDirective
      obtain ⟨hSuffix, hLess⟩ := hShorter (suffix_directive hText)
      exact ok_ok ⟨hSuffix, nofun, fun _ => hLess⟩
    · refine ok_bind (P := fun x => x.Covers (d :: s) ∧ x.kind ≠ .finish)
        (fun x hx => ⟨Lexeme.covers_read x hx, (Lexeme.kind_read x hx).1⟩) ?_
      rintro x ⟨⟨hSplits, hSome⟩, hKind⟩
      obtain ⟨e, text, hx⟩ := List.exists_cons_of_ne_nil hSome
      have hRest : x.rest <:+ s := by
        rw [Lexeme.Splits, hx] at hSplits
        exact ⟨text ++ x.dropped, (List.cons.inj hSplits).2⟩
      obtain ⟨hSuffix, hLess⟩ := hShorter hRest
      refine ok_ok ⟨hSuffix, fun hFinish => ?_, fun _ => hLess⟩
      exact absurd (beq_iff_eq.mp hFinish) hKind

end Token

end IdlReader
