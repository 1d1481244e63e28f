import IdlReader.Proofs.Token.Line

/-!
# Tokens tile their text

Where directives are no tokens of their own, a text is made up of the texts of its tokens, comments
among them, with nothing but white space in front of, between and behind them. Each token is placed
where its text stands.

* `Position.advance_behind`: the place behind a text, by its line feeds and the bytes of its last line.
* `Token.tile_next`: one token.
* `Token.tokens_tile`: all tokens of a text.
-/

namespace IdlReader

/-! ## Places in a text -/

namespace Position

/-- The place behind the text `before`: how many lines it has and how many bytes there are on the
last of these, both counted from one. -/
def behind (before : List Char) : Position :=
  ⟨before.count '\n' + 1, Text.byteSize (before.reverse.takeWhile (· ≠ '\n')) + 1⟩

theorem after_behind (before : List Char) (c : Char) :
    (behind before).after c = behind (before ++ [c]) := by
  unfold after behind
  by_cases hLine : c = '\n'
  · subst hLine
    simp
  · have hCount : (before ++ [c]).count '\n' = before.count '\n' := by
      rw [List.count_append, List.count_singleton, if_neg (by simpa using hLine), Nat.add_zero]
    rw [if_neg hLine, hCount, List.reverse_append, List.reverse_singleton, List.singleton_append,
      List.takeWhile_cons_of_pos (by simpa using hLine), Text.byteSize_cons, Nat.add_right_comm,
      Nat.add_comm c.utf8Size]

theorem advance_behind (before s : List Char) : (behind before).advance s = behind (before ++ s) := by
  induction s generalizing before with
  | nil => rw [advance_nil, List.append_nil]
  | cons c s ih => rw [advance_cons, after_behind, ih, List.append_assoc, List.singleton_append]

end Position

namespace Text

theorem takeBytes_byteSize (s t : List Char) : takeBytes (byteSize s) (s ++ t) = some s := by
  induction s with
  | nil => simp [takeBytes]
  | cons c s ih =>
    obtain ⟨n, hn⟩ : ∃ n, c.utf8Size = n + 1 := ⟨c.utf8Size - 1, by
      have := Char.utf8Size_pos c; omega⟩
    have hSize : byteSize (c :: s) = n + byteSize s + 1 := by
      rw [byteSize_cons, hn]
      omega
    rw [hSize, List.cons_append, takeBytes, if_pos (by omega),
      show n + byteSize s + 1 - c.utf8Size = byteSize s by omega, ih]
    rfl

/-- A part of a text lies between the byte offsets of its ends. -/
theorem sliceBytes_middle (s t u : List Char) :
    sliceBytes (s ++ t ++ u) (byteSize s) (byteSize (s ++ t)) = some t := by
  have hSize : byteSize (s ++ t) - byteSize s = byteSize t := by
    rw [byteSize_append, Nat.add_sub_cancel_left]
  rw [sliceBytes, if_pos (by rw [byteSize_append]; exact Nat.le_add_right _ _), List.append_assoc,
    skipBytes_byteSize, hSize]
  exact takeBytes_byteSize t u

theorem isLineEnd_dropWhile (s : List Char) : IsLineEnd (s.dropWhile (· ≠ '\n')) := by
  induction s with
  | nil => exact Or.inl rfl
  | cons c s ih =>
    by_cases hLine : c = '\n'
    · subst hLine
      exact Or.inr ⟨s, rfl⟩
    · rwa [List.dropWhile_cons_of_pos (by simpa using hLine)]

theorem dropTrailing_cons {p : Char → Bool} {c : Char} (h : p c = false) (s : List Char) :
    dropTrailing p (c :: s) = c :: dropTrailing p s := by
  unfold dropTrailing
  rw [List.reverse_cons, List.dropWhile_append]
  split
  · rename_i hAll
    rw [List.isEmpty_iff.mp hAll, List.dropWhile_cons_of_neg (by simp [h])]
    rfl
  · rw [List.reverse_append, List.reverse_singleton, List.singleton_append]

end Text

/-! ## What a lexeme drops -/

namespace Lexeme

variable {p : Position} {s : List Char}

/-- Whether a lexeme is a comment that goes to the end of its line. -/
def IsLineComment (x : Lexeme) : Prop := x.kind = .comment ∧ ['/', '/'] <+: x.text

/-- Whether all that is dropped behind a lexeme are the carriage returns at the end of a line
comment. -/
structure Drops (x : Lexeme) : Prop where
  line : x.IsLineComment → x.dropped = (x.dropped ++ x.rest).takeWhile (· = '\r')
  other : ¬ x.IsLineComment → x.dropped = []

theorem drops_of_kind {x : Lexeme} (hKind : x.kind ≠ .comment) (hDropped : x.dropped = []) :
    x.Drops :=
  ⟨fun h => absurd h.1 hKind, fun _ => hDropped⟩

/-- A line comment drops the carriage returns in front of the end of its line. -/
theorem drops_lineComment (s : List Char) : (lineComment ('/' :: '/' :: s)).Drops := by
  refine ⟨fun _ => ?_, fun hNot => absurd ⟨rfl, ?_⟩ hNot⟩
  · generalize '/' :: '/' :: s = t
    have hLine := append_drop_dropTrailing (· == '\r') (t.takeWhile (· ≠ '\n'))
    have hDropped : (lineComment t).dropped =
        ((t.takeWhile (· ≠ '\n')).reverse.takeWhile (· == '\r')).reverse := by
      rw [← List.append_cancel_left_eq (Text.dropTrailing (· == '\r') (t.takeWhile (· ≠ '\n'))),
        dropTrailing_append]
      exact hLine
    have hReturns : ∀ c ∈ (lineComment t).dropped, (decide (c = '\r')) = true := by
      rw [hDropped]
      intro c hc
      exact List.all_eq_true.mp List.all_takeWhile c (List.mem_reverse.mp hc)
    have hRest : (lineComment t).rest.takeWhile (fun c => decide (c = '\r')) = [] := by
      change (t.dropWhile (· ≠ '\n')).takeWhile _ = []
      rcases Text.isLineEnd_dropWhile t with hEnd | ⟨v, hEnd⟩ <;> rw [hEnd] <;> rfl
    rw [List.takeWhile_append_of_pos hReturns, hRest, List.append_nil]
  · change _ <+: Text.dropTrailing (· == '\r') (('/' :: '/' :: s).takeWhile (· ≠ '\n'))
    rw [List.takeWhile_cons_of_pos (by decide), List.takeWhile_cons_of_pos (by decide),
      Text.dropTrailing_cons (by decide), Text.dropTrailing_cons (by decide)]
    exact List.prefix_append _ _

theorem drops_blockComment : Ok (blockComment p ('/' :: '*' :: s)) Drops := by
  unfold blockComment
  split
  · refine ok_ok ⟨fun hLine => ?_, fun _ => rfl⟩
    obtain ⟨-, t, hText⟩ := hLine
    simp at hText
  · exact ok_error _ _

theorem drops_quoted {encoding : List Char} : Ok (quoted p encoding s) Drops := by
  unfold quoted
  split
  · exact ok_error _ _
  · split
    · exact ok_ok (drops_of_kind nofun rfl)
    · exact ok_error _ _

theorem drops_word {l : Lexicon} : Ok (word l p s) Drops := by
  have hWord : ∀ name, wordKind l name ≠ .comment := by
    intro name
    unfold wordKind
    repeat' split
    all_goals exact nofun
  unfold word
  dsimp only
  split
  · exact drops_quoted
  · exact ok_ok (drops_of_kind (hWord _) rfl)

theorem drops_number : Ok (number p s) Drops := by
  unfold number
  refine ok_bind (P := fun _ => True) (fun _ _ => trivial) ?_
  intro digits _
  dsimp only
  split
  · exact ok_error _ _
  · exact ok_ok (drops_of_kind nofun rfl)

theorem drops_mark {c : Char} : Ok (mark p c s) Drops := by
  have hOperator : (operator c s).Drops := by
    unfold operator
    split
    · exact drops_of_kind nofun rfl
    · split <;> exact drops_of_kind nofun rfl
  unfold mark
  split
  · exact ok_ok (drops_of_kind nofun rfl)
  · split
    · split <;> exact ok_ok (drops_of_kind nofun rfl)
    · split
      · exact ok_ok hOperator
      · split
        · exact ok_ok (drops_of_kind nofun rfl)
        · exact ok_error _ _

/-- Nothing but the carriage returns at the end of a line comment is dropped. -/
theorem drops_read {l : Lexicon} {c : Char} : Ok (read l p c s) Drops := by
  unfold read
  dsimp only
  split
  · rename_i hNext
    obtain ⟨rfl, hNext⟩ := hNext
    cases s with
    | nil => cases hNext
    | cons d s =>
      cases hNext
      exact ok_ok (drops_lineComment s)
  · split
    · rename_i hNext
      obtain ⟨rfl, hNext⟩ := hNext
      cases s with
      | nil => cases hNext
      | cons d s =>
        cases hNext
        exact drops_blockComment
    · split
      · exact drops_quoted
      · split
        · exact drops_number
        · split
          · exact drops_word
          · exact drops_mark

end Lexeme

/-! ## Tilings -/

namespace Token

/-- The carriage returns at the end of its line that a line comment is followed by. They are no part
of its text, but the comment ends behind them. -/
def returns (t : Token) (after : List Char) : List Char :=
  if t.kind = .comment ∧ ['/', '/'] <+: t.text.toList then after.takeWhile (· = '\r') else []

theorem returns_of_drops {t : Token} {x : Lexeme} (h : x.Drops) (hKind : t.kind = x.kind)
    (hText : t.text = String.ofList x.text) : t.returns (x.dropped ++ x.rest) = x.dropped := by
  unfold returns
  rw [hKind, hText, String.toList_ofList]
  split
  · rename_i hLine
    exact (h.line hLine).symm
  · rename_i hLine
    exact (h.other hLine).symm

/-- Whether a token is where its text stands, behind `before` and in front of `after`. -/
structure Stands (t : Token) (before after : List Char) : Prop where
  nonempty : t.text ≠ ""
  /-- The byte offsets of the ends of the text are boundaries between characters. -/
  slice : Text.sliceBytes (before ++ t.text.toList ++ after) (Text.byteSize before)
    (Text.byteSize (before ++ t.text.toList)) = some t.text.toList
  first : t.span.first = Position.behind before
  last : t.span.last = Position.behind (before ++ t.text.toList ++ t.returns after)

/-- Whether tokens make up the text behind `before` with white space in front of each of them and
behind the last one, and stand where their texts do. -/
inductive Tile : (before : List Char) → List Token → (after : List Char) → Prop where
  | nil {before gap : List Char} (hGap : ∀ c ∈ gap, Lexeme.isSpace c = true) : Tile before [] gap
  | cons {before gap after : List Char} {t : Token} {ts : List Token}
      (hGap : ∀ c ∈ gap, Lexeme.isSpace c = true) (hStands : t.Stands (before ++ gap) after)
      (hRest : Tile (before ++ gap ++ t.text.toList) ts after) :
      Tile before (t :: ts) (gap ++ (t.text.toList ++ after))

variable {l : Lexicon} {source : SourceId} {c : Cursor}

/-- Whether a cursor of a text stands behind the characters `before`. -/
structure At (c : Cursor) (before : List Char) : Prop where
  within : c.within = 0
  position : c.position = Position.behind before

theorem At.moveOver {before : List Char} (h : At c before) (read rest : List Char) :
    At (c.moveOver read rest) (before ++ read) := by
  refine ⟨rfl, ?_⟩
  have hStart : c.characterStart = Position.behind before := by
    unfold Cursor.characterStart
    rw [h.within, h.position]
    rfl
  change c.characterStart.advance read = _
  rw [hStart, Position.advance_behind]

/-- The token at a cursor stands behind white space, and the cursor moves behind it and what is
dropped; at the end there is nothing but white space. -/
structure Places (source : SourceId) (before : List Char) (c : Cursor) (r : Token × Cursor) :
    Prop where
  belongs : r.1.source = source
  finish : r.1.isFinish = true → (∀ d ∈ c.rest, Lexeme.isSpace d = true) ∧
    r.1 = Token.finish (Position.behind (before ++ c.rest)) source
  token : r.1.isFinish = false → ∃ gap dropped, (∀ d ∈ gap, Lexeme.isSpace d = true) ∧
    (∀ d ∈ dropped, Lexeme.isSpace d = true) ∧
    c.rest = gap ++ (r.1.text.toList ++ (dropped ++ r.2.rest)) ∧
    r.1.Stands (before ++ gap) (dropped ++ r.2.rest) ∧
    At r.2 (before ++ gap ++ r.1.text.toList ++ dropped)

theorem tile_next {before : List Char} (h : At c before) :
    Ok (next l false source c) (Places source before c) := by
  have hParts : c.rest.takeWhile Lexeme.isSpace ++ c.skipSpace.rest = c.rest :=
    List.takeWhile_append_dropWhile
  have hGap : ∀ d ∈ c.rest.takeWhile Lexeme.isSpace, Lexeme.isSpace d = true :=
    List.all_eq_true.mp List.all_takeWhile
  have hAt : At c.skipSpace (before ++ c.rest.takeWhile Lexeme.isSpace) := h.moveOver _ _
  generalize c.rest.takeWhile Lexeme.isSpace = gap at hParts hGap hAt
  unfold next
  dsimp only
  split
  · rename_i hEnd
    rw [hEnd, List.append_nil] at hParts
    refine ok_ok ⟨rfl, fun _ => ⟨hParts ▸ hGap, ?_⟩, nofun⟩
    rw [hAt.position, hParts]
  · rename_i d s hText
    rw [if_neg (by simp)]
    refine ok_bind (P := fun x => (x.Covers (d :: s) ∧ x.Drops) ∧ x.kind ≠ .finish)
      (fun x hx => ⟨⟨Lexeme.covers_read x hx, Lexeme.drops_read x hx⟩, (Lexeme.kind_read x hx).1⟩) ?_
    rintro x ⟨⟨⟨hSplits, hSome⟩, hDrops⟩, hKind⟩
    refine ok_ok ⟨rfl, fun hFinish => absurd (beq_iff_eq.mp hFinish) hKind, fun _ => ?_⟩
    have hAfter := hAt.moveOver (x.text ++ x.dropped) x.rest
    have hRest : (c.skipSpace.moveOver (x.text ++ x.dropped) x.rest).rest = x.rest := rfl
    generalize c.skipSpace.moveOver (x.text ++ x.dropped) x.rest = after at hAfter hRest
    dsimp only
    rw [hRest]
    refine ⟨gap, x.dropped, hGap, ?_, ?_, ?_, ?_⟩
    · intro e he
      by_cases hLine : x.IsLineComment
      · rw [hDrops.line hLine] at he
        have hReturn := List.all_eq_true.mp List.all_takeWhile e he
        rw [of_decide_eq_true hReturn]
        rfl
      · rw [hDrops.other hLine] at he
        cases he
    · rw [← hParts, hText, ← hSplits, String.toList_ofList, List.append_assoc]
    · refine ⟨?_, ?_, hAt.position, ?_⟩
      · intro hEmpty
        exact hSome (by simpa using congrArg String.toList hEmpty)
      · exact Text.sliceBytes_middle _ _ _
      · rw [returns_of_drops hDrops rfl rfl, String.toList_ofList, List.append_assoc]
        exact hAfter.position
    · rw [String.toList_ofList, List.append_assoc]
      exact hAfter

/-- The tokens from a cursor on tile what follows it, behind the carriage returns that the token in
front of it has dropped. -/
theorem tile_readAll {n : Nat} {before dropped : List Char}
    (hDropped : ∀ d ∈ dropped, Lexeme.isSpace d = true) (h : At c (before ++ dropped))
    (hEnd : (readAll l false source n c).2 = none) :
    ∃ ts, (readAll l false source n c).1 =
        ts ++ [Token.finish (Position.behind (before ++ dropped ++ c.rest)) source] ∧
      (∀ t ∈ ts, t.isFinish = false ∧ t.source = source) ∧ Tile before ts (dropped ++ c.rest) := by
  induction n generalizing c before dropped with
  | zero => cases hEnd
  | succ n ih =>
    rw [readAll] at hEnd ⊢
    cases hNext : next l false source c with
    | error f =>
      rw [hNext] at hEnd
      cases hEnd
    | ok r =>
      obtain ⟨t, d⟩ := r
      obtain ⟨hSource, hFinish, hToken⟩ := tile_next h _ hNext
      rw [hNext] at hEnd
      dsimp only at hEnd hFinish hToken hSource ⊢
      cases hIs : t.isFinish with
      | true =>
        obtain ⟨hSpace, ht⟩ := hFinish hIs
        refine ⟨[], ?_, List.forall_mem_nil _, .nil fun e he => ?_⟩
        · rw [if_pos rfl, ht]
          rfl
        · exact (List.mem_append.mp he).elim (hDropped e) (hSpace e)
      | false =>
        obtain ⟨gap, more, hGap, hMore, hRest, hStands, hAt⟩ := hToken hIs
        rw [if_neg (by simp [hIs])] at hEnd
        obtain ⟨ts, hTokens, hAll, hTile⟩ := ih hMore hAt hEnd
        refine ⟨t :: ts, ?_, ?_, ?_⟩
        · rw [if_neg (by simp), hTokens, hRest]
          simp only [List.append_assoc, List.cons_append]
        · exact List.forall_mem_cons.mpr ⟨⟨hIs, hSource⟩, hAll⟩
        · rw [hRest, ← List.append_assoc dropped gap]
          rw [List.append_assoc before dropped gap] at hStands hTile
          exact .cons (fun e he => (List.mem_append.mp he).elim (hDropped e) (hGap e)) hStands hTile

/-- Where all of a text can be read and number signs open no directives, its tokens, comments among
them, make up the text with nothing but white space in between. The text of each token is not empty
and stands at the line and the byte column of the token; the token ends behind its text, and behind
the carriage returns that a line comment drops. Behind the tokens stands the end of the text. -/
theorem tokens_tile {text : List Char} (h : (ofText l false source text).2 = none) :
    ∃ ts, (ofText l false source text).1 = ts ++ [Token.finish (Position.behind text) source] ∧
      (∀ t ∈ ts, t.isFinish = false ∧ t.source = source) ∧ Tile [] ts text :=
  @tile_readAll l source (Cursor.ofText text) (text.length + 1) [] []
    (List.forall_mem_nil _) ⟨rfl, rfl⟩ h

/-- Quotes behind prefixes, escapes in front of characters of several bytes, numbers with suffixes and
comments over several lines, one of which ends in carriage returns. -/
def mixedText : List Char :=
  "u8\"\\é\" //x\r\r\n/* ß\n*/0x1Fu .5e+3 ##\r\n".toList

theorem tokens_tile_mixed :
    (ofText (Environment.lexicon {}) false 0 mixedText).2 = none ∧
    ∃ ts, (ofText (Environment.lexicon {}) false 0 mixedText).1 =
        ts ++ [Token.finish (Position.behind mixedText) 0] ∧
      (∀ t ∈ ts, t.isFinish = false ∧ t.source = 0) ∧ Tile [] ts mixedText := by
  have hEnd : (ofText (Environment.lexicon {}) false 0 mixedText).2 = none := by decide +kernel
  exact ⟨hEnd, tokens_tile hEnd⟩

end Token

end IdlReader
