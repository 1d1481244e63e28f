import IdlReader.Proofs.Token.Alike
import IdlReader.Proofs.Token.Scan

/-!
# Tokens joined by spaces

The texts of tokens with a space between each two are the form in which expressions are kept,
compared and hashed. Such a text splits into the tokens that it was made of, so it says as much as
they do.

* `Token.readAll_joinTexts`: reading the texts of lexemes.
* `tokenize_joinTexts`: reading the tokens of any text once more.
-/

namespace IdlReader

namespace Token

variable {l : Lexicon} {c : Cursor}

/-! ## Where tokens come from -/

theorem isLexeme_next {source : SourceId} : Ok (next l false source c) fun r =>
    r.1.kind ≠ .comment → r.1.kind ≠ .finish → r.1.IsLexeme l := by
  unfold next
  dsimp only
  split
  · exact ok_ok fun _ hFinish => absurd rfl hFinish
  · rename_i d s hText
    rw [if_neg (by simp)]
    intro r h
    obtain ⟨x, hRead, h⟩ := bind_eq_ok.mp h
    cases h
    intro hComment _
    exact ⟨_, d, s, x, hRead, hComment, rfl, String.toList_ofList⟩

theorem isLexeme_readAll (source : SourceId) (n : Nat) (c : Cursor) : ∀ t ∈ (readAll l false source n c).1,
    t.kind ≠ .comment → t.kind ≠ .finish → t.IsLexeme l := by
  induction n generalizing c with
  | zero => exact List.forall_mem_nil _
  | succ n ih =>
    rw [readAll]
    cases hNext : next l false source c with
    | error f => exact List.forall_mem_nil _
    | ok x =>
      have hFirst := isLexeme_next x hNext
      dsimp only
      split
      · exact List.forall_mem_singleton.mpr hFirst
      · exact List.forall_mem_cons.mpr ⟨hFirst, ih x.2⟩

/-- The tokens of a text are lexemes, and none of them is a comment. -/
theorem isLexeme_tokenize {source : SourceId} {text : List Char} :
    Ok (tokenize l false source text) fun ts => ∀ t ∈ ts, t.IsLexeme l := by
  have hAll := @isLexeme_readAll l source (text.length + 1) (Cursor.ofText text)
  unfold tokenize ofText
  revert hAll
  generalize readAll l false source (text.length + 1) (Cursor.ofText text) = x
  obtain ⟨ts, f⟩ := x
  intro hAll
  cases f with
  | some f => exact ok_error _ _
  | none =>
    refine ok_ok fun t ht => ?_
    obtain ⟨hMem, hKept⟩ := List.mem_filter.mp ht
    obtain ⟨hComment, hFinish⟩ := of_decide_eq_true hKept
    exact hAll t hMem hComment hFinish

/-! ## Joined texts -/

/-- What follows the first token in a joined text. -/
def joinedBehind (ts : List Token) : List Char :=
  if ts.isEmpty then [] else ' ' :: (joinTexts ts).toList

theorem toList_joinTexts_cons (t : Token) (ts : List Token) :
    (joinTexts (t :: ts)).toList = t.text.toList ++ joinedBehind ts := by
  cases ts with
  | nil => simp [joinTexts, joinedBehind, String.intercalate_singleton]
  | cons u ts =>
    simp only [joinTexts, joinedBehind, List.map_cons, String.intercalate_cons_cons,
      String.toList_append, List.append_assoc]
    rfl

theorem isBreak_joinedBehind (ts : List Token) : Lexeme.IsBreak (joinedBehind ts) := by
  unfold joinedBehind
  split
  · exact Lexeme.isBreak_nil
  · rintro _ ⟨⟩
    rfl

/-- What follows the first token is the joined text of the others behind white space. -/
theorem exists_joinedBehind (ts : List Token) : ∃ sp, (∀ e ∈ sp, Lexeme.isSpace e = true) ∧
    joinedBehind ts = sp ++ (joinTexts ts).toList := by
  cases ts with
  | nil => exact ⟨[], List.forall_mem_nil _, rfl⟩
  | cons t ts => exact ⟨[' '], List.forall_mem_singleton.mpr rfl, rfl⟩

/-- The texts of lexemes are read as these lexemes, behind white space or not. -/
theorem readAll_joinTexts (source : SourceId) {ts : List Token} (h : ∀ t ∈ ts, t.IsLexeme l) {sp : List Char}
    (hSpace : ∀ e ∈ sp, Lexeme.isSpace e = true) (hc : c.rest = sp ++ (joinTexts ts).toList)
    {n : Nat} (hn : c.rest.length < n) :
    ∃ us last, readAll l false source n c = (us ++ [last], none) ∧
      us.map unplaced = ts.map unplaced ∧ (∀ u ∈ us, u.kind ≠ .comment ∧ u.isFinish = false) ∧
      last.isFinish = true := by
  induction ts generalizing c sp n with
  | nil =>
    obtain ⟨n, rfl⟩ : ∃ m, n = m + 1 := ⟨n - 1, by omega⟩
    have hSkip : c.skipSpace = c.moveOver sp [] := Cursor.skipSpace_of_rest hc hSpace rfl
    refine ⟨[], finish c.skipSpace.position source, ?_, rfl, List.forall_mem_nil _, rfl⟩
    rw [readAll, next, hSkip]
    rfl
  | cons t ts ih =>
    obtain ⟨n, rfl⟩ : ∃ m, n = m + 1 := ⟨n - 1, by omega⟩
    rw [List.forall_mem_cons] at h
    rw [toList_joinTexts_cons] at hc
    obtain ⟨t', c', hNext, hSame, hRest, hKind⟩ :=
      next_of_isLexeme source h.1 hSpace (isBreak_joinedBehind ts) hc
    obtain ⟨sp', hSpace', hBehind⟩ := exists_joinedBehind ts
    have hShorter : c'.rest.length < c.rest.length := (covers_next _ hNext).shorter hKind.2
    obtain ⟨us, last, hAll, hSames, hKinds, hLast⟩ :=
      ih h.2 hSpace' (hRest.trans hBehind) (n := n) (by omega)
    refine ⟨t' :: us, last, ?_, by rw [List.map_cons, List.map_cons, hSame, hSames],
      List.forall_mem_cons.mpr ⟨hKind, hKinds⟩, hLast⟩
    rw [readAll, hNext]
    dsimp only
    rw [hKind.2, hAll]
    rfl

end Token

/-! ## Reading once more -/

variable {l : Lexicon} {source : SourceId} {text : List Char} {ts : List Token}

theorem exists_tokenize_joinTexts (h : tokenize l false source text = .ok ts) (place : SourceId) :
    ∃ us, tokenize l false place (joinTexts ts).toList = .ok us ∧ Alike us ts := by
  obtain ⟨us, last, hAll, hSame, hKinds, hLast⟩ := Token.readAll_joinTexts place
    (c := Cursor.ofText (joinTexts ts).toList) (Token.isLexeme_tokenize ts h)
    (List.forall_mem_nil _) rfl (Nat.lt_succ_self _)
  have hRead := tokenize_of_readAll hAll hKinds hLast
  exact ⟨us, hRead, .of_unplaced (expanded_tokenize us hRead) (expanded_tokenize ts h) hSame⟩

/-- The tokens of a text are read once more of their joined text, and only tokens that are alike
have the same joined text. -/
theorem tokenize_joinTexts (h : tokenize l false source text = .ok ts) :
    (∀ place, ∃ us, tokenize l false place (joinTexts ts).toList = .ok us ∧ Alike us ts) ∧
    ∀ source' text' ts', tokenize l false source' text' = .ok ts' →
      joinTexts ts' = joinTexts ts → Alike ts' ts := by
  refine ⟨exists_tokenize_joinTexts h, fun source' text' ts' h' hJoined => ?_⟩
  obtain ⟨us, hRead, hAlike⟩ := exists_tokenize_joinTexts h source
  obtain ⟨us', hRead', hAlike'⟩ := exists_tokenize_joinTexts h' source
  rw [hJoined, hRead] at hRead'
  cases hRead'
  exact hAlike'.symm.trans hAlike

/-- Numbers that stand next to each other, an exponent without digits, words that could be prefixes
of literals, literals with blanks in them and a comment between two number signs. -/
theorem tokenize_joinTexts_dense :
    let l := ({} : Environment).lexicon
    let texts := ["1.", ".5e+", "x", "L\"a b\"", "L", "'\\''", "::", ":", "<<", "=", "#", "##"]
    ∃ ts us, tokenize l false 0 "1..5e+ x L\"a b\"L '\\'':::<<=#/* - */##".toList = .ok ts ∧
      ts.map Token.text = texts ∧
      tokenize l false 1 (joinTexts ts).toList = .ok us ∧ Alike us ts := by
  intro l texts
  obtain ⟨ts, h, hTexts⟩ : ∃ ts,
      tokenize l false 0 "1..5e+ x L\"a b\"L '\\'':::<<=#/* - */##".toList = .ok ts ∧
        (ts.map Token.text == texts) = true := any_toOption (by decide +kernel)
  obtain ⟨us, hRead, hAlike⟩ := (tokenize_joinTexts h).1 1
  exact ⟨ts, us, h, beq_iff_eq.mp hTexts, hRead, hAlike⟩

end IdlReader
