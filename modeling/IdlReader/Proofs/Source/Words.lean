import IdlReader.Proofs.Outcome
import IdlReader.Source.Reader

/-!
# Words among tokens

The text of every identifier and keyword of a source is a name: one or more word characters
of which the first is no digit. The words of the language itself are no identifiers.

* `Lexeme.spells_read`: what is read of a text.
* `lexical_tokenize`, `proper_tokenize`: the tokens of a text.
-/

namespace IdlReader

/-- Whether a text is a name. -/
def IsName (name : String) : Prop := Text.isName name.toList = true

instance (name : String) : Decidable (IsName name) := inferInstanceAs (Decidable (_ = _))

namespace Text

theorem isWord_of_isWordStart {c : Char} (h : isWordStart c = true) : isWord c = true := by
  unfold isWordStart at h
  unfold isWord Char.isAlphanum
  rcases Bool.or_eq_true_iff.mp h with hAlpha | hLine
  · rw [hAlpha]
    rfl
  · rw [hLine, Bool.or_true]

theorem isName_takeWhile {c : Char} (h : isWordStart c = true) (s : List Char) :
    isName ((c :: s).takeWhile isWord) = true := by
  rw [List.takeWhile_cons_of_pos (isWord_of_isWordStart h), isName, h, Bool.true_and]
  exact List.all_takeWhile

end Text

theorem IsName.ne_nil {name : String} (h : IsName name) : name.toList ≠ [] := by
  intro hNil
  rw [IsName, hNil] at h
  cases h

theorem IsName.isWord {name : String} (h : IsName name) :
    ∀ c ∈ name.toList, Text.isWord c = true := by
  rw [IsName] at h
  intro c hc
  cases hText : name.toList with
  | nil =>
    rw [hText] at hc
    cases hc
  | cons d s =>
    rw [hText] at h hc
    rw [Text.isName, Bool.and_eq_true] at h
    rcases List.mem_cons.mp hc with rfl | hs
    · exact Text.isWord_of_isWordStart h.1
    · exact List.all_eq_true.mp h.2 c hs

theorem IsName.ne_empty {name : String} (h : IsName name) : name ≠ "" := by
  intro hEmpty
  rw [hEmpty] at h
  cases h

/-- A token is one mark only. -/
theorem Token.not_is_of_is {t : Token} {text other : String} (h : t.is text = true)
    (hNe : text ≠ other) : t.is other = false := by
  cases hOther : t.is other with
  | false => rfl
  | true =>
    unfold Token.is at h hOther
    rw [Bool.and_eq_true, beq_iff_eq] at h hOther
    exact absurd (h.2.symm.trans hOther.2) hNe

/-- Whether the text of a token is a name if the token is a word. -/
def Token.Lexical (t : Token) : Prop := t.isWord = true → IsName t.text

/-- Whether the words among tokens are names. -/
def Lexical (ts : List Token) : Prop := ∀ t ∈ ts, t.Lexical

theorem lexical_of_not_isWord {t : Token} (h : t.isWord = false) : t.Lexical := by
  intro hWord
  rw [h] at hWord
  cases hWord

theorem lexical_nil : Lexical [] := by
  intro t ht
  cases ht

theorem lexical_cons {t : Token} {ts : List Token} :
    Lexical (t :: ts) ↔ t.Lexical ∧ Lexical ts := List.forall_mem_cons

theorem lexical_append {ts us : List Token} : Lexical (ts ++ us) ↔ Lexical ts ∧ Lexical us :=
  List.forall_mem_append

theorem Lexical.mono {ts us : List Token} (h : Lexical ts) (hSubset : ∀ t ∈ us, t ∈ ts) :
    Lexical us := fun t ht => h t (hSubset t ht)

/-- Whether a token is lexical, and none of the words of the language itself if it is an identifier. -/
structure Token.Proper (t : Token) : Prop where
  lexical : t.Lexical
  unreserved : t.isIdentifier = true → t.text ∉ Lexicon.keywords

theorem proper_of_not_isWord {t : Token} (h : t.isWord = false) : t.Proper := by
  refine ⟨lexical_of_not_isWord h, fun hIdentifier => ?_⟩
  rw [Token.isWord, hIdentifier] at h
  cases h

/-! ## Texts -/

namespace Lexeme

theorem notMem_keywords_of_wordKind {l : Lexicon} {w : String} (h : wordKind l w = .identifier) :
    w ∉ Lexicon.keywords := by
  intro hMem
  unfold wordKind at h
  rw [l.isKeyword_of_mem_keywords hMem, if_pos rfl] at h
  repeat' split at h
  all_goals cases h

theorem kind_blockComment {p : Position} {s : List Char} :
    Ok (blockComment p s) fun x => x.kind = .comment := by
  unfold blockComment
  split
  · exact ok_ok rfl
  · exact ok_error _ _

theorem kind_quoted {p : Position} {encoding s : List Char} :
    Ok (quoted p encoding s) fun x => ∃ k, x.kind = .literal k := by
  unfold quoted
  split
  · exact ok_error _ _
  · split
    · exact ok_ok ⟨_, rfl⟩
    · exact ok_error _ _

theorem kind_number {p : Position} {s : List Char} :
    Ok (number p s) fun x => ∃ k, x.kind = .literal k := by
  unfold number
  refine ok_bind (P := fun _ => True) (fun _ _ => trivial) ?_
  intro digits _
  dsimp only
  split
  · exact ok_error _ _
  · exact ok_ok ⟨_, rfl⟩

theorem kind_mark {p : Position} {c : Char} {s : List Char} :
    Ok (mark p c s) fun x => x.kind = .separator ∨ x.kind = .operator := by
  have hOperator : (operator c s).kind = .operator := by
    unfold operator
    split
    · rfl
    · split <;> rfl
  unfold mark
  split
  · exact ok_ok (Or.inl rfl)
  · split
    · split <;> exact ok_ok (Or.inl rfl)
    · split
      · exact ok_ok (Or.inr hOperator)
      · split
        · exact ok_ok (Or.inr rfl)
        · exact ok_error _ _

/-- Whether the text of a lexeme is a name of its kind if it is a word. -/
def Spells (l : Lexicon) (x : Lexeme) : Prop :=
  x.kind = .identifier ∨ x.kind = .keyword →
    Text.isName x.text = true ∧ x.kind = wordKind l (String.ofList x.text)

variable {l : Lexicon} {p : Position}

theorem spells_of_kind {x : Lexeme} (h : x.kind ≠ .identifier ∧ x.kind ≠ .keyword) :
    x.Spells l := by
  rintro (hKind | hKind)
  · exact absurd hKind h.1
  · exact absurd hKind h.2

theorem spells_word {c : Char} {s : List Char} (h : Text.isWordStart c = true) :
    Ok (word l p (c :: s)) (Spells l) := by
  unfold word
  dsimp only
  split
  · refine kind_quoted.mono ?_
    rintro x ⟨k, hKind⟩
    exact spells_of_kind (by simp [hKind])
  · exact ok_ok fun _ => ⟨Text.isName_takeWhile h s, rfl⟩

theorem spells_read {c : Char} {s : List Char} : Ok (read l p c s) (Spells l) := by
  have hLiteral : ∀ x : Lexeme, (∃ k, x.kind = .literal k) → x.Spells l := by
    rintro x ⟨k, hKind⟩
    exact spells_of_kind (by simp [hKind])
  unfold read
  dsimp only
  split
  · exact ok_ok (spells_of_kind ⟨nofun, nofun⟩)
  · split
    · exact kind_blockComment.mono fun x hKind => spells_of_kind (by simp [hKind])
    · split
      · exact kind_quoted.mono hLiteral
      · split
        · exact kind_number.mono hLiteral
        · split
          · rename_i hStart
            exact spells_word hStart
          · refine kind_mark.mono ?_
            rintro x (hKind | hKind) <;> exact spells_of_kind (by simp [hKind])

end Lexeme

variable {l : Lexicon} {directives : Bool} {source : SourceId}

theorem proper_next {c : Cursor} : Ok (Token.next l directives source c) fun r => r.1.Proper := by
  unfold Token.next
  dsimp only
  split
  · exact ok_ok (proper_of_not_isWord rfl)
  · split
    · exact ok_ok (proper_of_not_isWord rfl)
    · refine ok_bind Lexeme.spells_read ?_
      intro x hx
      refine ok_ok ⟨fun hWord => ?_, fun hIdentifier => ?_⟩
      · simp only [Token.isWord, Token.isIdentifier, Token.isKeyword, Bool.or_eq_true,
          beq_iff_eq] at hWord
        rw [IsName, String.toList_ofList]
        exact (hx hWord).1
      · rw [Token.isIdentifier, beq_iff_eq] at hIdentifier
        exact Lexeme.notMem_keywords_of_wordKind ((hx (Or.inl hIdentifier)).2.symm.trans hIdentifier)

theorem proper_readAll (n : Nat) (c : Cursor) :
    ∀ t ∈ (Token.readAll l directives source n c).1, t.Proper := by
  induction n generalizing c with
  | zero => exact List.forall_mem_nil _
  | succ n ih =>
    rw [Token.readAll]
    split
    · exact List.forall_mem_nil _
    · rename_i t after hNext
      have ht := proper_next _ hNext
      split
      · exact List.forall_mem_cons.mpr ⟨ht, List.forall_mem_nil _⟩
      · exact List.forall_mem_cons.mpr ⟨ht, ih after⟩

theorem proper_tokenize {text : List Char} :
    Ok (tokenize l directives source text) fun ts => ∀ t ∈ ts, t.Proper := by
  have hAll : ∀ t ∈ (Token.readAll l directives source (text.length + 1)
      (Cursor.ofText text)).1, t.Proper := proper_readAll _ _
  unfold tokenize Token.ofText
  split
  · exact ok_error _ _
  · rename_i tokens hTokens
    rw [hTokens] at hAll
    exact ok_ok fun t ht => hAll t (List.mem_filter.mp ht).1

theorem lexical_tokenize {text : List Char} : Ok (tokenize l directives source text) Lexical :=
  proper_tokenize.mono fun _ h t ht => (h t ht).lexical

end IdlReader
