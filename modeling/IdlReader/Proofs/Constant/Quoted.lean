import IdlReader.Constant.Literal
import IdlReader.Proofs.Token.Scan
import IdlReader.Proofs.Token.Tiling
import Mathlib.Data.Bool.AllAny

/-!
# Texts in quotes

A text is written between quotes character by character: as the character itself or as an escape
sequence. The scanner finds the closing quote as long as no quote and no end of a line is written as
itself, and the reader of escape sequences gives back the characters, whatever prefix stands in front
of the quotes.

* `Text.Encodes`: how a character may be written.
* `Text.unescape_flatMap`, `Lexeme.throughQuote_flatMap`: reading what was written.
* `Token.ofText_of_opens`: a text that is one token.
* `Constant.string_literals`: string literals of all encodings.
-/

namespace IdlReader

/-! ## Characters -/

namespace Text

/-- Whether a text writes a character between quotes: the character itself or an escape sequence. -/
inductive Encodes (c : Char) : List Char → Prop where
  | plain (h : c ≠ '\\') : Encodes c [c]
  | escaped {e : Char} (h : EscapeState.escaped? e = some (.inl c)) : Encodes c ['\\', e]

variable {s : List Char} {f : Char → List Char}

theorem unescape_flatMap (h : ∀ c ∈ s, Encodes c (f c)) : unescape (s.flatMap f) = .ok s := by
  unfold unescape
  induction s with
  | nil => rfl
  | cons c s ih =>
    obtain ⟨hChar, hRest⟩ := List.forall_mem_cons.mp h
    rw [List.flatMap_cons]
    generalize f c = w at hChar
    cases hChar with
    | plain hPlain =>
      rw [List.singleton_append, unescapeFrom, if_neg hPlain, ih hRest]
      rfl
    | escaped hSequence =>
      rw [List.cons_append, List.singleton_append, unescapeFrom, if_pos rfl, unescapeFrom, hSequence]
      dsimp only
      rw [ih hRest]
      rfl

end Text

namespace Lexeme

open Text (Encodes)

variable {l : Lexicon} {s : List Char} {f : Char → List Char}

/-- A quote that is not escaped closes a literal, so that none may be among what is written. -/
theorem throughQuote_flatMap (h : ∀ c ∈ s, Encodes c (f c))
    (hPlain : ∀ c ∈ s, f c = [c] → c ≠ '\n' ∧ c ≠ '"') (u : List Char) :
    throughQuote '"' (s.flatMap f ++ '"' :: u) = some (s.flatMap f ++ ['"'], u) := by
  induction s with
  | nil => rfl
  | cons c s ih =>
    obtain ⟨hChar, hRest⟩ := List.forall_mem_cons.mp h
    obtain ⟨hFirst, hOthers⟩ := List.forall_mem_cons.mp hPlain
    have hBelow := ih hRest hOthers
    rw [List.flatMap_cons, List.append_assoc]
    generalize f c = w at hChar hFirst
    cases hChar with
    | plain hSlash =>
      obtain ⟨hLine, hQuote⟩ := hFirst rfl
      rw [List.singleton_append, throughQuote, if_neg hLine, if_neg hQuote, hBelow]
      · rfl
      · exact fun hEq => absurd hEq hSlash
      · exact fun _ _ hEq => absurd hEq hSlash
    | escaped =>
      rw [List.cons_append, List.singleton_append, throughQuote, hBelow]
      rfl

/-- Behind a prefix stands a literal in quotes and no word. -/
theorem word_string {e : String} (he : e ∈ encodings) (p : Position) (v : List Char) :
    ∃ c t, e.toList = c :: t ∧ Text.isWordStart c = true ∧
      word l p (c :: (t ++ '"' :: v)) = quoted p e.toList ('"' :: v) := by
  simp only [encodings, List.mem_cons, List.not_mem_nil, or_false] at he
  rcases he with rfl | rfl | rfl | rfl
  · exact ⟨'L', [], rfl, rfl, rfl⟩
  · exact ⟨'u', [], rfl, rfl, rfl⟩
  · exact ⟨'U', [], rfl, rfl, rfl⟩
  · exact ⟨'u', ['8'], rfl, rfl, rfl⟩

/-- A string literal, behind a prefix or none. -/
theorem opens_string {e : String} (he : e = "" ∨ e ∈ encodings)
    (h : ∀ c ∈ s, Encodes c (f c)) (hPlain : ∀ c ∈ s, f c = [c] → c ≠ '\n' ∧ c ≠ '"')
    (u : List Char) : Opens l (e.toList ++ '"' :: (s.flatMap f ++ ['"'])) (.literal .string) u := by
  have hQuoted : ∀ p, quoted p e.toList ('"' :: (s.flatMap f ++ ['"'] ++ u)) =
      .ok { kind := .literal .string, text := e.toList ++ '"' :: (s.flatMap f ++ ['"']), rest := u } := by
    intro p
    rw [quoted, List.append_assoc, List.singleton_append, throughQuote_flatMap h hPlain]
    rfl
  refine ⟨by decide, ?_⟩
  rcases he with rfl | he
  · exact ⟨'"', _, rfl, by decide, fun p => (read_quoted (by decide)).trans (hQuoted p)⟩
  · obtain ⟨c, t, hMark, hStart, -⟩ := word_string (l := l) he .start []
    refine ⟨c, t ++ '"' :: (s.flatMap f ++ ['"']), by rw [hMark, List.cons_append], ?_, fun p => ?_⟩
    · rintro rfl
      cases hStart
    · obtain ⟨c', t', hMark', -, hWord⟩ := word_string (l := l) he p (s.flatMap f ++ ['"'] ++ u)
      cases hMark.symm.trans hMark'
      rw [List.append_assoc, List.cons_append, read_word hStart, hWord, hQuoted]

end Lexeme

/-! ## Tokens -/

namespace Token

variable {l : Lexicon} {s : List Char} {kind : TokenKind}

/-- The tokens of a text that is one token. -/
theorem ofText_of_opens (directives : Bool) (source : SourceId) (h : Lexeme.Opens l s kind []) :
    ofText l directives source s =
      ([{ kind, text := String.ofList s, span := ⟨Position.start, Position.behind s⟩, source },
        finish (Position.behind s) source], none) := by
  obtain ⟨-, c, t, rfl, hSharp, hRead⟩ := h
  rw [List.append_nil] at hRead
  have hSkip : (Cursor.ofText (c :: t)).skipSpace = (Cursor.ofText (c :: t)).moveOver [] (c :: t) :=
    Cursor.skipSpace_of_rest rfl (List.forall_mem_nil _) (Lexeme.not_isSpace_of_read (hRead .start))
  have hFinish : (kind == .finish) = false := beq_false_of_ne (Lexeme.kind_read _ (hRead .start)).1
  obtain ⟨d, hAt, hEnd, hNext⟩ : ∃ d : Cursor, At d (c :: t) ∧ d.rest = [] ∧
      next l directives source (Cursor.ofText (c :: t)) =
        .ok ({ kind, text := String.ofList (c :: t), span := ⟨.start, d.position⟩, source }, d) := by
    have hStart : At (Cursor.ofText (c :: t)) [] := ⟨rfl, rfl⟩
    refine ⟨_, (hStart.moveOver [] (c :: t)).moveOver (c :: t) [], rfl, ?_⟩
    rw [next_of_read (congrArg Cursor.rest hSkip) (fun hDirective => hSharp hDirective.2.1) (hRead _),
      hSkip]
    dsimp only
    rw [List.append_nil]
    rfl
  have hLast : next l directives source d =
      .ok (finish (Position.behind (c :: t)) source, d.moveOver [] []) := by
    have hSame : d.skipSpace = d.moveOver [] [] := by rw [Cursor.skipSpace, hEnd]; rfl
    have hPosition := (hAt.moveOver [] []).position
    rw [List.append_nil] at hPosition
    rw [next, hSame]
    dsimp only
    rw [hPosition]
    rfl
  rw [ofText, List.length_cons, readAll, hNext]
  dsimp only
  rw [isFinish, hFinish, readAll, hLast, hAt.position]
  rfl

end Token

namespace Constant

/-! ## String literals -/

/-- A character as it is written between double quotes. -/
def encodeChar (c : Char) : List Char :=
  if c = '\\' then ['\\', '\\']
  else if c = '"' then ['\\', '"']
  else if c = '\n' then ['\\', 'n']
  else [c]

/-- A text as it is written between double quotes. -/
def encode (s : List Char) : List Char := s.flatMap encodeChar

/-- The encodings of string literals. -/
inductive Encoding where
  | narrow
  | utf8
  | utf16
  | utf32
  | wide
deriving DecidableEq, Repr

/-- What stands in front of the quotes. -/
def Encoding.mark : Encoding → String
  | narrow => ""
  | utf8 => "u8"
  | utf16 => "u"
  | utf32 => "U"
  | wide => "L"

/-- The kind of the texts that are written in an encoding. -/
def Encoding.kind : Encoding → TextKind
  | narrow | utf8 => .string
  | utf16 => .string16
  | utf32 => .string32
  | wide => .wide

theorem encodes_encodeChar (c : Char) : Text.Encodes c (encodeChar c) := by
  unfold encodeChar
  split
  · rename_i hSlash
    subst hSlash
    exact .escaped rfl
  · rename_i hSlash
    split
    · rename_i hQuote
      subst hQuote
      exact .escaped rfl
    · split
      · rename_i hLine
        subst hLine
        exact .escaped rfl
      · exact .plain hSlash

theorem ne_of_encodeChar {c : Char} (h : encodeChar c = [c]) : c ≠ '\n' ∧ c ≠ '"' := by
  constructor
  · rintro rfl
    cases h
  · rintro rfl
    cases h

theorem ofLiteral_of_kind {t : Token} {kind : LiteralKind} (h : t.kind = .literal kind) :
    ofLiteral t = (ofLiteralText kind t.text.toList).mapError fun cause =>
      (Fault.of cause).placed t.position := by
  rw [ofLiteral, h]

/-- A string literal is read as its prefix and the text that is written between its quotes. -/
theorem stringOf_quoted {e : List Char} (he : ∀ c ∈ e, c ≠ '"' ∧ c ≠ '\'') {s w : List Char}
    (h : Text.unescape w = .ok s) :
    stringOf (e ++ '"' :: (w ++ ['"'])) = .ok (.text (textKind e) (String.ofList s)) := by
  have hUnquote : unquote (e ++ '"' :: (w ++ ['"'])) = (e, w) := by
    have hMark : ∀ c ∈ e, (!(c == '"' || c == '\'')) = true := by
      intro c hc
      simp [he c hc]
    unfold unquote
    dsimp only
    rw [List.takeWhile_append_of_pos hMark, List.dropWhile_append_of_pos hMark]
    simp
  rw [stringOf, hUnquote]
  dsimp only
  rw [h]
  rfl

/-- A text that is written between double quotes, with escape sequences for backslashes, quotes and
line feeds, behind one of the prefixes or none. It is one token, which covers all that is written, and its
constant is the text, in the kind of the prefix. -/
theorem string_literals (l : Lexicon) (directives : Bool) (source : SourceId) (e : Encoding)
    (s : String) :
    let text := e.mark.toList ++ '"' :: encode s.toList ++ ['"']
    let t : Token := { kind := .literal .string, text := String.ofList text,
                       span := ⟨Position.start, Position.behind text⟩, source }
    Token.ofText l directives source text =
      ([t, Token.finish (Position.behind text) source], none) ∧
    ofLiteral t = .ok (.text e.kind s) := by
  intro text t
  have hEncodes : ∀ c ∈ s.toList, Text.Encodes c (encodeChar c) := fun c _ => encodes_encodeChar c
  have hEncoding : e.mark = "" ∨ e.mark ∈ Lexeme.encodings := by cases e <;> decide
  have hOpens := Lexeme.opens_string (l := l) hEncoding hEncodes (fun c _ => ne_of_encodeChar) []
  have hText : text = e.mark.toList ++ '"' :: (encode s.toList ++ ['"']) := List.append_assoc _ _ _
  refine ⟨Token.ofText_of_opens directives source (hText ▸ hOpens), ?_⟩
  have hMark : ∀ c ∈ e.mark.toList, c ≠ '"' ∧ c ≠ '\'' :=
    List.all_iff_forall_prop.mp (by cases e <;> decide)
  have hKind : textKind e.mark.toList = e.kind := by cases e <;> rfl
  have hString := stringOf_quoted hMark (Text.unescape_flatMap hEncodes)
  have hLiteral : ofLiteralText .string t.text.toList = .ok (.text e.kind s) := by
    rw [String.toList_ofList, hText, ← hKind, ← String.ofList_toList (s := s), String.toList_ofList]
    exact hString
  rw [ofLiteral_of_kind rfl, hLiteral]
  rfl

end Constant

end IdlReader
