import IdlReader.Macro.Expansion
import IdlReader.Proofs.Constant.Quoted
import IdlReader.Proofs.Source.Expansion
import IdlReader.Proofs.Token.Spelling

/-!
# Operators in the bodies of macros

The sign `#` makes one string literal of all tokens of an argument. Their texts are escaped as a whole, so
that the literal is read as these texts again, whatever quotes and backslashes they hold. Only the end of
a line cannot stand in a literal that is scanned.

The sign `##` takes the last of the tokens that came out so far and joins it with the first token of
the argument behind it. Between two parameters that is the last token of the first argument, as long
as this one holds a token; else it is the token in front of the parameters.

* `replaceAll_replaceAll`: both escapes, one after the other, as one pass over the text.
* `stringized_text`: the literal of an argument, as a constant and as a token.
* `Pasting`: a macro that pastes its two parameters.
* `replace_eq_joined`: what comes out, whatever the arguments are.
* `replace_pasting`: what the tokens around the parameters have to do with it.
-/

/-! ## Stringized arguments -/

namespace IdlReader.Macro

/-! ## Escaping -/

/-- A text with another text in the place of each occurrence of a character. -/
def replaceAll (c : Char) (w s : List Char) : List Char := s.flatMap fun d => if d = c then w else [d]

/-- A character as it is escaped. -/
def escapeChar (c : Char) : List Char := if c = '\\' || c = '"' then ['\\', c] else [c]

theorem escapeQuoted_eq_flatMap (s : List Char) : escapeQuoted s = s.flatMap escapeChar := by
  induction s with
  | nil => rfl
  | cons c s ih =>
    rw [escapeQuoted, List.flatMap_cons, ih, escapeChar]
    split <;> rfl

/-- No quote is among what takes the place of a backslash, so the order of the replacements is no
matter for quotes; the backslashes in front of quotes come last and stay single. -/
theorem replaceAll_replaceAll (s : List Char) :
    replaceAll '"' ['\\', '"'] (replaceAll '\\' ['\\', '\\'] s) = escapeQuoted s := by
  rw [escapeQuoted_eq_flatMap, replaceAll, replaceAll, List.flatMap_assoc]
  refine List.flatMap_congr fun c _ => ?_
  unfold escapeChar
  by_cases hSlash : c = '\\'
  · subst hSlash
    rfl
  · by_cases hQuote : c = '"'
    · subst hQuote
      rfl
    · simp [hSlash, hQuote]

theorem encodes_escapeChar (c : Char) : Text.Encodes c (escapeChar c) := by
  unfold escapeChar
  split
  · rename_i hEscaped
    rw [Bool.or_eq_true, decide_eq_true_eq, decide_eq_true_eq] at hEscaped
    rcases hEscaped with rfl | rfl
    · exact .escaped rfl
    · exact .escaped rfl
  · rename_i hPlain
    exact .plain fun hSlash => hPlain (by rw [hSlash]; rfl)

theorem ne_of_escapeChar {c : Char} (h : escapeChar c = [c]) : c ≠ '"' := by
  rintro rfl
  cases h

/-! ## Texts of arguments -/

theorem mem_joinTexts {c : Char} {ts : List Token} (h : c ∈ (joinTexts ts).toList) :
    c = ' ' ∨ ∃ t ∈ ts, c ∈ t.text.toList := by
  induction ts with
  | nil => cases h
  | cons t ts ih =>
    cases ts with
    | nil =>
      rw [joinTexts, List.map_singleton, String.intercalate_singleton] at h
      exact Or.inr ⟨t, List.mem_cons_self, h⟩
    | cons u ts =>
      rw [joinTexts, List.map_cons, List.map_cons, String.intercalate_cons_cons, ← List.map_cons,
        String.toList_append, String.toList_append, List.mem_append, List.mem_append] at h
      rcases h with (hText | hSpace) | hRest
      · exact Or.inr ⟨t, List.mem_cons_self, hText⟩
      · exact Or.inl (List.mem_singleton.mp hSpace)
      · rcases ih hRest with hSpace | ⟨v, hv, hText⟩
        · exact Or.inl hSpace
        · exact Or.inr ⟨v, List.mem_cons_of_mem t hv, hText⟩

theorem toList_stringize (argument : List Token) (place : Token) :
    (stringize argument place).text.toList =
      '"' :: ((joinTexts argument).toList.flatMap escapeChar ++ ['"']) := by
  rw [stringize, Token.point, String.toList_ofList, escapeQuoted_eq_flatMap, List.cons_append]

/-! ## The literal -/

/-- The literal that `#` makes of an argument. Its text holds the texts of the argument with a space
between each two, with each backslash doubled and then a backslash in front of each quote; its constant is
the texts as they are. A text that holds no end of a line is scanned as that one literal. -/
theorem stringized_text (l : Lexicon) (argument : List Token) (place : Token) :
    let t := stringize argument place
    let content := " ".intercalate (argument.map Token.text)
    (∀ (c : Call) (expand : List Token → Except Fault (List Token)) (out : List Token) (next : Token)
        (body : List Token), place.is "#" = true → c.argument? next = some argument →
      c.substitute l expand out (place :: next :: body) = c.substitute l expand (t :: out) body) ∧
    t.text.toList =
      ['"'] ++ replaceAll '"' ['\\', '"'] (replaceAll '\\' ['\\', '\\'] content.toList) ++ ['"'] ∧
    Constant.ofLiteral t = .ok (.text .string content) ∧
    ((∀ a ∈ argument, '\n' ∉ a.text.toList) → ∀ (directives : Bool) (source : SourceId),
      let scanned : Token := { kind := .literal .string, text := t.text,
                               span := ⟨Position.start, Position.behind t.text.toList⟩, source }
      Token.ofText l directives source t.text.toList =
        ([scanned, Token.finish (Position.behind t.text.toList) source], none) ∧
      tokenize l directives source t.text.toList = .ok [scanned]) := by
  intro t content
  have hText := toList_stringize argument place
  have hEncodes : ∀ c ∈ (joinTexts argument).toList, Text.Encodes c (escapeChar c) :=
    fun c _ => encodes_escapeChar c
  refine ⟨?_, ?_, ?_, ?_⟩
  · intro c expand out next body hSharp hArgument
    conv_lhs => unfold Call.substitute
    rw [if_pos hSharp, hArgument]
  · rw [replaceAll_replaceAll, escapeQuoted_eq_flatMap]
    exact hText
  · have hString := Constant.stringOf_quoted (List.forall_mem_nil _) (Text.unescape_flatMap hEncodes)
    have hKind : t.kind = .literal .string := rfl
    rw [Constant.ofLiteral_of_kind hKind, hText, Constant.ofLiteralText]
    rw [List.nil_append, String.ofList_toList] at hString
    rw [hString]
    rfl
  · intro hLines directives source scanned
    have hPlain : ∀ c ∈ (joinTexts argument).toList, escapeChar c = [c] → c ≠ '\n' ∧ c ≠ '"' := by
      intro c hc hSame
      refine ⟨?_, ne_of_escapeChar hSame⟩
      rintro rfl
      rcases mem_joinTexts hc with hSpace | ⟨a, ha, hMem⟩
      · exact absurd hSpace (by decide)
      · exact hLines a ha hMem
    have hOpens := Lexeme.opens_string (l := l) (e := "") (Or.inl rfl) hEncodes hPlain []
    rw [String.toList_empty, List.nil_append, ← hText] at hOpens
    have hAll : Token.ofText l directives source t.text.toList =
        ([scanned, Token.finish (Position.behind t.text.toList) source], none) := by
      have hToken := Token.ofText_of_opens directives source hOpens
      rwa [String.ofList_toList] at hToken
    refine ⟨hAll, ?_⟩
    rw [tokenize, hAll]
    rfl

/-- A string literal that holds an escaped quote, and a character beyond those of one byte. -/
def quotedArgument : List Token :=
  [.point (.literal .string) "\"\\\"\"" .start 0, .point (.literal .character) "'é'" .start 0]

theorem stringized_text_quoted :
    let place := Token.point .operator "#" .start 0
    let t := stringize quotedArgument place
    let c : Call := ⟨⟨"S", some ["x"], "#x", []⟩, [quotedArgument]⟩
    let l := ({} : Environment).lexicon
    c.substitute l .ok [] [place, .point .identifier "x" .start 0] = .ok [t] ∧
    Constant.ofLiteral t = .ok (.text .string "\"\\\"\" 'é'") ∧
    tokenize l false 0 t.text.toList = .ok [{ t with span := ⟨.start, ⟨1, 16⟩⟩ }] := by
  intro place t c l
  obtain ⟨hSharp, -, hConstant, hScanned⟩ := stringized_text l quotedArgument place
  have hLines : ∀ a ∈ quotedArgument, '\n' ∉ a.text.toList := by decide
  have hBehind : Position.behind t.text.toList = ⟨1, 16⟩ := by decide +kernel
  refine ⟨?_, hConstant, ?_⟩
  · rw [hSharp c .ok [] _ [] (by decide) (by decide), Call.substitute]
    rfl
  · rw [(hScanned hLines false 0).2, hBehind]
    rfl

end IdlReader.Macro

/-! ## Pasted arguments -/

namespace IdlReader.Macro

variable {d : MacroDefinition} {l : Lexicon} {expand : List Token → Except Fault (List Token)}

/-! ## Tokens that stay -/

/-- Whether a token of a body stands for itself: it is no operator and names no parameter. -/
structure Verbatim (d : MacroDefinition) (t : Token) : Prop where
  sharp : t.is "#" = false
  paste : t.is "##" = false
  parameter : parameter? (d.parameters.getD []) t = none

theorem substitute_verbatim {c : Call} {t : Token} (h : Verbatim c.definition t)
    (out body : List Token) :
    c.substitute l expand out (t :: body) = c.substitute l expand (t :: out) body := by
  have hNone : c.argument? t = none := by
    unfold Call.argument?
    rw [h.parameter]
    rfl
  cases body with
  | nil =>
    calc c.substitute l expand out [t] = .ok (t :: out).reverse := by
          rw [Call.substitute, h.sharp, h.paste, hNone]
          rfl
      _ = c.substitute l expand (t :: out) [] := by rw [Call.substitute]
  | cons next body =>
    conv_lhs => unfold Call.substitute
    rw [h.sharp, h.paste, hNone]
    rfl

theorem substitute_append {c : Call} {ts : List Token} (h : ∀ t ∈ ts, Verbatim c.definition t)
    (out body : List Token) :
    c.substitute l expand out (ts ++ body) = c.substitute l expand (ts.reverse ++ out) body := by
  induction ts generalizing out with
  | nil => rfl
  | cons t ts ih =>
    obtain ⟨ht, hts⟩ := List.forall_mem_cons.mp h
    rw [List.cons_append, substitute_verbatim ht, ih hts, List.reverse_cons, List.append_assoc]
    rfl

theorem substitute_verbatim_all {c : Call} {ts : List Token}
    (h : ∀ t ∈ ts, Verbatim c.definition t) (out : List Token) :
    c.substitute l expand out ts = .ok (out.reverse ++ ts) := by
  rw [← List.append_nil ts, substitute_append h, Call.substitute, List.reverse_append,
    List.reverse_reverse, List.append_nil]

/-! ## Pasting macros -/

/-- A macro with two parameters that joins them, between tokens that stand for themselves. -/
structure Pasting (d : MacroDefinition) where
  front : List Token
  left : Token
  sign : Token
  right : Token
  back : List Token
  tokens : d.tokens = front ++ left :: sign :: right :: back
  parameters : d.parameters = some [left.text, right.text]
  distinct : left.text ≠ right.text
  isWord_left : left.isWord = true
  isWord_right : right.isWord = true
  isSign : sign.is "##" = true
  verbatim : ∀ t ∈ front ++ back, Verbatim d t

/-- The tokens that two arguments make up when the last token of the first one and the first token of
the second one are joined. An empty argument leaves the other one as it is. -/
def pasted (l : Lexicon) (source : SourceId) (A B : List Token) : Except Fault (List Token) :=
  match A.getLast?, B with
  | none, B => .ok B
  | some _, [] => .ok A
  | some last, first :: B => do
    let joined ← tokenize l false source (last.text ++ first.text).toList
    return A.dropLast ++ joined ++ B

theorem pasted_concat_cons {source : SourceId} (A B : List Token) (last first : Token) :
    pasted l source (A ++ [last]) (first :: B) = do
      let joined ← tokenize l false source (last.text ++ first.text).toList
      return A ++ joined ++ B := by
  unfold pasted
  rw [List.getLast?_concat, List.dropLast_concat]

namespace Pasting

variable {table : MacroTable} {name : Token} {A B : List Token}

theorem argument_left (m : Pasting d) : Call.argument? ⟨d, [A, B]⟩ m.left = some A := by
  unfold Call.argument? parameter?
  rw [m.parameters, m.isWord_left]
  simp [List.findIdx?_cons]

theorem argument_right (m : Pasting d) : Call.argument? ⟨d, [A, B]⟩ m.right = some B := by
  unfold Call.argument? parameter?
  rw [m.parameters, m.isWord_right]
  simp [List.findIdx?_cons, m.distinct]

/-- A name is no operator. -/
theorem not_is_left (m : Pasting d) (hLexical : Lexical d.tokens) {text : String}
    (hText : ¬ IsName text) : m.left.is text = false := by
  have hName : IsName m.left.text := by
    refine hLexical m.left ?_ m.isWord_left
    rw [m.tokens]
    simp
  refine Bool.eq_false_iff.mpr fun hIs => hText ?_
  rw [Token.is, Bool.and_eq_true, beq_iff_eq] at hIs
  exact hIs.2 ▸ hName

theorem not_is_sign (m : Pasting d) : m.sign.is "#" = false := by
  have hSign := m.isSign
  rw [Token.is, Bool.and_eq_true, beq_iff_eq] at hSign
  rw [Token.is, hSign.2, Bool.and_eq_false_iff]
  exact .inr rfl

theorem paste_right (m : Pasting d) (last : Token) :
    Call.paste l ⟨d, [A, B]⟩ last m.sign m.right = do
      let joined ← tokenize l false m.sign.source
        (last.text ++ (B.head?.map Token.text).getD "").toList
      return joined ++ B.tail := by
  unfold Call.paste
  rw [m.argument_right]
  rfl

/-- The tokens that come out behind the sign. -/
theorem substitute_sign (m : Pasting d) (out : List Token) :
    Call.substitute l ⟨d, [A, B]⟩ expand out (m.sign :: m.right :: m.back) =
      match out with
      | [] => fail (.pasteOperand d.name)
      | last :: out => do
        let joined ← tokenize l false m.sign.source
          (last.text ++ (B.head?.map Token.text).getD "").toList
        return out.reverse ++ joined ++ B.tail ++ m.back := by
  unfold Call.substitute
  rw [m.not_is_sign, m.isSign]
  cases out with
  | nil => rfl
  | cons last out =>
    have hBack : ∀ t ∈ m.back, Verbatim (Call.mk d [A, B]).definition t :=
      fun t ht => m.verbatim t (List.mem_append_right _ ht)
    dsimp only
    rw [m.paste_right]
    cases tokenize l false m.sign.source
      (last.text ++ (B.head?.map Token.text).getD "").toList with
    | error fault => rfl
    | ok joined =>
      refine (substitute_verbatim_all hBack _).trans ?_
      rw [List.reverse_append, List.reverse_reverse, ← List.append_assoc]
      rfl

/-- What comes out of a call: the token behind which the sign stands is joined, be it a part of the
first argument or not. -/
theorem replace_eq_joined (m : Pasting d) (hLexical : Lexical d.tokens) :
    replace table expand d name (some [A, B]) =
      match (m.front ++ A).getLast? with
      | none => fail (.pasteOperand d.name)
      | some last => do
        let joined ← tokenize table.lexicon false m.sign.source
          (last.text ++ (B.head?.map Token.text).getD "").toList
        return (m.front ++ A).dropLast ++ joined ++ B.tail ++ m.back := by
  have hArguments : matchArguments name [m.left.text, m.right.text] (some [A, B]) = .ok [A, B] := rfl
  rw [replace, m.parameters]
  dsimp only
  rw [hArguments, m.tokens]
  change Call.substitute table.lexicon ⟨d, [A, B]⟩ expand [] _ = _
  rw [substitute_append fun t ht => m.verbatim t (List.mem_append_left _ ht)]
  unfold Call.substitute
  rw [m.not_is_left hLexical (by decide), m.not_is_left hLexical (by decide), m.argument_left,
    m.isSign]
  refine (m.substitute_sign _).trans ?_
  rw [List.append_nil, ← List.reverse_append]
  rcases List.eq_nil_or_concat' (m.front ++ A) with hNil | ⟨out, last, hLast⟩
  · rw [hNil]
    rfl
  · rw [hLast, List.reverse_concat, List.getLast?_concat, List.dropLast_concat]
    dsimp only
    rw [List.reverse_reverse]

end Pasting

/-- A call of a macro that pastes its parameters. The first argument gives its last token and the
second one its first token, and the tokens around the parameters stay. The last token of the first
argument stays if there is nothing to join it with. But if the first argument is empty, then the
token in front of the parameters is joined, and the call has a fault if there is none. -/
theorem replace_pasting (table : MacroTable) (expand : List Token → Except Fault (List Token))
    (m : Pasting d) (hLexical : Lexical d.tokens) (name : Token) (A B : List Token) :
    let source := m.sign.source
    let result := replace table expand d name (some [A, B])
    (A ≠ [] → B ≠ [] → result = do
      let ts ← pasted table.lexicon source A B
      return m.front ++ ts ++ m.back) ∧
    ((∀ t ∈ A.getLast?, t.IsLexeme table.lexicon) → A ≠ [] → B = [] →
      ∃ ts, result = .ok (m.front ++ ts ++ m.back) ∧
        ts.map (fun t => (t.kind, t.text)) = A.map fun t => (t.kind, t.text)) ∧
    (A = [] → m.front = [] → result = fail (.pasteOperand d.name)) ∧
    (∀ last ∈ m.front.getLast?, A = [] → result = do
      let joined ← tokenize table.lexicon false source
        (last.text ++ (B.head?.map Token.text).getD "").toList
      return m.front.dropLast ++ joined ++ B.tail ++ m.back) := by
  intro source result
  have hResult : result = _ := m.replace_eq_joined hLexical
  rw [hResult]
  refine ⟨fun hA hB => ?_, fun hLast hA hB => ?_, ?_, ?_⟩
  · obtain ⟨out, last, rfl⟩ := (List.eq_nil_or_concat' A).resolve_left hA
    obtain ⟨first, rest, rfl⟩ := List.exists_cons_of_ne_nil hB
    rw [pasted_concat_cons, ← List.append_assoc, List.getLast?_concat, List.dropLast_concat]
    change (do
      let joined ← tokenize table.lexicon false source (last.text ++ first.text).toList
      return m.front ++ out ++ joined ++ rest ++ m.back) = _
    cases tokenize table.lexicon false source (last.text ++ first.text).toList with
    | error fault => rfl
    | ok joined =>
      change Except.ok _ = Except.ok (m.front ++ (out ++ joined ++ rest) ++ m.back)
      simp only [List.append_assoc]
  · obtain ⟨out, last, rfl⟩ := (List.eq_nil_or_concat' A).resolve_left hA
    subst hB
    obtain ⟨last', hAgain, hKind, hText⟩ :=
      Token.tokenize_text source (hLast last List.getLast?_concat)
    refine ⟨out ++ [last'], ?_, by simp [hKind, hText]⟩
    rw [← List.append_assoc, List.getLast?_concat, List.dropLast_concat]
    change (tokenize table.lexicon false source (last.text ++ "").toList >>= fun joined => _) = _
    rw [String.append_empty, hAgain]
    simp
  · rintro rfl hFront
    rw [hFront]
    rfl
  · rintro last hLast rfl
    rw [List.append_nil, hLast]

/-- The macro `D(a, b) long a ## b ;`. -/
def memberMacro : MacroDefinition :=
  ⟨"D", some ["a", "b"], "long a ## b ;",
    [⟨.keyword, "long", ⟨⟨1, 1⟩, ⟨1, 5⟩⟩, 0, false⟩, ⟨.identifier, "a", ⟨⟨1, 6⟩, ⟨1, 7⟩⟩, 0, false⟩,
      ⟨.operator, "##", ⟨⟨1, 8⟩, ⟨1, 10⟩⟩, 0, false⟩,
      ⟨.identifier, "b", ⟨⟨1, 11⟩, ⟨1, 12⟩⟩, 0, false⟩,
      ⟨.separator, ";", ⟨⟨1, 13⟩, ⟨1, 14⟩⟩, 0, false⟩]⟩

/-- The parameters of `memberMacro` and what stands around them. -/
def memberPasting : Pasting memberMacro where
  front := memberMacro.tokens.take 1
  left := ⟨.identifier, "a", ⟨⟨1, 6⟩, ⟨1, 7⟩⟩, 0, false⟩
  sign := ⟨.operator, "##", ⟨⟨1, 8⟩, ⟨1, 10⟩⟩, 0, false⟩
  right := ⟨.identifier, "b", ⟨⟨1, 11⟩, ⟨1, 12⟩⟩, 0, false⟩
  back := memberMacro.tokens.drop 4
  tokens := rfl
  parameters := rfl
  distinct := by decide
  isWord_left := rfl
  isWord_right := rfl
  isSign := rfl
  verbatim := List.forall_mem_cons.mpr ⟨⟨rfl, rfl, rfl⟩,
    List.forall_mem_cons.mpr ⟨⟨rfl, rfl, rfl⟩, List.forall_mem_nil _⟩⟩

/-- The calls `D(x y, 1 + 2)` and `D(x,)` declare `y1` and `x`. -/
theorem replace_pasting_members :
    let table : MacroTable := ⟨({} : Environment).lexicon, [memberMacro]⟩
    let name := Token.point .identifier "D" ⟨5, 1⟩ 0
    let x := Token.point .identifier "x" ⟨5, 3⟩ 0
    let y := Token.point .identifier "y" ⟨5, 5⟩ 0
    let sum := [Token.point (.literal .decInteger) "1" ⟨5, 8⟩ 0,
      Token.point .operator "+" ⟨5, 10⟩ 0, Token.point (.literal .decInteger) "2" ⟨5, 12⟩ 0]
    let texts := fun r : Except Fault (List Token) => r.toOption.map (·.map Token.text)
    texts (replace table .ok memberMacro name (some [[x, y], sum])) =
      some ["long", "x", "y1", "+", "2", ";"] ∧
    texts (replace table .ok memberMacro name (some [[x], []])) = some ["long", "x", ";"] := by
  intro table name x y sum texts
  have hRead : Ok (MacroDefinition.read table.lexicon "D(a, b) long a ## b ;".toList)
      fun d => Lexical d.tokens := IdlReader.each_read lexical_tokenize
  have hLexical : Lexical memberMacro.tokens := hRead memberMacro rfl
  have hLexeme : x.IsLexeme table.lexicon :=
    ⟨⟨1, 1⟩, 'x', [], ⟨.identifier, ['x'], [], []⟩, rfl, nofun, rfl, by decide⟩
  obtain ⟨hJoined, -⟩ := replace_pasting table .ok memberPasting hLexical name [x, y] sum
  obtain ⟨-, hSingle, -⟩ := replace_pasting table .ok memberPasting hLexical name [x] []
  obtain ⟨ts, hResult, hSame⟩ := hSingle (by rintro t ⟨⟩; exact hLexeme) (by decide) rfl
  refine ⟨?_, ?_⟩
  · rw [hJoined (by decide) (by decide)]
    subst x
    subst y
    rfl
  · have hTexts : ts.map Token.text = ["x"] := by
      simpa [x, Token.point] using congrArg (List.map Prod.snd) hSame
    rw [hResult]
    change some (List.map Token.text _) = _
    rw [List.map_append, List.map_append, hTexts]
    rfl

/-- In the call `D(, x)` the first argument is empty, and the token in front of the parameters is
joined with the second one. -/
theorem replace_pasting_differs :
    let table : MacroTable := ⟨({} : Environment).lexicon, [memberMacro]⟩
    let name := Token.point .identifier "D" ⟨1, 1⟩ 0
    let x := Token.point .identifier "x" ⟨1, 5⟩ 0
    let texts := fun r : Except Fault (List Token) => r.toOption.map (·.map Token.text)
    texts (replace table .ok memberMacro name (some [[], [x]])) = some ["longx", ";"] ∧
    texts (do
      let ts ← pasted table.lexicon memberPasting.sign.source [] [x]
      return memberPasting.front ++ ts ++ memberPasting.back) = some ["long", "x", ";"] :=
  ⟨rfl, rfl⟩

end IdlReader.Macro
