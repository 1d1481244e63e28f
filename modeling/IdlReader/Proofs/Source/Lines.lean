import IdlReader.Proofs.Source.Alike
import IdlReader.Proofs.Source.Yield
import IdlReader.Proofs.Token.Line
import IdlReader.Source.Condition

/-!
# Lines

A block is a sequence of lines of text and of groups, which are opened by `#if`, `#ifdef` or
`#ifndef`, have further branches behind `#elif` and `#else` and are closed by `#endif`. Which of its
lines are selected is a choice by recursion: of a group the first branch whose condition holds, or
the one behind `#else`. Conditions are looked at one after the other, as far as the choice needs
them.

A reader passes the lines of a source one by one. Where the source is read a line of text yields its
tokens, elsewhere nothing, whatever its characters are. The directive on a line is met in both
cases.

* `Block.lines`, `Block.selected`: the lines of a block, and the lines of text that are selected.
* `Reader.yields_text`, `Reader.skips_text`: lines of text.
* `Reader.meets_directive`: lines with directives.
-/

/-! ## Blocks -/

namespace IdlReader

/-- A line of text, on which no directive starts. -/
structure TextLine where
  chars : List Char
  single : '\n' ∉ chars
  plain : (chars.dropWhile Text.isIndent).head? ≠ some '#'
deriving DecidableEq

namespace TextLine

/-- Whether a line of text splits into the tokens `ts`, of which none is the name of a macro. -/
def ReadsAs (macros : MacroTable) (line : TextLine) (ts : List Token) : Prop :=
  tokenize macros.lexicon false 0 line.chars = .ok ts ∧
    ∀ t ∈ ts, t.isWord = true → macros.find? t.text = none

/-- The tokens of a line of text. A line that does not split into tokens has none. -/
def tokens (l : Lexicon) (line : TextLine) : List Token :=
  (tokenize l false 0 line.chars).toOption.getD []

theorem ReadsAs.tokens_eq {macros : MacroTable} {line : TextLine} {ts : List Token}
    (h : line.ReadsAs macros ts) : line.tokens macros.lexicon = ts := by
  rw [tokens, h.1]
  rfl

end TextLine

namespace Text

/-- What a directive says of which `body` follows the number sign on the line. -/
def directiveText (body : List Char) : List Char := trimLeft (dropReturn body)

end Text

/-- A line with a directive that has one of these keywords and ends where the line does. -/
structure DirectiveLine (keywords : List String) where
  /-- What precedes the number sign. -/
  indent : List Char
  /-- What follows the number sign. -/
  body : List Char
  blank : ∀ c ∈ indent, Text.isIndent c = true
  single : '\n' ∉ body
  closed : ¬ Text.IsContinued body
  known : String.ofList ((Text.directiveText body).takeWhile Text.isWord) ∈ keywords

namespace DirectiveLine

variable {keywords : List String}

/-- The characters of the line. -/
def chars (d : DirectiveLine keywords) : List Char := d.indent ++ '#' :: d.body

/-- The keyword of the directive. -/
def keyword (d : DirectiveLine keywords) : String :=
  String.ofList ((Text.directiveText d.body).takeWhile Text.isWord)

/-- What follows the keyword. -/
def argument (d : DirectiveLine keywords) : List Char :=
  (Text.directiveText d.body).dropWhile Text.isWord

end DirectiveLine

/-- The keywords that open a group. -/
def openingKeywords : List String := ["if", "ifdef", "ifndef"]

mutual

/-- A sequence of lines of text and of groups. -/
inductive Block where
  | nil
  | text (line : TextLine) (next : Block)
  | group (opening : DirectiveLine openingKeywords) (body : Block) (branches : Branches)
      (next : Block)

/-- What follows the first branch of a group: further branches and the end. -/
inductive Branches where
  | endif (closing : DirectiveLine ["endif"])
  | otherwise (line : DirectiveLine ["else"]) (body : Block) (closing : DirectiveLine ["endif"])
  | elif (line : DirectiveLine ["elif"]) (body : Block) (rest : Branches)

end

mutual

/-- The lines of a block. -/
def Block.lines : Block → List (List Char)
  | .nil => []
  | .text line next => line.chars :: next.lines
  | .group opening body branches next =>
    opening.chars :: (body.lines ++ (branches.lines ++ next.lines))

/-- The lines of the branches of a group. -/
def Branches.lines : Branches → List (List Char)
  | .endif closing => [closing.chars]
  | .otherwise line body closing => line.chars :: (body.lines ++ [closing.chars])
  | .elif line body rest => line.chars :: (body.lines ++ rest.lines)

end

/-- The text of a block, with line feeds between the lines. -/
def Block.source (b : Block) : List Char := ['\n'].intercalate b.lines

/-! ## Choice -/

/-- Whether the macro that a text names is defined, if the text is a name. -/
def MacroTable.defines? (macros : MacroTable) (text : List Char) : Option Bool :=
  let name := Text.trim text
  if Text.isName name then some (macros.isDefined (String.ofList name)) else none

/-- Whether the condition of a directive holds, if it is well formed. -/
def DirectiveLine.holds? {keywords : List String} (macros : MacroTable)
    (d : DirectiveLine keywords) : Option Bool :=
  if d.keyword = "ifdef" then macros.defines? d.argument
  else if d.keyword = "ifndef" then (macros.defines? d.argument).map not
  else (Condition.holds macros (Token.finish ⟨0, 0⟩ 0) d.argument).toOption

mutual

/-- The lines of text that are selected, if the conditions that decide it are well formed. -/
def Block.selected (macros : MacroTable) : Block → Option (List TextLine)
  | .nil => some []
  | .text line next => (next.selected macros).map (line :: ·)
  | .group opening body branches next =>
    (opening.holds? macros).bind fun holds =>
      (if holds then body.selected macros else branches.selected macros).bind fun chosen =>
        (next.selected macros).map (chosen ++ ·)

/-- The lines that are selected where no earlier branch was. -/
def Branches.selected (macros : MacroTable) : Branches → Option (List TextLine)
  | .endif _ => some []
  | .otherwise _ body _ => body.selected macros
  | .elif line body rest =>
    (line.holds? macros).bind fun holds =>
      if holds then body.selected macros else rest.selected macros

end

/-! ## Lines behind each other -/

/-- What follows the first line in front of the lines `ls`. -/
def behindLine (ls : List (List Char)) : List Char :=
  if ls.isEmpty then [] else '\n' :: ['\n'].intercalate ls

theorem isLineEnd_behindLine (ls : List (List Char)) : Text.IsLineEnd (behindLine ls) := by
  unfold behindLine
  split
  · exact Or.inl rfl
  · exact Or.inr ⟨_, rfl⟩

/-- Between lines there is white space. -/
theorem isSpace_of_mem_behindLine {ls : List (List Char)} {c : Char}
    (h : c ∈ (behindLine ls).take 1) : Lexeme.isSpace c = true := by
  cases ls with
  | nil => cases h
  | cons l ls =>
    rw [List.mem_singleton.mp h]
    rfl

theorem drop_behindLine (ls : List (List Char)) :
    (behindLine ls).drop 1 = ['\n'].intercalate ls := by
  cases ls <;> rfl

theorem intercalate_cons_behindLine (l : List Char) (ls : List (List Char)) :
    ['\n'].intercalate (l :: ls) = l ++ behindLine ls := by
  cases ls with
  | nil => simp [behindLine, List.intercalate]
  | cons m ls => simp [behindLine, List.intercalate]

end IdlReader

/-! ## Readers -/

namespace IdlReader

namespace Cursor

variable {c : Cursor} {l : List Char} {ls : List (List Char)}

/-- Whether the lines `ls` are what a cursor has left, at the start of the first one. -/
structure AtLines (c : Cursor) (ls : List (List Char)) : Prop where
  within : c.within = 0
  rest : c.rest = ['\n'].intercalate ls
  start : ls ≠ [] → c.IsBehind []

/-- The cursor behind the line `l`, in front of the lines `ls`. -/
def overLine (c : Cursor) (l : List Char) (ls : List (List Char)) : Cursor :=
  c.moveOver (l ++ (behindLine ls).take 1) ((behindLine ls).drop 1)

theorem AtLines.rest_cons (h : c.AtLines (l :: ls)) : c.rest = l ++ behindLine ls := by
  rw [h.rest, intercalate_cons_behindLine]

theorem AtLines.isBehind (h : c.AtLines (l :: ls)) : c.IsBehind [] := h.start (List.cons_ne_nil l ls)

theorem AtLines.overLine (h : c.AtLines (l :: ls)) : (c.overLine l ls).AtLines ls := by
  refine ⟨rfl, drop_behindLine ls, fun hSome => ?_⟩
  cases ls with
  | nil => exact absurd rfl hSome
  | cons m ls => exact isBehind_moveOver_line c l _

theorem length_overLine_le (h : c.rest = l ++ behindLine ls) :
    (c.overLine l ls).rest.length ≤ c.rest.length := by
  rw [h, List.length_append]
  change ((behindLine ls).drop 1).length ≤ _
  rw [List.length_drop]
  omega

end Cursor

namespace Reader

open Cursor (AtLines)

variable {r : Reader} {f : Frame} {o : List Frame} {s : Sections} {c : Cursor} {g : Gathered}
  {ls : List (List Char)}

/-! ## Lines of text -/

/-- Whether a token is one of those that lines of text stand for. -/
def isDelivered (t : Token) : Bool := t.kind ≠ .comment ∧ t.kind ≠ .finish

/-- What is left of a line of text yields its tokens, and the reader comes to the next line. -/
theorem yields_rest {source : SourceId} {n : Nat} {d : Cursor} {before : List Char}
    {line : TextLine} {ts : List Token} (h : s.enabled = true)
    (hAll : Token.readAll r.macros.lexicon false source n d = (ts, none))
    (hText : before ++ d.rest = line.chars) (hc : c.IsBehind before)
    (hRest : c.rest = d.rest ++ behindLine ls)
    (hNames : ∀ t ∈ ts, t.isWord = true → r.macros.find? t.text = none) :
    ∃ us g', Yields (r.placed f o s c, g) us (r.placed f o s (c.overLine d.rest ls), g') ∧
      Alike us (ts.filter isDelivered) := by
  induction n generalizing c d before ts g with
  | zero => cases hAll
  | succ n ih =>
    rw [Token.readAll] at hAll
    cases hNext : Token.next r.macros.lexicon false source d with
    | error fault =>
      rw [hNext] at hAll
      cases hAll
    | ok x =>
      obtain ⟨t, d'⟩ := x
      rw [hNext] at hAll
      dsimp only at hAll
      cases hFinish : t.isFinish with
      | true =>
        rw [hFinish] at hAll
        cases hAll
        have hKind : t.kind = .finish := beq_iff_eq.mp hFinish
        have hNone : [t].filter isDelivered = [] := by simp [isDelivered, hKind]
        rw [hNone]
        refine ⟨[], g, yields_space h ?_ (Cursor.length_overLine_le hRest), .nil⟩
        refine Cursor.skipSpace_moveOver ?_ ?_
        · rw [hRest, List.append_assoc, List.take_append_drop]
        · intro e he
          rcases List.mem_append.mp he with he | he
          · exact Token.isSpace_of_isFinish hNext hFinish e he
          · exact isSpace_of_mem_behindLine he
      | false =>
        rw [hFinish] at hAll
        obtain ⟨hTokens, hFault⟩ := Prod.mk.inj hAll
        rw [← hTokens, List.forall_mem_cons] at hNames
        have hPlain : ∀ sp rest, d.rest = sp ++ '#' :: rest →
            (c.moveOver sp ('#' :: (rest ++ behindLine ls))).atLineStart = false := by
          intro sp rest hSign
          have hLine := line.single
          rw [← hText, hSign] at hLine
          rw [(hc.moveOver (fun hMem => hLine (by simp [hMem])) _).atLineStart]
          refine Bool.eq_false_iff.mpr fun hBlank => line.plain ?_
          rw [← hText, hSign, ← List.append_assoc,
            List.dropWhile_append_of_pos (List.all_eq_true.mp hBlank)]
          rfl
        obtain ⟨t', read, hNext', hAlike, hRead⟩ := Token.next_append f.source
          (isLineEnd_behindLine ls) hRest hPlain hNext hFinish
        have hLine : '\n' ∉ read := by
          intro hMem
          refine line.single ?_
          rw [← hText, hRead]
          simp [hMem]
        have hOver : (c.moveOver read (d'.rest ++ behindLine ls)).overLine d'.rest ls =
            c.overLine d.rest ls := by
          rw [Cursor.overLine, Cursor.moveOver_moveOver, Cursor.overLine, hRead, List.append_assoc]
        have hRestTokens : ∀ g, ∃ us g', Yields
            (r.placed f o s (c.moveOver read (d'.rest ++ behindLine ls)), g) us
            (r.placed f o s (c.overLine d.rest ls), g') ∧
            Alike us ((Token.readAll r.macros.lexicon false source n d').1.filter isDelivered) := by
          intro g
          rw [← hOver]
          refine ih (Prod.ext rfl hFault) ?_ (hc.moveOver hLine _) rfl hNames.2
          rw [List.append_assoc, ← hRead, hText]
        have hKinds : t.kind ≠ .finish ∧ t.kind ≠ .directive :=
          ⟨beq_eq_false_iff_ne.mp hFinish, Token.kind_next _ hNext⟩
        rw [← hTokens, List.filter_cons]
        by_cases hComment : t.kind = .comment
        · have hSkip := yields_comment (f := f) (o := o) (g := g) h hNext'
            (hAlike.kind.trans hComment)
          obtain ⟨us, g', hYields, hAll⟩ := hRestTokens (g.addComment t')
          refine ⟨_, g', hSkip.trans hYields, ?_⟩
          rw [if_neg (by simp [isDelivered, hComment])]
          exact hAll
        · have hToken := yields_token (f := f) (o := o) (g := g) h hNext'
            (hAlike.kind ▸ hKinds.1) (hAlike.kind ▸ hComment) (hAlike.kind ▸ hKinds.2) ?_
          · obtain ⟨us, g', hYields, hAll⟩ := hRestTokens {}
            refine ⟨_, g', hToken.trans hYields, ?_⟩
            rw [if_pos (by simp [isDelivered, hComment, hKinds.1])]
            exact .cons hAlike hAll
          · rw [hAlike.isWord, hAlike.text]
            exact hNames.1

/-- A line of text yields its tokens where the source is read. -/
theorem yields_text {line : TextLine} {ts : List Token} (h : s.enabled = true)
    (hLine : line.ReadsAs r.macros ts) (hc : c.AtLines (line.chars :: ls)) :
    ∃ us g', Yields (r.placed f o s c, g) us
      (r.placed f o s (c.overLine line.chars ls), g') ∧ Alike us ts := by
  obtain ⟨hTokens, hNames⟩ := hLine
  unfold tokenize Token.ofText at hTokens
  split at hTokens
  · cases hTokens
  · rename_i tokens hAll
    cases hTokens
    refine yields_rest h hAll (List.nil_append _) hc.isBehind hc.rest_cons fun t ht hWord => ?_
    refine hNames t (List.mem_filter.mpr ⟨ht, decide_eq_true ⟨?_, ?_⟩⟩) hWord
    · intro hKind
      rw [Token.isWord, Token.isIdentifier, Token.isKeyword, hKind] at hWord
      cases hWord
    · intro hKind
      rw [Token.isWord, Token.isIdentifier, Token.isKeyword, hKind] at hWord
      cases hWord

/-! ### Lines that are not read -/

/-- A character that opens no directive is skipped. -/
theorem skipSection_cons {fresh : Bool} {d : Char} (h : fresh = true → d ≠ '#') (v : List Char) :
    Text.skipSection fresh (d :: v) =
      (d :: (Text.skipSection (d == '\n' || fresh && Text.isIndent d) v).1,
        (Text.skipSection (d == '\n' || fresh && Text.isIndent d) v).2) := by
  rw [Text.skipSection, if_neg (by simpa using h)]
  rfl

theorem skipSection_line {l : List Char} (hLine : '\n' ∉ l) (v : List Char) :
    Text.skipSection false (l ++ '\n' :: v) =
      (l ++ '\n' :: (Text.skipSection true v).1, (Text.skipSection true v).2) := by
  induction l with
  | nil => rfl
  | cons d l ih =>
    have hChar : (d == '\n') = false :=
      beq_eq_false_iff_ne.mpr fun hEq => hLine (hEq ▸ List.mem_cons_self)
    rw [List.cons_append, skipSection_cons (fun h => absurd h Bool.false_ne_true), hChar, Bool.false_and, Bool.or_false,
      ih fun hMem => hLine (List.mem_cons_of_mem d hMem)]
    rfl

theorem skipSection_text {l : List Char} (hLine : '\n' ∉ l)
    (hPlain : (l.dropWhile Text.isIndent).head? ≠ some '#') (v : List Char) :
    Text.skipSection true (l ++ '\n' :: v) =
      (l ++ '\n' :: (Text.skipSection true v).1, (Text.skipSection true v).2) := by
  induction l with
  | nil => rfl
  | cons d l ih =>
    have hRest : '\n' ∉ l := fun hMem => hLine (List.mem_cons_of_mem d hMem)
    have hChar : (d == '\n') = false :=
      beq_eq_false_iff_ne.mpr fun hEq => hLine (hEq ▸ List.mem_cons_self)
    have hSign : d ≠ '#' := by
      rintro rfl
      exact hPlain rfl
    rw [List.cons_append, skipSection_cons (fun _ => hSign), hChar, Bool.true_and, Bool.false_or]
    cases hIndent : Text.isIndent d with
    | true =>
      rw [List.dropWhile_cons_of_pos hIndent] at hPlain
      rw [ih hRest hPlain]
      rfl
    | false =>
      rw [skipSection_line hRest]
      rfl

theorem skipSection_indent {indent : List Char} (h : ∀ d ∈ indent, Text.isIndent d = true)
    (v : List Char) : Text.skipSection true (indent ++ '#' :: v) = (indent, '#' :: v) := by
  induction indent with
  | nil => rfl
  | cons d indent ih =>
    rw [List.forall_mem_cons] at h
    have hSign : d ≠ '#' := by
      rintro rfl
      cases h.1
    rw [List.cons_append, skipSection_cons (fun _ => hSign), h.1, Bool.true_and, Bool.or_true,
      ih h.2]

/-- A line of text yields nothing where the source is not read. -/
theorem skips_text {line : TextLine} (h : s.enabled = false) (hSome : ls ≠ [])
    (hc : c.AtLines (line.chars :: ls)) :
    Yields (r.placed f o s c, g) [] (r.placed f o s (c.overLine line.chars ls), g) := by
  refine yields_skipped ?_ (Cursor.length_overLine_le hc.rest_cons)
  have hStart : c.atLineStart = true := hc.isBehind.atLineStart
  have hStart' : (c.overLine line.chars ls).atLineStart = true :=
    (hc.overLine.start hSome).atLineStart
  obtain ⟨v, hv⟩ : ∃ v, behindLine ls = '\n' :: v := by
    cases ls with
    | nil => exact absurd rfl hSome
    | cons l ls => exact ⟨_, rfl⟩
  have hOver : c.overLine line.chars ls = c.moveOver (line.chars ++ ['\n']) v := by
    rw [Cursor.overLine, hv]
    rfl
  rw [skipDisabled_placed_of_disabled h, skipDisabled_placed_of_disabled h, hStart, hStart',
    hc.rest_cons, hv, skipSection_text line.single line.plain, hOver, Cursor.moveOver_moveOver,
    List.append_assoc]
  rfl

/-! ## Directives -/

theorem isSpace_of_isIndent {d : Char} (h : Text.isIndent d = true) : Lexeme.isSpace d = true := by
  rw [Text.isIndent, Bool.or_eq_true, Bool.or_eq_true, beq_iff_eq, beq_iff_eq, beq_iff_eq] at h
  rcases h with (rfl | rfl) | rfl <;> rfl

/-- The directive whose number sign stands at a cursor, on a line that no further one continues. -/
theorem directive_of_sign (source : SourceId) {e : Cursor} {body u : List Char}
    (h : e.rest = '#' :: (body ++ u)) (hu : Text.IsLineEnd u) (hLine : '\n' ∉ body)
    (hClosed : ¬ Text.IsContinued body) :
    (Token.directive source e).1.text = String.ofList (Text.directiveText body) ∧
      (Token.directive source e).2 = e.moveOver ('#' :: (body ++ u.take 1)) (u.drop 1) := by
  have hRead : (e.moveOver (e.rest.take 1) (e.rest.drop 1)).readLogicalLine =
      (Text.dropReturn body, e.moveOver ('#' :: (body ++ u.take 1)) (u.drop 1)) := by
    have hWithin : (e.moveOver (e.rest.take 1) (e.rest.drop 1)).within = 0 := rfl
    rw [Cursor.readLogicalLine, if_pos hWithin, h]
    change ((Text.logicalLine (body ++ u)).1, (e.moveOver ['#'] (body ++ u)).moveOver
      (Text.logicalLine (body ++ u)).2.1 (Text.logicalLine (body ++ u)).2.2) = _
    rw [Text.logicalLine_append_of_not_continued hu hLine hClosed, Cursor.moveOver_moveOver]
    rfl
  unfold Token.directive
  rw [hRead]
  exact ⟨rfl, rfl⟩

/-- The directive on a line is met whether the source is read or not. -/
theorem meets_directive {keywords : List String} (d : DirectiveLine keywords)
    (hc : c.AtLines (d.chars :: ls)) : ∃ t : Token, t.kind = .directive ∧
      t.keyword = d.keyword ∧ t.behindKeyword = d.argument ∧
      ∀ s, (r.placed f o s c).Meets t (r.placed f o s (c.overLine d.chars ls)) := by
  have hStart : c.atLineStart = true := hc.isBehind.atLineStart
  have hText : c.rest = d.indent ++ '#' :: (d.body ++ behindLine ls) := by
    rw [hc.rest_cons, DirectiveLine.chars, List.append_assoc, List.cons_append]
  -- both ways to the number sign come to this place
  generalize hSign : c.moveOver d.indent ('#' :: (d.body ++ behindLine ls)) = e
  have hSignStart : e.atLineStart = true := by
    rw [← hSign, (hc.isBehind.moveOver _ _).atLineStart]
    · exact List.all_eq_true.mpr d.blank
    · intro hMem
      cases d.blank _ hMem
  have hSignText : e.rest = '#' :: (d.body ++ behindLine ls) := by
    rw [← hSign]
    rfl
  have hSkip : c.skipSpace = e ∧ e.skipSpace = e := by
    refine ⟨?_, ?_⟩
    · rw [← hSign]
      exact Cursor.skipSpace_of_rest hText (fun a ha => isSpace_of_isIndent (d.blank a ha)) rfl
    · rw [@Cursor.skipSpace_of_rest e [] _ hSignText nofun rfl, ← hSignText]
      refine Cursor.moveOver_nil ?_
      rw [← hSign]
      rfl
  have hNext : ∀ x : Cursor, x.skipSpace = e → Token.next r.macros.lexicon true f.source x =
      .ok (Token.directive f.source e) := by
    intro x hx
    unfold Token.next
    dsimp only
    rw [hx, hSignText]
    dsimp only
    rw [if_pos ⟨rfl, rfl, hSignStart⟩]
  obtain ⟨hDirectiveText, hOver⟩ := directive_of_sign f.source hSignText
    (isLineEnd_behindLine ls) d.single d.closed
  have hEnd : (Token.directive f.source e).2 = c.overLine d.chars ls := by
    rw [hOver, ← hSign, Cursor.moveOver_moveOver, Cursor.overLine, DirectiveLine.chars,
      List.append_assoc]
    rfl
  refine ⟨(Token.directive f.source e).1, rfl, ?_, ?_, fun s => ?_⟩
  · rw [Token.keyword, hDirectiveText, String.toList_ofList]
    rfl
  · rw [Token.behindKeyword, hDirectiveText, String.toList_ofList]
    rfl
  · rw [← hEnd]
    cases hEnabled : s.enabled with
    | true => exact meets_placed hEnabled (hNext c hSkip.1)
    | false =>
      rw [Meets, skipDisabled_placed_of_disabled hEnabled, hStart, hText,
        skipSection_indent d.blank, raw_placed, hSign, hNext e hSkip.2]
      rfl

end Reader
end IdlReader
