import IdlReader.Comment
import Mathlib.Data.List.Perm.Basic

/-!
# What comments say about themselves

A comment starts with two characters that tell its style; up to two more of its marker tell its
format and whether it follows what it describes. Behind the marker stand the lines that it adds to
a text. The comments in front of the first one that adds a line leave nothing behind. From there on
the flags of a text say of all comments together what each of them says of itself, so their order
does not matter.

Words of flags that are mixed otherwise, of no style or of both formats, can be written. No marker
stands for one, and the edits of a word by which a comment is added lead to none.

* `Flags.merge_made`: the edits of a word that has one style and at most one format.
* `marker?_opens`: the marker of a comment and the flags that it stands for.
* `read?_line`, `read?_block`: the lines and flags of one comment.
* `jointFlags_merge`: one more comment.
* `combine_flags`: the flags of a text.
-/

namespace IdlReader.Comment

/-! ## Words of flags -/

/-- How a comment is delimited. -/
inductive Style where
  /-- Between `/*` and `*/`. -/
  | block
  /-- From `//` to the end of the line. -/
  | line
deriving DecidableEq, Repr

/-- The documentation format that a comment's marker announces. -/
inductive Format where
  | javadoc
  | qt
deriving DecidableEq, Repr

namespace Style

def flag : Style → Flags
  | block => .block
  | line => .line

/-- The style of comments of two styles. -/
def join (s t : Style) : Style := if s = t then s else block

end Style

namespace Format

def flag : Option Format → Flags
  | none => {}
  | some javadoc => .javadoc
  | some qt => .qt

/-- What becomes of a format if that of another comment differs from it. -/
def settle (f g : Option Format) : Option Format :=
  if f.isSome ∧ g.isSome ∧ f ≠ g then some javadoc else f

end Format

namespace Flags

/-- The word with the flags of one style and of at most one format. -/
def made (style : Style) (format : Option Format) (succeeds : Bool) : Flags :=
  style.flag ||| Format.flag format ||| if succeeds then succeeding else {}

variable (s t : Style) (f g : Option Format) (b c : Bool)

theorem isFormatted_made : (made s f b).isFormatted = f.isSome := by
  rcases f with _ | _ | _ <;> cases s <;> cases b <;> rfl

theorem settleFormats_made :
    (made s f b).settleFormats (made t g c) = made s (Format.settle f g) b := by
  rcases f with _ | _ | _ <;> rcases g with _ | _ | _ <;> cases s <;> cases t <;> cases b <;>
    cases c <;> rfl

theorem adoptFormat_made : (made s f b).adoptFormat (made t g c) = made s (f.or g) b := by
  unfold adoptFormat
  rw [isFormatted_made, isFormatted_made]
  rcases f with _ | f
  · rcases g with _ | _ | _ <;> cases s <;> cases t <;> cases b <;> cases c <;> rfl
  · rw [Option.isSome_some, Bool.not_true, Bool.and_false]
    rfl

theorem settleStyles_made : (made s f b).settleStyles (made t g c) = made (s.join t) f b := by
  rcases f with _ | _ | _ <;> rcases g with _ | _ | _ <;> cases s <;> cases t <;> cases b <;>
    cases c <;> rfl

theorem settlePlaces_made : (made s f b).settlePlaces (made t g c) = made s f (b && c) := by
  rcases f with _ | _ | _ <;> rcases g with _ | _ | _ <;> cases s <;> cases t <;> cases b <;>
    cases c <;> rfl

/-- A word of one style and at most one format stays one when a comment is added. -/
theorem merge_made : (made s f b).merge (made t g c) =
    made (s.join t) ((Format.settle f g).or g) (b && c) := by
  unfold merge
  rw [settleFormats_made, adoptFormat_made, settleStyles_made, settlePlaces_made]

theorem bits_injective : Function.Injective bits :=
  fun _ _ h => congrArg Flags.mk (UInt32.toNat_inj.mp h)

theorem contains_made : (made s f b).contains block = decide (s = .block) ∧
    (made s f b).contains line = decide (s = .line) ∧
    (made s f b).contains javadoc = decide (f = some .javadoc) ∧
    (made s f b).contains qt = decide (f = some .qt) ∧ (made s f b).contains succeeding = b := by
  rcases f with _ | _ | _ <;> cases s <;> cases b <;> decide

end Flags

/-! ## Markers -/

/-- Whether a text starts with one of several words. -/
def startsWithAny (words : List (List Char)) (text : List Char) : Bool :=
  words.any fun w => w.isPrefixOf text

/-- Whether a comment is one from `//` to the end of the line. -/
def isLine : List Char → Bool := startsWithAny [['/', '/']]

/-- Whether the marker of a comment is `/**` or `///`. -/
def isJavadoc : List Char → Bool := startsWithAny [['/', '*', '*'], ['/', '/', '/']]

/-- Whether the marker of a comment is `/*!` or `//!`. -/
def isQt : List Char → Bool := startsWithAny [['/', '*', '!'], ['/', '/', '!']]

/-- Whether the marker of a comment ends in `<`, which puts it behind what it describes. -/
def isTrailing : List Char → Bool :=
  startsWithAny [['/', '*', '*', '<'], ['/', '*', '!', '<'], ['/', '/', '/', '<'],
    ['/', '/', '!', '<']]

/-- What a comment says about itself. -/
def ownFlags (text : List Char) : Flags :=
  .made (if isLine text then .line else .block)
    (if isJavadoc text then some .javadoc else if isQt text then some .qt else none)
    (isTrailing text)

/-- What belongs to the marker of a comment behind its first two characters, of which `c` is the
second one. -/
def opening (c : Char) : List Char → List Char
  | [] => []
  | d :: s =>
    if d = c ∨ d = '!' then d :: if s.head? = some '<' then ['<'] else [] else []

/-- The third character of a comment is one of a marker or not, and so is the fourth. -/
theorem marker?_opens {c : Char} (hc : c = '*' ∨ c = '/') (s : List Char) :
    marker? ('/' :: c :: s) = some ('/' :: c :: opening c s, ownFlags ('/' :: c :: s)) := by
  have hFourth : ∀ d : Char, d = c ∨ d = '!' → ∀ s : List Char,
      marker? ('/' :: c :: d :: s) =
        some ('/' :: c :: opening c (d :: s), ownFlags ('/' :: c :: d :: s)) := by
    rintro d hd (_ | ⟨e, s⟩)
    · rcases hc with rfl | rfl <;> rcases hd with rfl | rfl <;> rfl
    · by_cases he : e = '<'
      · subst he
        rcases hc with rfl | rfl <;> rcases hd with rfl | rfl <;> rfl
      · have hOther : ('<' == e) = false := beq_false_of_ne (Ne.symm he)
        rcases hc with rfl | rfl <;> rcases hd with rfl | rfl <;>
          simp [marker?, markers, opening, ownFlags, isLine, isJavadoc, isQt, isTrailing,
            startsWithAny, List.isPrefixOf, hOther, he] <;> rfl
  rcases s with _ | ⟨d, s⟩
  · rcases hc with rfl | rfl <;> rfl
  · by_cases hd : d = c ∨ d = '!'
    · exact hFourth d hd s
    · obtain ⟨hSame, hMark⟩ := not_or.mp hd
      have hOther : ('!' == d) = false := beq_false_of_ne (Ne.symm hMark)
      have hOther' : (c == d) = false := beq_false_of_ne (Ne.symm hSame)
      rcases hc with rfl | rfl <;>
        simp [marker?, markers, opening, ownFlags, isLine, isJavadoc, isQt, isTrailing,
          startsWithAny, List.isPrefixOf, hOther, hOther', hd] <;> rfl

theorem contains_block_ownFlags (text : List Char) :
    (ownFlags text).contains .block = !isLine text := by
  unfold ownFlags
  rw [(Flags.contains_made _ _ _).1]
  cases isLine text <;> rfl

/-! ## Lines and flags of one comment -/

/-- Whether a text is a comment: one from `//` on, or one between `/*` and `*/`. -/
def IsComment (text : List Char) : Prop :=
  ['/', '/'] <+: text ∨ ['/', '*'] <+: text ∧ ['*', '/'] <:+ text.drop 2

instance : DecidablePred IsComment := fun _ => inferInstanceAs (Decidable (_ ∨ _))

theorem isComment_iff {text : List Char} : IsComment text ↔
    (∃ s, text = '/' :: '/' :: s) ∨ ∃ body, text = '/' :: '*' :: (body ++ ['*', '/']) := by
  constructor
  · rintro (⟨s, rfl⟩ | ⟨⟨s, rfl⟩, body, hBody⟩)
    · exact .inl ⟨s, rfl⟩
    · exact .inr ⟨body, congrArg (fun s => '/' :: '*' :: s) hBody.symm⟩
  · rintro (⟨s, rfl⟩ | ⟨body, rfl⟩)
    · exact .inl ⟨s, rfl⟩
    · exact .inr ⟨⟨body ++ ['*', '/'], rfl⟩, body, rfl⟩

/-- The lines that a comment adds to a text. -/
def contributed (t : Token) : List (List Char) := ((read? t.text.toList).map Prod.fst).getD []

/-- What stands between the marker of a block comment and its end. -/
def behindMarker (body : List Char) : List Char :=
  body.drop (opening '*' (body ++ ['*', '/'])).length

theorem isClosed_block (body : List Char) :
    isClosed ('/' :: '*' :: (body ++ ['*', '/'])) = true := by
  have hSize : 4 ≤ Text.byteSize ('/' :: '*' :: (body ++ ['*', '/'])) := by
    rw [Text.byteSize_cons, Text.byteSize_cons, Text.byteSize_append]
    change 4 ≤ 1 + (1 + (Text.byteSize body + 2))
    omega
  rw [isClosed, decide_eq_true hSize, Bool.true_and, List.isSuffixOf_iff_suffix]
  exact ⟨'/' :: '*' :: body, rfl⟩

theorem ofBlock_block (body : List Char) :
    ofBlock ('/' :: '*' :: opening '*' (body ++ ['*', '/'])) ('/' :: '*' :: (body ++ ['*', '/'])) =
      blockLines ((behindMarker body).length + 1) true (behindMarker body) := by
  have hBody : ∀ k, ((body ++ ['*', '/']).drop k).take (body.length - k) = body.drop k := by
    intro k
    rw [List.drop_append, List.take_append_of_le_length (by simp), List.take_of_length_le (by simp)]
  have hLength : ('/' :: '*' :: (body ++ ['*', '/'])).length - 2 -
      ('/' :: '*' :: opening '*' (body ++ ['*', '/'])).length =
        body.length - (opening '*' (body ++ ['*', '/'])).length := by
    simp only [List.length_cons, List.length_append, List.length_nil]
    omega
  unfold ofBlock
  rw [hLength]
  exact congrArg (fun s => blockLines (s.length + 1) true s) (hBody _)

theorem read?_line (s : List Char) : read? ('/' :: '/' :: s) =
    some (ofLine ('/' :: '/' :: opening '/' s) ('/' :: '/' :: s), ownFlags ('/' :: '/' :: s)) := by
  have hLine : (ownFlags ('/' :: '/' :: s)).contains .block = false :=
    contains_block_ownFlags _
  unfold read?
  rw [marker?_opens (.inr rfl), Option.bind_eq_bind, Option.bind_some]
  dsimp only
  rw [hLine]
  rfl

theorem read?_block (body : List Char) : read? ('/' :: '*' :: (body ++ ['*', '/'])) =
    some (blockLines ((behindMarker body).length + 1) true (behindMarker body),
      ownFlags ('/' :: '*' :: (body ++ ['*', '/']))) := by
  have hBlock : (ownFlags ('/' :: '*' :: (body ++ ['*', '/']))).contains .block = true :=
    contains_block_ownFlags _
  unfold read?
  rw [marker?_opens (.inl rfl), ← ofBlock_block, Option.bind_eq_bind, Option.bind_some]
  dsimp only
  rw [if_pos hBlock, if_pos (isClosed_block body)]

theorem read?_of_isComment {t : Token} (h : IsComment t.text.toList) :
    read? t.text.toList = some (contributed t, ownFlags t.text.toList) := by
  unfold contributed
  rcases isComment_iff.mp h with ⟨s, hText⟩ | ⟨body, hText⟩
  · rw [hText, read?_line]
    rfl
  · rw [hText, read?_block]
    rfl

/-- A text made of one comment. -/
theorem combine_singleton {t : Token} {lines : List (List Char)} {flags : Flags}
    (h : read? t.text.toList = some (lines, flags)) :
    combine [t] = ("\n".intercalate (lines.map String.ofList), flags) := by
  simp [combine, add, h]

/-! ## Flags of several comments -/

/-- What comments say about themselves together: they are lines if all of them are, the format is
that of any of them where Javadoc goes first, and they follow what they describe if all of them
do. -/
def jointFlags (texts : List (List Char)) : Flags :=
  .made (if texts.all isLine then .line else .block)
    (if texts.any isJavadoc then some .javadoc else if texts.any isQt then some .qt else none)
    (texts.all isTrailing)

theorem jointFlags_singleton (text : List Char) : jointFlags [text] = ownFlags text := by
  simp [jointFlags, ownFlags]

theorem join_styles (b c : Bool) :
    Style.join (if b then .line else .block) (if c then .line else .block) =
      if b && c then .line else .block := by
  cases b <;> cases c <;> rfl

/-- Javadoc goes first, whichever comment is added to which. -/
theorem settle_formats (j j' q q' : Bool) :
    let f := if j then some Format.javadoc else if q then some .qt else none
    let g := if j' then some Format.javadoc else if q' then some .qt else none
    (Format.settle f g).or g =
      if j || j' then some .javadoc else if q || q' then some .qt else none := by
  cases j <;> cases j' <;> cases q <;> cases q' <;> rfl

/-- One more comment makes the flags those of all comments together. -/
theorem jointFlags_merge (texts : List (List Char)) (text : List Char) :
    (jointFlags texts).merge (ownFlags text) = jointFlags (texts ++ [text]) := by
  unfold jointFlags ownFlags
  rw [Flags.merge_made, join_styles, settle_formats]
  simp only [List.all_append, List.all_cons, List.all_nil, Bool.and_true, List.any_append,
    List.any_cons, List.any_nil, Bool.or_false]

theorem jointFlags_perm {texts texts' : List (List Char)} (h : texts.Perm texts') :
    jointFlags texts = jointFlags texts' := by
  simp only [jointFlags, h.all_eq, h.any_eq]

/-- The flags as bits: one of two for the style, at most one of two for the format, and one for the
place. -/
theorem bits_jointFlags (texts : List (List Char)) :
    (jointFlags texts).bits =
      (if texts.all isLine then 0x2 else 0x1) +
      (if texts.any isJavadoc then 0x10 else if texts.any isQt then 0x20 else 0) +
      (if texts.all isTrailing then 0x100 else 0) := by
  unfold jointFlags
  cases texts.all isLine <;> cases texts.any isJavadoc <;> cases texts.any isQt <;>
    cases texts.all isTrailing <;> rfl

/-- What is set and what is not. -/
theorem contains_jointFlags (texts : List (List Char)) :
    (jointFlags texts).contains .block = !texts.all isLine ∧
    (jointFlags texts).contains .line = texts.all isLine ∧
    (jointFlags texts).contains .javadoc = texts.any isJavadoc ∧
    (jointFlags texts).contains .qt = (texts.any isQt && !texts.any isJavadoc) ∧
    (jointFlags texts).contains .succeeding = texts.all isTrailing := by
  obtain ⟨hBlock, hLine, hJavadoc, hQt, hPlace⟩ := Flags.contains_made
    (if texts.all isLine then .line else .block)
    (if texts.any isJavadoc then some .javadoc else if texts.any isQt then some .qt else none)
    (texts.all isTrailing)
  refine ⟨hBlock.trans ?_, hLine.trans ?_, hJavadoc.trans ?_, hQt.trans ?_, hPlace⟩
  · cases texts.all isLine <;> rfl
  · cases texts.all isLine <;> rfl
  · cases texts.any isJavadoc <;> cases texts.any isQt <;> rfl
  · cases texts.any isJavadoc <;> cases texts.any isQt <;> rfl

/-! ## Runs over comments -/

/-- The lines and flags that comments make of others before them. -/
def addAll (r : List (List Char) × Flags) (cs : List Token) : List (List Char) × Flags :=
  cs.foldl (fun r t => add r.1 r.2 t.text.toList) r

variable {t : Token} {before after cs : List Token} {lines : List (List Char)} {flags : Flags}

theorem addAll_cons (r : List (List Char) × Flags) (t : Token) (cs : List Token) :
    addAll r (t :: cs) = addAll (add r.1 r.2 t.text.toList) cs := rfl

theorem addAll_append (r : List (List Char) × Flags) (cs ds : List Token) :
    addAll r (cs ++ ds) = addAll (addAll r cs) ds := List.foldl_append

theorem add_of_isComment (h : IsComment t.text.toList) :
    add lines flags t.text.toList = (lines ++ contributed t,
      if lines.isEmpty then ownFlags t.text.toList else flags.merge (ownFlags t.text.toList)) := by
  rw [add, read?_of_isComment h]

/-- As long as no comment adds a line there is none. -/
theorem addAll_of_silent (h : ∀ c ∈ before, IsComment c.text.toList)
    (hSilent : ∀ c ∈ before, contributed c = []) : (addAll ([], flags) before).1 = [] := by
  induction before generalizing flags with
  | nil => rfl
  | cons c before ih =>
    rw [List.forall_mem_cons] at h hSilent
    rw [addAll_cons, add_of_isComment h.1, hSilent.1]
    exact ih h.2 hSilent.2

/-- Behind a line every comment has its say. -/
theorem addAll_of_lines {texts : List (List Char)} (hLines : lines ≠ [])
    (h : ∀ c ∈ after, IsComment c.text.toList) :
    (addAll (lines, jointFlags texts) after).2 =
      jointFlags (texts ++ after.map (·.text.toList)) := by
  induction after generalizing lines texts with
  | nil => rw [List.map_nil, List.append_nil]; rfl
  | cons c after ih =>
    rw [List.forall_mem_cons] at h
    have hSome : lines.isEmpty = false := List.isEmpty_eq_false_iff.mpr hLines
    have hMore : lines ++ contributed c ≠ [] := List.append_ne_nil_of_left_ne_nil hLines _
    rw [addAll_cons, add_of_isComment h.1, hSome, jointFlags_merge]
    exact (ih hMore h.2).trans (by rw [List.append_assoc]; rfl)

theorem combine_snd (cs : List Token) : (combine cs).2 = (addAll ([], {}) cs).2 := rfl

/-- The first comment that adds a line and those behind it make up the flags. -/
theorem combine_snd_of_silent (h : ∀ c ∈ before ++ t :: after, IsComment c.text.toList)
    (hSilent : ∀ c ∈ before, contributed c = []) (hLine : contributed t ≠ []) :
    (combine (before ++ t :: after)).2 = jointFlags ((t :: after).map (·.text.toList)) := by
  rw [List.forall_mem_append, List.forall_mem_cons] at h
  obtain ⟨hBefore, ht, hAfter⟩ := h
  have hNone : (addAll ([], {}) before).1 = [] := addAll_of_silent hBefore hSilent
  rw [combine_snd, addAll_append, addAll_cons, hNone, add_of_isComment ht, List.nil_append]
  dsimp only [List.isEmpty_nil]
  rw [if_pos rfl, ← jointFlags_singleton]
  exact addAll_of_lines hLine hAfter

/-- The flags of a text are those of all comments from the first one on that adds a line: one
style, at most one format, and the place. Where every comment adds a line, their order makes no
difference. -/
theorem combine_flags (h : ∀ c ∈ before ++ t :: after, IsComment c.text.toList)
    (hSilent : ∀ c ∈ before, contributed c = []) (hLine : contributed t ≠ []) :
    let texts := (t :: after).map (·.text.toList)
    let flags := (combine (before ++ t :: after)).2
    flags.contains .block = !texts.all isLine ∧ flags.contains .line = texts.all isLine ∧
    flags.contains .javadoc = texts.any isJavadoc ∧
    flags.contains .qt = (texts.any isQt && !texts.any isJavadoc) ∧
    flags.contains .succeeding = texts.all isTrailing ∧
    flags.bits =
      (if texts.all isLine then 0x2 else 0x1) +
      (if texts.any isJavadoc then 0x10 else if texts.any isQt then 0x20 else 0) +
      (if texts.all isTrailing then 0x100 else 0) ∧
    ∀ cs, cs.Perm (t :: after) → (∀ c ∈ cs, contributed c ≠ []) → (combine cs).2 = flags := by
  intro texts flags
  have hFlags : flags = jointFlags texts := combine_snd_of_silent h hSilent hLine
  rw [hFlags]
  obtain ⟨hBlock, hLines, hJavadoc, hQt, hPlace⟩ := contains_jointFlags texts
  refine ⟨hBlock, hLines, hJavadoc, hQt, hPlace, bits_jointFlags texts, fun cs hPerm hAll => ?_⟩
  cases cs with
  | nil => cases hPerm.symm.eq_nil
  | cons c cs =>
    have hComments : ∀ x : Token, x ∈ [] ++ c :: cs → IsComment x.text.toList :=
      fun x hx => h x (List.mem_append_right before (hPerm.mem_iff.mp hx))
    have hFirst := combine_snd_of_silent hComments (List.forall_mem_nil _)
      (hAll c List.mem_cons_self)
    exact hFirst.trans (jointFlags_perm (hPerm.map _))

/-- An empty block leaves nothing behind, and a line in the format of Qt becomes part of a block in
that of Javadoc. -/
theorem combine_flags_mixed :
    let token := fun text => Token.point .comment text ⟨1, 1⟩ 0
    let silent := [token "/**/", token "//"]
    let first := token "//!< a"
    let others := [token "/** b */", token "///<"]
    (∀ c ∈ silent, contributed c = []) ∧ contributed first = [['a']] ∧
      (combine (silent ++ first :: others)).2 = .block ||| .javadoc ∧
      (combine [token "/** b */", first]).2 = (combine [first, token "/** b */"]).2 := by
  intro token silent first others
  have hSilent : ∀ c ∈ silent, contributed c = [] := by decide +kernel
  have hFirst : contributed first = [['a']] := by decide +kernel
  have hLine : contributed first ≠ [] := by decide +kernel
  have hComments : ∀ c ∈ silent ++ first :: others, IsComment c.text.toList := by decide +kernel
  have hPair : ∀ c ∈ [] ++ first :: [token "/** b */"], IsComment c.text.toList := by
    decide +kernel
  have hBoth : ∀ c ∈ [token "/** b */", first], contributed c ≠ [] := by decide +kernel
  obtain ⟨-, -, -, -, -, hBits, -⟩ := combine_flags hComments hSilent hLine
  obtain ⟨-, -, -, -, -, -, hOrder⟩ := combine_flags hPair (List.forall_mem_nil _) hLine
  refine ⟨hSilent, hFirst, ?_, hOrder _ (List.Perm.swap _ _ _) hBoth⟩
  have hWord : (first :: others).map (·.text.toList) =
      ["//!< a".toList, "/** b */".toList, "///<".toList] := rfl
  rw [hWord] at hBits
  exact Flags.bits_injective (hBits.trans (by decide +kernel))

end IdlReader.Comment
