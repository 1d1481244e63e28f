import IdlReader.Document
import IdlReader.Proofs.Document.Inclusion
import IdlReader.Proofs.Source.Balance
import IdlReader.Proofs.Source.Selection

/-!
# Conditional sections in documents

A file leaves the open sections as they were when it was included, unless one of its own directives
switches or closes a section of the source that includes it. Only the other kind of imbalance is a
fault, a section that the file opens and leaves open. Of a text in memory that is made of lines of
text and conditional groups, reading delivers the tokens of the selected lines.

* `sections_of_included`: the sections when a file is closed.
* `sections_of_included_crossing`: a file that closes a section of the source that includes it.
* `tokens_of_selected`: the tokens of a text of conditional groups.
-/

namespace IdlReader.Document

open Reader (Turns Turn Visit)

/-- Between the turn that opens a file and the one that closes it the open sections, with what is
known of their branches, come back to what they were, if no directive crosses the bounds of its
source. A file at the end of which a section of its own is open is a fault. But `#endif` closes the
innermost section also when this was open before the file. -/
theorem sections_of_included {env : Environment} {files : FileTree} {input : Input} {r : Reader}
    {p q : Reader × Gathered} (hProper : files.Proper) (hReader : reader env files input = .ok r)
    (hTurns : Turns (r, {}) p) :
    (∀ x y, Visit (fun r => r.crosses = false) p q x → Turn x y →
      y.1.frames.length < q.1.frames.length → y.1.sections = p.1.sections) ∧
    ∀ x, Visit (fun _ => True) p q x → x.1.frames.length = q.1.frames.length →
      (∀ t r', x.1.Meets t r' → t.kind = .finish →
        p.1.sections.length < x.1.sections.length →
        ∃ f, check env files input = .error f ∧ f.cause = .endifMissing ∧
          f.file = x.1.path?) ∧
      ∀ t r' s rest, x.1.Meets t r' → t.kind = .directive → t.keyword = "endif" →
        x.1.sections = s :: rest → x.1.sections.length ≤ p.1.sections.length →
        x.1.crosses = true ∧ x.1.step x.2 = .ok ([], { r' with sections := rest }, x.2) := by
  refine ⟨fun x y hVisit hClose hClosed => hVisit.sections_eq hClose hClosed,
    fun x hVisit hLength => ⟨fun t r' hMeets hKind hOpen => ?_,
      fun t r' s rest hMeets hKind hKeyword hSections hCrosses => ?_⟩⟩
  · obtain ⟨f, fs, hFrames⟩ := hVisit.frames_cons
    have hBelow := hVisit.sectionsBelow_eq hFrames hLength
    obtain ⟨fault, hStep, hCause, hFile⟩ :=
      Reader.step_of_unclosed (g := x.2) hMeets hKind hFrames (hBelow ▸ hOpen)
    refine ⟨_, check_of_fault hProper hReader (hTurns.trans hVisit.turns)
      (by rw [hFrames]; exact List.cons_ne_nil _ _) hStep, hCause, ?_⟩
    have hPath : x.1.path? = f.path := by
      rw [Reader.path?, hFrames]
      rfl
    rw [Fault.orInFile, hFile, hPath, Option.or_self]
  · obtain ⟨f, fs, hFrames⟩ := hVisit.frames_cons
    have hBelow := hVisit.sectionsBelow_eq hFrames hLength
    refine ⟨?_, Reader.step_of_endif hMeets hKind hKeyword hSections⟩
    exact Reader.crosses_of_le hMeets hKind (by rw [hKeyword]; decide) hFrames (hBelow ▸ hCrosses)

/-- A file with a section of its own, included inside of a section. -/
def balancedFiles : FileTree :=
  ⟨["d"], [(["d", "main.idl"], "#if 1\n#include \"a.idl\"\n#endif\n".toUTF8.toList),
    (["d", "a.idl"], "#if 1\n#endif\n".toUTF8.toList)]⟩

/-- A file that closes the section in which it is included. -/
def crossingFiles : FileTree :=
  ⟨["d"], [(["d", "main.idl"], "#if 1\n#include \"a.idl\"\n".toUTF8.toList),
    (["d", "a.idl"], "#endif\n".toUTF8.toList)]⟩

/-- The section around a balanced file is open behind it. -/
theorem sections_of_included_balanced :
    balancedFiles.Proper ∧ ∃ r p q x y, reader {} balancedFiles (.file "main.idl") = .ok r ∧
      Turns (r, {}) p ∧ Visit (fun r => r.crosses = false) p q x ∧ Turn x y ∧
      y.1.frames.length < q.1.frames.length ∧ y.1.sections = p.1.sections ∧
      p.1.sections = [⟨.current, false⟩] := by
  have hProper : balancedFiles.Proper := by
    intro name hName
    rw [List.mem_singleton.mp hName]
    decide
  have hRun : ((reader {} balancedFiles (.file "main.idl")).toOption.any fun r =>
      (Reader.next? (r, {})).any fun p =>
        p.1.sections == [⟨.current, false⟩] && p.1.frames.length == 1 &&
        (Reader.next? p).any fun q => q.1.frames.length == 2 && !q.1.crosses &&
          (Reader.next? q).any fun w => w.1.frames.length == 2 && !w.1.crosses &&
            (Reader.next? w).any fun x => x.1.frames.length == 2 &&
              (Reader.next? x).any fun y => y.1.frames.length == 1) = true := by
    decide +kernel
  obtain ⟨r, hReader, hRun⟩ := any_toOption hRun
  obtain ⟨p, hp, hRun⟩ := (Option.any_eq_true _ _).mp hRun
  simp only [Bool.and_eq_true, beq_iff_eq] at hRun
  obtain ⟨⟨hSections, hLengthP⟩, hRun⟩ := hRun
  obtain ⟨q, hq, hRun⟩ := (Option.any_eq_true _ _).mp hRun
  simp only [Bool.and_eq_true, beq_iff_eq, Bool.not_eq_true'] at hRun
  obtain ⟨⟨hLengthQ, hCrossesQ⟩, hRun⟩ := hRun
  obtain ⟨w, hw, hRun⟩ := (Option.any_eq_true _ _).mp hRun
  simp only [Bool.and_eq_true, beq_iff_eq, Bool.not_eq_true'] at hRun
  obtain ⟨⟨hLengthW, hCrossesW⟩, hRun⟩ := hRun
  obtain ⟨x, hx, hRun⟩ := (Option.any_eq_true _ _).mp hRun
  simp only [Bool.and_eq_true, beq_iff_eq] at hRun
  obtain ⟨hLengthX, hRun⟩ := hRun
  obtain ⟨y, hy, hRun⟩ := (Option.any_eq_true _ _).mp hRun
  have hLengthY : y.1.frames.length = 1 := beq_iff_eq.mp hRun
  have hTurns : Turns (r, {}) p := .single (Reader.turn_of_next? hp)
  have hVisit : Visit (fun r => r.crosses = false) p q x := by
    refine ⟨Reader.turn_of_next? hq, by omega, ?_⟩
    refine .tail (.single ⟨Reader.turn_of_next? hw, by omega, hCrossesQ⟩) ?_
    exact ⟨Reader.turn_of_next? hx, by omega, hCrossesW⟩
  have hClose := Reader.turn_of_next? hy
  have hClosed : y.1.frames.length < q.1.frames.length := by omega
  have hEq := (sections_of_included hProper hReader hTurns).1 x y hVisit hClose hClosed
  exact ⟨hProper, r, p, q, x, y, hReader, hTurns, hVisit, hClose, hClosed, hEq, hSections⟩

/-- The sections when a file is closed need not be those when it was opened: of these files the
second closes the section in which the first includes it, and reading them is no fault. -/
theorem sections_of_included_crossing :
    ¬ ∀ (env : Environment) (files : FileTree) (input : Input) (r : Reader), files.Proper →
      reader env files input = .ok r → ∀ p q x y, Turns (r, {}) p →
      Visit (fun _ => True) p q x → Turn x y → y.1.frames.length < q.1.frames.length →
      y.1.sections = p.1.sections := by
  intro hClaim
  have hProper : crossingFiles.Proper := by
    intro name hName
    rw [List.mem_singleton.mp hName]
    decide
  have hRun : ((reader {} crossingFiles (.file "main.idl")).toOption.any fun r =>
      (Reader.next? (r, {})).any fun p =>
        p.1.sections == [⟨.current, false⟩] && p.1.frames.length == 1 &&
        (Reader.next? p).any fun q => q.1.frames.length == 2 &&
          (Reader.next? q).any fun x => x.1.frames.length == 2 &&
            (Reader.next? x).any fun y =>
              y.1.frames.length == 1 && y.1.sections == []) = true := by
    decide +kernel
  obtain ⟨r, hReader, hRun⟩ := any_toOption hRun
  obtain ⟨p, hp, hRun⟩ := (Option.any_eq_true _ _).mp hRun
  simp only [Bool.and_eq_true, beq_iff_eq] at hRun
  obtain ⟨⟨hSections, hLengthP⟩, hRun⟩ := hRun
  obtain ⟨q, hq, hRun⟩ := (Option.any_eq_true _ _).mp hRun
  simp only [Bool.and_eq_true, beq_iff_eq] at hRun
  obtain ⟨hLengthQ, hRun⟩ := hRun
  obtain ⟨x, hx, hRun⟩ := (Option.any_eq_true _ _).mp hRun
  simp only [Bool.and_eq_true, beq_iff_eq] at hRun
  obtain ⟨hLengthX, hRun⟩ := hRun
  obtain ⟨y, hy, hRun⟩ := (Option.any_eq_true _ _).mp hRun
  simp only [Bool.and_eq_true, beq_iff_eq] at hRun
  obtain ⟨hLengthY, hSectionsY⟩ := hRun
  have hVisit : Visit (fun _ => True) p q x := by
    refine ⟨Reader.turn_of_next? hq, by omega, ?_⟩
    exact .single ⟨Reader.turn_of_next? hx, by omega, trivial⟩
  have hEq := hClaim {} crossingFiles (.file "main.idl") r hProper hReader p q x y
    (.single (Reader.turn_of_next? hp)) hVisit (Reader.turn_of_next? hy) (by omega)
  rw [hSections, hSectionsY] at hEq
  cases hEq

end IdlReader.Document

namespace IdlReader.Document

/-- Reading a text of conditional groups delivers the tokens of the lines of text that the groups
select, one line after the other, and ends without a fault. Neither what stands on lines of text that
are not selected nor the conditions that the choice does not need make a difference. -/
theorem tokens_of_selected {env : Environment} {macros : MacroTable} {block : Block}
    {lines : List TextLine} (hMacros : MacroTable.ofEnvironment env = .ok macros)
    (hSelected : block.selected macros = some lines)
    (hLines : ∀ line ∈ lines, ∃ ts, line.ReadsAs macros ts) (files : FileTree) :
    ∃ r g, reader env files (.text (String.ofList block.source)) = .ok r ∧
      r.stream.ending = .ok g ∧
      Alike r.stream.tokens (lines.flatMap (·.tokens macros.lexicon)) := by
  generalize hr : Reader.enter { env, files, macros } none block.source .main = r
  generalize hf : Frame.mk 0 none (Cursor.ofText block.source) 0 = f
  have hReader : reader env files (.text (String.ofList block.source)) = .ok r := by
    change (Reader.ofEnvironment env files >>= _) = _
    unfold Reader.ofEnvironment
    rw [hMacros, String.toList_ofList, ← hr]
    rfl
  have hTable : r.macros = macros := by rw [← hr]; rfl
  -- before it reads, the reader stands at the start of its only source
  have hPlaced : r.placed f [] [] (Cursor.ofText block.source) = r := by rw [← hr, ← hf]; rfl
  have hStart : (Cursor.ofText block.source).AtLines (block.lines ++ []) := by
    rw [List.append_nil]
    exact ⟨rfl, rfl, fun _ => ⟨rfl, rfl⟩⟩
  rw [← hTable] at hSelected hLines ⊢
  obtain ⟨us, c, g, hEnd, hYields, hAlike⟩ := (Reader.delivers_blocks (f := f) (o := [])).1 block []
    lines rfl hSelected hLines (Cursor.ofText block.source) {} [] nofun hStart
  rw [hPlaced] at hYields
  have hAhead : r.ahead = none := by rw [← hr]; rfl
  obtain ⟨hEnding, hTokens⟩ := Reader.stream_of_yields hAhead
    (hYields.trans (Reader.yields_end rfl hEnd.rest (Nat.zero_le _))) rfl
  refine ⟨r, g, hReader, hEnding, ?_⟩
  rw [hTokens, List.append_nil]
  exact hAlike

/-- The line `#else`. -/
def elseLine : DirectiveLine ["else"] :=
  ⟨[], "else".toList, nofun, by decide +kernel, by decide +kernel, by decide +kernel⟩

/-- The line `#endif` behind a blank. -/
def endifLine : DirectiveLine ["endif"] :=
  ⟨[' '], "endif".toList, List.forall_mem_singleton.mpr rfl, by decide +kernel, by decide +kernel,
    by decide +kernel⟩

/-- Groups inside of groups. Quotes that are not closed, characters that start no token and conditions
that are no expressions stand where nothing is selected. -/
def nestedGroups : Block :=
  .group ⟨[], "ifdef A".toList, nofun, by decide +kernel, by decide +kernel, by decide +kernel⟩
    (.group ⟨[], " if A == 0".toList, nofun, by decide +kernel, by decide +kernel, by decide +kernel⟩
      (.text ⟨"'open \" @".toList, by decide +kernel, by decide +kernel⟩ .nil)
      (.elif ⟨[], "elif A".toList, nofun, by decide +kernel, by decide +kernel, by decide +kernel⟩
        (.text ⟨"struct S \x7b".toList, by decide +kernel, by decide +kernel⟩ .nil)
        (.otherwise elseLine (.text ⟨"\\".toList, by decide +kernel, by decide +kernel⟩ .nil) endifLine))
      .nil)
    (.elif ⟨[], "elif )".toList, nofun, by decide +kernel, by decide +kernel, by decide +kernel⟩ .nil
      (.otherwise elseLine
        (.group ⟨[], "if (".toList, nofun, by decide +kernel, by decide +kernel, by decide +kernel⟩
          .nil (.endif endifLine) .nil) endifLine))
    (.text ⟨"\x7d; // end".toList, by decide +kernel, by decide +kernel⟩ .nil)

/-- Of these groups the branch of `#elif A` is read and the line behind them. -/
theorem tokens_of_selected_nested : ∃ macros lines r g,
    MacroTable.ofEnvironment { defines := ["A=1"] } = .ok macros ∧
    nestedGroups.selected macros = some lines ∧
    (∀ line ∈ lines, ∃ ts, line.ReadsAs macros ts) ∧
    reader { defines := ["A=1"] } ⟨[], []⟩ (.text (String.ofList nestedGroups.source)) = .ok r ∧
    r.stream.ending = .ok g ∧
    Alike r.stream.tokens (lines.flatMap (·.tokens macros.lexicon)) ∧
    (lines.flatMap (·.tokens macros.lexicon)).map Token.text = ["struct", "S", "\x7b", "\x7d", ";"] := by
  have hRun : ((MacroTable.ofEnvironment { defines := ["A=1"] }).toOption.any fun macros =>
      (nestedGroups.selected macros).any fun lines =>
        (lines.all fun line => (tokenize macros.lexicon false 0 line.chars).toOption.any fun ts =>
          ts.all fun t => !t.isWord || (macros.find? t.text).isNone) &&
        (lines.flatMap (·.tokens macros.lexicon)).map Token.text ==
          ["struct", "S", "\x7b", "\x7d", ";"]) = true := by
    decide +kernel
  obtain ⟨macros, hMacros, hRun⟩ := any_toOption hRun
  obtain ⟨lines, hSelected, hRun⟩ := (Option.any_eq_true _ _).mp hRun
  rw [Bool.and_eq_true, beq_iff_eq, List.all_eq_true] at hRun
  have hLines : ∀ line ∈ lines, ∃ ts, line.ReadsAs macros ts := by
    intro line hLine
    obtain ⟨ts, hTokens, hNames⟩ := any_toOption (hRun.1 line hLine)
    refine ⟨ts, hTokens, fun t ht hWord => ?_⟩
    have hName := List.all_eq_true.mp hNames t ht
    rwa [hWord, Bool.not_true, Bool.false_or, Option.isNone_iff_eq_none] at hName
  obtain ⟨r, g, hReader, hEnding, hAlike⟩ := tokens_of_selected hMacros hSelected hLines ⟨[], []⟩
  exact ⟨macros, lines, r, g, hMacros, hSelected, hLines, hReader, hEnding, hAlike, hRun.2⟩

end IdlReader.Document
