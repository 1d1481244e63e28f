import IdlReader.Proofs.Source.Alike
import IdlReader.Proofs.Source.Lines

/-!
# Selected lines

Directives open, switch and close sections in such a way that a source is read exactly where a block
selects its lines. A block that is not read yields nothing, and neither do the branches of a group
behind the one that was chosen; no condition in them is looked at.

* `Reader.skips_blocks`: blocks that are not read.
* `Reader.delivers_blocks`: blocks that are read.
-/

namespace IdlReader

/-- Blocks and branches are built from lines, and groups from blocks and branches. -/
theorem Block.induction {P : Block → Prop} {Q : Branches → Prop} (nil : P .nil)
    (text : ∀ line next, P next → P (.text line next))
    (group : ∀ opening body branches next, P body → Q branches → P next →
      P (.group opening body branches next))
    (endif : ∀ closing, Q (.endif closing))
    (otherwise : ∀ line body closing, P body → Q (.otherwise line body closing))
    (elif : ∀ line body rest, P body → Q rest → Q (.elif line body rest)) :
    (∀ b, P b) ∧ ∀ bs, Q bs :=
  ⟨Block.rec nil text group endif otherwise elif, Branches.rec nil text group endif otherwise elif⟩

theorem Branches.lines_ne_nil (bs : Branches) : bs.lines ≠ [] := by
  cases bs <;> exact List.cons_ne_nil _ _

namespace Reader

variable {r : Reader} {f : Frame} {o : List Frame} {s : Sections} {c c' : Cursor} {g : Gathered}
  {t : Token} {ls : List (List Char)}

/-! ## What the directives of groups do -/

/-- A condition that is well formed holds or does not hold wherever its directive stands. -/
theorem holds_of_toOption {macros : MacroTable} {u : Token} {text : List Char} {b : Bool}
    (h : (Condition.holds macros u text).toOption = some b) :
    Condition.holds macros t text = .ok b := by
  have hAlike := Condition.alike_holds macros u t text
  revert h hAlike
  generalize Condition.holds macros u text = x
  intro h hAlike
  cases x with
  | error fault => cases h
  | ok b' =>
    cases h
    obtain ⟨b', hb, rfl⟩ := hAlike.result rfl
    exact hb

theorem definedName_of_defines? {text : List Char} {b : Bool}
    (h : r.macros.defines? text = some b) : r.definedName text t = .ok b := by
  unfold MacroTable.defines? at h
  unfold definedName
  dsimp only at h ⊢
  split at h
  · rename_i hName
    rw [if_pos hName]
    exact congrArg Except.ok (Option.some.inj h)
  · cases h

theorem keyword_opening (d : DirectiveLine openingKeywords) :
    d.keyword = "if" ∨ d.keyword = "ifdef" ∨ d.keyword = "ifndef" := by
  have hKnown : d.keyword ∈ openingKeywords := d.known
  simpa [openingKeywords] using hKnown

/-- The line that opens a group where the source is read. -/
theorem process_opening {d : DirectiveLine openingKeywords} {b : Bool} (h : s.enabled = true)
    (hHolds : d.holds? r.macros = some b) (hKeyword : t.keyword = d.keyword)
    (hArgument : t.behindKeyword = d.argument) :
    (r.placed f o s c).processDirective g t =
      .ok (r.placed f o (⟨if b then .current else .future, false⟩ :: s) c, g) := by
  have hEnter : ∀ condition, condition = .ok b → (r.placed f o s c).enterOn g condition =
      .ok (r.placed f o (⟨if b then .current else .future, false⟩ :: s) c, g) := by
    rintro _ rfl
    rw [enterOn, enabled_placed, h]
    cases b <;> rfl
  unfold DirectiveLine.holds? at hHolds
  rw [← hKeyword, ← hArgument] at hHolds
  rcases keyword_opening d with hIf | hIfdef | hIfndef
  · rw [hKeyword, hIf, if_neg (by decide), if_neg (by decide)] at hHolds
    rw [processDirective_if (hKeyword.trans hIf)]
    exact hEnter _ (holds_of_toOption hHolds)
  · rw [hKeyword, hIfdef, if_pos rfl] at hHolds
    rw [processDirective_ifdef (hKeyword.trans hIfdef)]
    exact hEnter _ (definedName_of_defines? hHolds)
  · rw [hKeyword, hIfndef, if_neg (by decide), if_pos rfl] at hHolds
    obtain ⟨b', hDefined, rfl⟩ := Option.map_eq_some_iff.mp hHolds
    rw [processDirective_ifndef (hKeyword.trans hIfndef)]
    exact hEnter _ (congrArg (Except.map not) (definedName_of_defines? hDefined))

/-- A line that opens a group where the source is not read. -/
theorem process_opening_disabled (d : DirectiveLine openingKeywords) (h : s.enabled = false)
    (hKeyword : t.keyword = d.keyword) :
    (r.placed f o s c).processDirective g t = .ok (r.placed f o (s.enter none) c, g) := by
  have hEnter : ∀ condition, (r.placed f o s c).enterOn g condition =
      .ok (r.placed f o (s.enter none) c, g) := by
    intro condition
    rw [enterOn, enabled_placed, h]
    rfl
  rcases keyword_opening d with hIf | hIfdef | hIfndef
  · rw [processDirective_if (hKeyword.trans hIf), hEnter]
  · rw [processDirective_ifdef (hKeyword.trans hIfdef), hEnter]
  · rw [processDirective_ifndef (hKeyword.trans hIfndef), hEnter]

/-- How a branch stands to the one that is read when another branch follows that is not. -/
def passed : Processing → Processing
  | .current => .previous
  | other => other

theorem passed_ne_future {p : Processing} (h : p ≠ .future) : passed p ≠ .future := by
  cases p with
  | future => exact absurd rfl h
  | _ => exact nofun

/-- The innermost section, which `#elif` goes on with behind the branch that was chosen. -/
theorem process_elif_passed {p : Processing} (h : p ≠ .future) (hKeyword : t.keyword = "elif") :
    (r.placed f o (⟨p, false⟩ :: s) c).processDirective g t =
      .ok (r.placed f o (⟨passed p, false⟩ :: s) c, g) := by
  rw [processDirective_elif hKeyword]
  cases p with
  | future => exact absurd rfl h
  | _ => rfl

/-- The innermost section, which `#elif` goes on with in front of the branch to be chosen. -/
theorem process_elif_future {d : DirectiveLine ["elif"]} {b : Bool}
    (hHolds : d.holds? r.macros = some b) (hKeyword : t.keyword = d.keyword)
    (hArgument : t.behindKeyword = d.argument) :
    (r.placed f o (⟨.future, false⟩ :: s) c).processDirective g t =
      .ok (r.placed f o (⟨if b then .current else .future, false⟩ :: s) c, g) := by
  have hElif : d.keyword = "elif" := List.mem_singleton.mp d.known
  unfold DirectiveLine.holds? at hHolds
  rw [hElif, if_neg (by decide), if_neg (by decide), ← hArgument] at hHolds
  rw [processDirective_elif (hKeyword.trans hElif), processElif, macros_placed,
    holds_of_toOption hHolds]
  rfl

theorem process_else_passed {p : Processing} (h : p ≠ .future) (hKeyword : t.keyword = "else") :
    (r.placed f o (⟨p, false⟩ :: s) c).processDirective g t =
      .ok (r.placed f o (⟨passed p, true⟩ :: s) c, g) := by
  rw [processDirective_else hKeyword]
  cases p with
  | future => exact absurd rfl h
  | _ => rfl

theorem process_else_future (hKeyword : t.keyword = "else") :
    (r.placed f o (⟨.future, false⟩ :: s) c).processDirective g t =
      .ok (r.placed f o (⟨.current, true⟩ :: s) c, g) := by
  rw [processDirective_else hKeyword]
  rfl

theorem process_endif {x : Section} (hKeyword : t.keyword = "endif") :
    (r.placed f o (x :: s) c).processDirective g t = .ok (r.placed f o s c, g) := by
  rw [processDirective_endif hKeyword]
  rfl

/-! ## Stretches of lines -/

variable (r f o) in
/-- Whether the lines `lines`, in front of which the sections `s` are open, yield tokens like `ts` and
leave the sections `s'`. Where the source is not read behind them, further lines follow. -/
def Delivers (s : Sections) (lines : List (List Char)) (ts : List Token) (s' : Sections) : Prop :=
  ∀ c g ls, (s'.enabled = false → ls ≠ []) → c.AtLines (lines ++ ls) → ∃ us c' g', c'.AtLines ls ∧
    Yields (r.placed f o s c, g) us (r.placed f o s' c', g') ∧ Alike us ts

namespace Delivers

theorem nil (s : Sections) : Delivers r f o s [] [] s :=
  fun c g _ _ hc => ⟨[], c, g, hc, .refl _, .nil⟩

theorem trans {s' s'' : Sections} {l l' : List (List Char)} {ts ts' : List Token}
    (h : Delivers r f o s l ts s') (h' : Delivers r f o s' l' ts' s'')
    (hNext : s'.enabled = false → l' ≠ [] ∨ s''.enabled = false) :
    Delivers r f o s (l ++ l') (ts ++ ts') s'' := by
  intro c g ls hSome hc
  have hMore : s'.enabled = false → l' ++ ls ≠ [] := by
    intro hDisabled hNil
    obtain ⟨hNone, hEnd⟩ := List.append_eq_nil_iff.mp hNil
    rcases hNext hDisabled with hLines | hDisabled
    · exact hLines hNone
    · exact hSome hDisabled hEnd
  rw [List.append_assoc] at hc
  obtain ⟨us, c', g', hc', hYields, hAlike⟩ := h c g _ hMore hc
  obtain ⟨us', c'', g'', hc'', hYields', hAlike'⟩ := h' c' g' ls hSome hc'
  exact ⟨us ++ us', c'', g'', hc'', hYields.trans hYields', hAlike.append hAlike'⟩

/-- A line of text where the source is read. -/
theorem text {line : TextLine} {ts : List Token} (h : s.enabled = true)
    (hLine : line.ReadsAs r.macros ts) : Delivers r f o s [line.chars] ts s := by
  intro c g ls _ hc
  obtain ⟨us, g', hYields, hAlike⟩ := yields_text (f := f) (o := o) (g := g) h hLine hc
  exact ⟨us, _, g', hc.overLine, hYields, hAlike⟩

/-- A line of text where the source is not read. -/
theorem skipped (line : TextLine) (h : s.enabled = false) :
    Delivers r f o s [line.chars] [] s :=
  fun _ g _ hSome hc => ⟨[], _, g, hc.overLine, skips_text h (hSome h) hc, .nil⟩

/-- A line with a directive that changes the sections. -/
theorem directive {keywords : List String} {s' : Sections} (d : DirectiveLine keywords)
    (hProcess : ∀ (c : Cursor) (g : Gathered) (t : Token), t.keyword = d.keyword →
      t.behindKeyword = d.argument →
      (r.placed f o s c).processDirective g t = .ok (r.placed f o s' c, g)) :
    Delivers r f o s [d.chars] [] s' := by
  intro c g ls _ hc
  obtain ⟨t, hKind, hKeyword, hArgument, hMeets⟩ :=
    meets_directive (r := r) (f := f) (o := o) d hc
  exact ⟨[], _, g, hc.overLine,
    yields_directive (hMeets s) hKind (hProcess _ g t hKeyword hArgument), .nil⟩

/-- The line that closes a group. -/
theorem endif {x : Section} (closing : DirectiveLine ["endif"]) :
    Delivers r f o (x :: s) [closing.chars] [] s :=
  .directive closing fun _ _ _ hKeyword _ =>
    process_endif (hKeyword.trans (List.mem_singleton.mp closing.known))

end Delivers

/-! ## Blocks that are not read -/

theorem enabled_passed (p : Processing) (inElse : Bool) (s : Sections) :
    Sections.enabled (⟨passed p, inElse⟩ :: s) = false := by
  cases p <;> rfl

/-- Blocks where nothing is read, and the branches behind the one that was chosen. -/
theorem skips_blocks :
    (∀ (b : Block) (s : Sections), s.enabled = false → Delivers r f o s b.lines [] s) ∧
    ∀ (bs : Branches) (s : Sections) (p : Processing), p ≠ .future → Delivers r f o (⟨p, false⟩ :: s) bs.lines [] s := by
  refine Block.induction ?nil ?text ?group ?endif ?otherwise ?elif
  case nil => exact fun s _ => .nil s
  case text =>
    intro line next ih s h
    exact (Delivers.skipped line h).trans (ih s h) fun _ => Or.inr h
  case group =>
    intro opening body branches next ihBody ihBranches ihNext s h
    have hOpen : Delivers r f o s [opening.chars] [] (s.enter none) :=
      .directive opening fun _ _ _ hKeyword _ => process_opening_disabled opening h hKeyword
    have hNext : Delivers r f o (s.enter none) (branches.lines ++ next.lines) [] s :=
      (ihBranches s .disabled nofun).trans (ihNext s h) fun _ => Or.inr h
    have hBody : Delivers r f o (s.enter none) (body.lines ++ (branches.lines ++ next.lines)) [] s :=
      (ihBody _ rfl).trans hNext fun _ => Or.inr h
    exact hOpen.trans hBody fun _ => Or.inr h
  case endif =>
    intro closing s p _
    exact .endif closing
  case otherwise =>
    intro line body closing ih s p h
    have hElse : Delivers r f o (⟨p, false⟩ :: s) [line.chars] [] (⟨passed p, true⟩ :: s) :=
      .directive line fun _ _ _ hKeyword _ =>
        process_else_passed h (hKeyword.trans (List.mem_singleton.mp line.known))
    have hBody : Delivers r f o (⟨passed p, true⟩ :: s) (body.lines ++ [closing.chars]) [] s :=
      (ih _ (enabled_passed p true s)).trans (.endif closing) fun _ => Or.inl (List.cons_ne_nil _ _)
    exact hElse.trans hBody fun _ => Or.inl (by simp)
  case elif =>
    intro line body rest ihBody ihRest s p h
    have hElif : Delivers r f o (⟨p, false⟩ :: s) [line.chars] [] (⟨passed p, false⟩ :: s) :=
      .directive line fun _ _ _ hKeyword _ =>
        process_elif_passed h (hKeyword.trans (List.mem_singleton.mp line.known))
    have hBody : Delivers r f o (⟨passed p, false⟩ :: s) (body.lines ++ rest.lines) [] s :=
      (ihBody _ (enabled_passed p false s)).trans (ihRest s _ (passed_ne_future h))
        fun _ => Or.inl rest.lines_ne_nil
    exact hElif.trans hBody fun _ => Or.inl (by simp [rest.lines_ne_nil])

/-! ## Blocks that are read -/

variable (r f o) in
/-- Whether a block delivers the lines that it selects, wherever the source is read. -/
def DeliversBlock (b : Block) : Prop :=
  ∀ (s : Sections) (lines : List TextLine), s.enabled = true →
    b.selected r.macros = some lines → (∀ line ∈ lines, ∃ ts, line.ReadsAs r.macros ts) →
    Delivers r f o s b.lines (lines.flatMap (·.tokens r.macros.lexicon)) s

variable (r f o) in
/-- Whether branches deliver the lines that they select, wherever the one to be chosen may follow. -/
def DeliversBranches (bs : Branches) : Prop :=
  ∀ (s : Sections) (lines : List TextLine), s.enabled = true →
    bs.selected r.macros = some lines → (∀ line ∈ lines, ∃ ts, line.ReadsAs r.macros ts) →
    Delivers r f o (⟨.future, false⟩ :: s) bs.lines (lines.flatMap (·.tokens r.macros.lexicon)) s

/-- A branch behind its condition, and the branches that follow it. -/
theorem delivers_branch {body : Block} {rest : Branches} {b : Bool} {lines : List TextLine}
    (hBody : DeliversBlock r f o body) (hRest : DeliversBranches r f o rest)
    (h : s.enabled = true)
    (hSelected : (if b then body.selected r.macros else rest.selected r.macros) = some lines)
    (hLines : ∀ line ∈ lines, ∃ ts, line.ReadsAs r.macros ts) :
    Delivers r f o (⟨if b then .current else .future, false⟩ :: s) (body.lines ++ rest.lines)
      (lines.flatMap (·.tokens r.macros.lexicon)) s := by
  cases b with
  | true =>
    have hRead := hBody (⟨.current, false⟩ :: s) lines rfl hSelected hLines
    have hAll := hRead.trans (skips_blocks.2 rest s .current nofun) nofun
    rwa [List.append_nil] at hAll
  | false =>
    have hSkipped := (skips_blocks (r := r) (f := f) (o := o)).1 body (⟨.future, false⟩ :: s) rfl
    exact hSkipped.trans (hRest s lines h hSelected hLines) fun _ => Or.inl rest.lines_ne_nil

/-- Blocks where the source is read, and the branches in front of the one to be chosen. -/
theorem delivers_blocks :
    (∀ b, DeliversBlock r f o b) ∧ ∀ bs, DeliversBranches r f o bs := by
  refine Block.induction ?nil ?text ?group ?endif ?otherwise ?elif
  case nil =>
    intro s lines _ hSelected _
    cases hSelected
    exact .nil s
  case text =>
    intro line next ih s lines h hSelected hLines
    obtain ⟨rest, hRest, rfl⟩ := Option.map_eq_some_iff.mp hSelected
    rw [List.forall_mem_cons] at hLines
    obtain ⟨⟨ts, hLine⟩, hLines⟩ := hLines
    rw [List.flatMap_cons, hLine.tokens_eq]
    exact (Delivers.text h hLine).trans (ih s rest h hRest hLines) fun hDisabled =>
      absurd (h.symm.trans hDisabled) nofun
  case group =>
    intro opening body branches next ihBody ihBranches ihNext s lines h hSelected hLines
    obtain ⟨b, hHolds, hSelected⟩ := Option.bind_eq_some_iff.mp hSelected
    obtain ⟨chosen, hChosen, hSelected⟩ := Option.bind_eq_some_iff.mp hSelected
    obtain ⟨rest, hRest, rfl⟩ := Option.map_eq_some_iff.mp hSelected
    rw [List.forall_mem_append] at hLines
    have hOpen : Delivers r f o s [opening.chars] []
        (⟨if b then .current else .future, false⟩ :: s) :=
      .directive opening fun _ _ _ => process_opening h hHolds
    have hGroup := delivers_branch ihBody ihBranches h hChosen hLines.1
    have hNext := hGroup.trans (ihNext s rest h hRest hLines.2) fun hDisabled =>
      absurd (h.symm.trans hDisabled) nofun
    have hAll := hOpen.trans hNext fun _ => Or.inl (by simp [branches.lines_ne_nil])
    rwa [List.nil_append, List.append_assoc, ← List.flatMap_append] at hAll
  case endif =>
    intro closing s lines _ hSelected _
    cases hSelected
    exact .endif closing
  case otherwise =>
    intro line body closing ih s lines h hSelected hLines
    have hElse : Delivers r f o (⟨.future, false⟩ :: s) [line.chars] [] (⟨.current, true⟩ :: s) :=
      .directive line fun _ _ _ hKeyword _ =>
        process_else_future (hKeyword.trans (List.mem_singleton.mp line.known))
    have hBody := (ih (⟨.current, true⟩ :: s) lines rfl hSelected hLines).trans (.endif closing) nofun
    have hAll := hElse.trans hBody nofun
    rwa [List.append_nil] at hAll
  case elif =>
    intro line body rest ihBody ihRest s lines h hSelected hLines
    obtain ⟨b, hHolds, hChosen⟩ := Option.bind_eq_some_iff.mp hSelected
    have hElif : Delivers r f o (⟨.future, false⟩ :: s) [line.chars] []
        (⟨if b then .current else .future, false⟩ :: s) :=
      .directive line fun _ _ _ => process_elif_future hHolds
    exact hElif.trans (delivers_branch ihBody ihRest h hChosen hLines)
      fun _ => Or.inl (by simp [rest.lines_ne_nil])

end Reader

end IdlReader
