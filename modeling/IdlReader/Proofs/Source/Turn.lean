import Mathlib.Logic.Relation
import IdlReader.Proofs.Source.Progress

/-!
# Turns of a run

A directive opens, switches or closes a section, changes the macros, opens a file or reads on in the
innermost source. `Reader.Carries` lists these effects and what each of them is bound to.

A run takes a turn for every step that ends without a fault. What a turn can do to a reader is
listed once (`Reader.Moves`): it closes the innermost source, carries out a directive or reads on.
What the run gives at the end is what it would give from any reader that its turns come to.

* `Reader.exits_processDirective`: the effects of directives and where their faults are placed.
* `Reader.exits_step`: what a step does.
* `Reader.category_of_ending`: which faults are not those of runs.
* `Reader.ending_of_turns`: turns do not change how a run ends.
-/

/-! ## What directives do -/

namespace IdlReader

/-- The keyword of a directive. -/
def Token.keyword (directive : Token) : String :=
  String.ofList (directive.text.toList.takeWhile Text.isWord)

/-- What stands behind the keyword of a directive. -/
def Token.behindKeyword (directive : Token) : List Char :=
  directive.text.toList.dropWhile Text.isWord

namespace Reader

/-- What carrying out a directive with a keyword makes of a reader. -/
inductive Carries (r : Reader) (keyword : String) : Reader → Prop where
  /-- A section is opened. -/
  | opens (s : Section) : Carries r keyword { r with sections := s :: r.sections }
  /-- The innermost section goes on with another branch. -/
  | switches {s : Section} {rest : Sections} (s' : Section) :
      keyword = "elif" ∨ keyword = "else" → r.sections = s :: rest →
      Carries r keyword { r with sections := s' :: rest }
  /-- The innermost section is closed. -/
  | closes {s : Section} {rest : Sections} : keyword = "endif" → r.sections = s :: rest →
      Carries r keyword { r with sections := rest }
  /-- Macros are defined or forgotten. -/
  | defines (macros : MacroTable) : Carries r keyword { r with macros }
  /-- A file is opened. -/
  | includes {path canonical text : String} (kind : SourceKind) :
      r.files.canonical path = .ok canonical → canonical ∉ r.opened →
      r.frames.length < r.env.maxIncludeDepth → r.files.read canonical = .ok text →
      Carries r keyword
        ({ r with opened := canonical :: r.opened }.enter (some canonical) text.toList kind)
  /-- The innermost source is read on, if at all. -/
  | reads {r' : Reader} : Reads r r' → r'.weight ≤ r.weight → Carries r keyword r'

variable {r : Reader} {g : Gathered} {keyword : String} {F : Fault → Prop}

/-! ## Files -/

theorem exits_includeFile (hCause : ∀ {cause}, cause.Plain → F (Fault.of cause))
    {path : String} {isLocal : Bool} :
    Exits F (r.includeFile path isLocal) (Carries r keyword) := by
  unfold includeFile
  split
  · exact .fail (hCause trivial)
  · rename_i canonical hCanonical
    refine Exits.ite (fun _ => .fail (hCause trivial)) fun hNew => ?_
    refine Exits.ite (fun _ => .fail (hCause trivial)) fun hDepth => ?_
    split
    · exact .fail (hCause trivial)
    · rename_i text hText
      exact Exits.ok (.includes _ hCanonical (by simpa using hNew) (Nat.lt_of_not_le hDepth) hText)

theorem exits_includeTarget (hCause : ∀ {cause}, cause.Plain → F (Fault.of cause))
    (rest : List Char) : Exits F (includeTarget rest) fun _ => True := by
  unfold includeTarget
  dsimp only
  repeat' split
  all_goals first | trivial | exact .fail (hCause trivial)

theorem exits_processInclude (hCause : ∀ {cause}, cause.Plain → F (Fault.of cause))
    {rest : List Char} {directive : Token} :
    Exits F (r.processInclude g rest directive) fun x => Carries r keyword x.1 := by
  unfold processInclude
  refine (exits_includeTarget hCause rest).bind ?_
  rintro ⟨isLocal, name, content⟩ -
  dsimp only
  split
  · exact .fail (hCause trivial)
  · exact (exits_includeFile hCause).bind fun r' hr => Exits.ok hr

/-! ## Other commands -/

theorem verbatimLines_append {line s : List Char} {x : List (List Char) × List Char × List Char}
    (h : Text.verbatimLines line s = some x) : x.2.1 ++ x.2.2 = s := by
  induction s generalizing line x with
  | nil =>
    unfold Text.verbatimLines at h
    dsimp only at h
    split at h
    · cases h
      rfl
    · cases h
  | cons c s ih =>
    unfold Text.verbatimLines at h
    dsimp only at h
    split at h
    · split at h
      · cases h
        rfl
      · obtain ⟨y, hy, rfl⟩ := Option.map_eq_some_iff.mp h
        exact congrArg (c :: ·) (ih hy)
    · obtain ⟨y, hy, rfl⟩ := Option.map_eq_some_iff.mp h
      exact congrArg (c :: ·) (ih hy)

theorem finishes_readVerbatim :
    Finishes r.readVerbatim fun x => Reads r x.2 ∧ x.2.weight ≤ r.weight := by
  unfold readVerbatim
  split
  · exact Exits.ok ⟨Reads.refl r, Nat.le_refl _⟩
  · rename_i f fs hFrames
    split
    · rename_i lines read rest hLines
      have hSuffix : rest <:+ f.cursor.rest := ⟨_, verbatimLines_append hLines⟩
      exact Exits.ok ⟨reads_setCursor hFrames hSuffix, weight_setCursor_le hFrames hSuffix⟩
    · exact .failAt ⟨trivial, rfl⟩

theorem exits_processCommand {command : String} {rest : List Char} {directive : Token}
    (hCause : ∀ {cause}, cause.Plain → F (Fault.of cause))
    (hDefine : command = "define" → AdmitsTexts r.macros.lexicon F)
    (hVerbatim : command = "verbatim_begin" → ∀ {f : Fault}, f.Local → F f) :
    Exits F (r.processCommand g command rest directive) fun x => Carries r keyword x.1 := by
  unfold processCommand
  split
  case h_1 =>
    exact (MacroTable.exits_define (hDefine rfl) rest).bind fun x _ => Exits.ok (.defines _)
  case h_2 =>
    exact Exits.ite (fun _ => Exits.ok (.defines _)) fun _ => .fail (hCause trivial)
  case h_3 => exact exits_processInclude hCause
  case h_4 => exact Exits.ok (.reads (Reads.refl r) (Nat.le_refl _))
  case h_5 =>
    exact (finishes_readVerbatim.weaken fun _ hf => hVerbatim rfl hf).bind fun x hx =>
      Exits.ok (.reads hx.1 hx.2)
  all_goals exact .fail (hCause trivial)

/-! ## Sections -/

theorem exits_definedName {rest : List Char} {directive : Token}
    (hPlaced : ∀ {cause}, cause.Plain → F ((Fault.of cause).placed directive.position)) :
    Exits F (r.definedName rest directive) fun _ => True := by
  unfold definedName
  exact Exits.ite (fun _ => trivial) fun _ => .failAt (hPlaced trivial)

theorem exits_processElif {condition : Except Fault Bool} {p : Position}
    (hPlaced : ∀ {cause}, cause.Plain → F ((Fault.of cause).placed p))
    (hCondition : Exits F condition fun _ => True) (hKeyword : keyword = "elif") :
    Exits F (r.processElif condition p) (Carries r keyword) := by
  unfold processElif Sections.forElif
  cases hSections : r.sections with
  | nil => exact .failAt (hPlaced trivial)
  | cons s rest =>
    dsimp only
    cases s.inElse with
    | true => exact .failAt (hPlaced trivial)
    | false =>
      rw [if_neg Bool.false_ne_true]
      dsimp only
      split
      · exact hCondition.bind fun b _ => Exits.ok (.switches _ (Or.inl hKeyword) hSections)
      · exact Exits.ok (.switches _ (Or.inl hKeyword) hSections)
      · exact Exits.ok (.reads (Reads.refl r) (Nat.le_refl _))

theorem exits_elseBranch {p : Position}
    (hPlaced : ∀ {cause}, cause.Plain → F ((Fault.of cause).placed p))
    (hKeyword : keyword = "else") :
    Exits F (causeAtDirective p r.sections.elseBranch) fun sections =>
      Carries r keyword { r with sections } := by
  cases hSections : r.sections with
  | nil => exact .failAt (hPlaced trivial)
  | cons s rest =>
    unfold Sections.elseBranch
    dsimp only
    split
    · exact .failAt (hPlaced trivial)
    · exact Exits.ok (.switches _ (Or.inr hKeyword) hSections)

theorem exits_leaveSection {p : Position}
    (hPlaced : ∀ {cause}, cause.Plain → F ((Fault.of cause).placed p))
    (hKeyword : keyword = "endif") :
    Exits F (causeAtDirective p r.sections.leave) fun sections =>
      Carries r keyword { r with sections } := by
  cases hSections : r.sections with
  | nil => exact .failAt (hPlaced trivial)
  | cons s rest => exact Exits.ok (.closes hKeyword hSections)

theorem exits_orAtDirective {α : Type} {x : Except Fault α} {P : α → Prop} {p : Position}
    (h : Exits (fun f => F (f.orAt p)) x P) : Exits F (orAtDirective p x) P := by
  cases x with
  | ok a => exact h
  | error f => exact Exits.error h

/-- Carrying out a directive ends in one of its effects or in a fault: what is wrong with a section or
a command is placed at the directive, and what is wrong with a condition is left as it is. -/
theorem exits_processDirective {directive : Token}
    (hPlaced : ∀ {cause}, cause.Plain → F ((Fault.of cause).placed directive.position))
    (hCondition : directive.keyword = "if" ∨ directive.keyword = "elif" →
      AdmitsTokens r.macros.lexicon (fun p => p.line = directive.position.line) F)
    (hDefine : directive.keyword = "define" →
      AdmitsTexts r.macros.lexicon fun f => F (f.orAt directive.position))
    (hVerbatim : directive.keyword = "verbatim_begin" → ∀ {f : Fault}, f.Local →
      F (f.orAt directive.position)) :
    Exits F (r.processDirective g directive) fun x => Carries r directive.keyword x.1 := by
  have hEnter : ∀ {condition : Except Fault Bool}, (Exits F condition fun _ => True) →
      Exits F (if r.enabled then do
          let b ← condition
          return ({ r with sections := r.sections.enter (some b) }, g)
        else .ok ({ r with sections := r.sections.enter none }, g) :
          Except Fault (Reader × Gathered)) fun x => Carries r directive.keyword x.1 :=
    fun hCondition => Exits.ite
      (fun _ => hCondition.bind fun b _ => Exits.ok (.opens _)) fun _ => Exits.ok (.opens _)
  unfold processDirective
  dsimp only
  split
  case h_1 hKeyword =>
    exact hEnter (Condition.exits_holds (hCondition (Or.inl hKeyword)) (fun _ => rfl) _)
  case h_2 => exact hEnter (exits_definedName hPlaced)
  case h_3 => exact hEnter (Exits.map (exits_definedName hPlaced))
  case h_4 hKeyword =>
    have hHolds := Condition.exits_holds (hCondition (Or.inr hKeyword)) (fun _ => rfl)
      directive.behindKeyword
    exact (exits_processElif hPlaced hHolds hKeyword).bind fun r' hr => Exits.ok hr
  case h_5 hKeyword =>
    exact (exits_elseBranch hPlaced hKeyword).bind fun s hs => Exits.ok hs
  case h_6 hKeyword =>
    exact (exits_leaveSection hPlaced hKeyword).bind fun s hs => Exits.ok hs
  case h_7 =>
    refine Exits.ite (fun _ => exits_orAtDirective ?_) fun _ =>
      Exits.ok (.reads (Reads.refl r) (Nat.le_refl _))
    exact exits_processCommand hPlaced hDefine hVerbatim

theorem finishes_processDirective {directive : Token} :
    Finishes (r.processDirective g directive) fun x => Carries r directive.keyword x.1 :=
  exits_processDirective (fun h => ⟨h, rfl⟩)
    (fun _ => { admits_local _ with placed := fun h _ => ⟨h, rfl⟩ })
    (fun _ => ⟨fun h => ⟨h, rfl⟩, fun h =>
      have hLocal := finishes_tokenize.fault h
      ⟨hLocal.cause, hLocal.file⟩⟩)
    fun _ _ hf => ⟨hf.cause, hf.file⟩

/-! ## What the keywords of groups ask for -/

variable {t : Token}

/-- Opens a section under a condition, which only counts where the source is read. -/
def enterOn (r : Reader) (g : Gathered) (condition : Except Fault Bool) :
    Except Fault (Reader × Gathered) :=
  if r.enabled then
    condition >>= fun b => .ok ({ r with sections := r.sections.enter (some b) }, g)
  else .ok ({ r with sections := r.sections.enter none }, g)

theorem processDirective_if (h : t.keyword = "if") :
    r.processDirective g t = r.enterOn g (Condition.holds r.macros t t.behindKeyword) := by
  unfold processDirective
  dsimp only
  rw [show String.ofList (t.text.toList.takeWhile Text.isWord) = "if" from h]
  rfl

theorem processDirective_ifdef (h : t.keyword = "ifdef") :
    r.processDirective g t = r.enterOn g (r.definedName t.behindKeyword t) := by
  unfold processDirective
  dsimp only
  rw [show String.ofList (t.text.toList.takeWhile Text.isWord) = "ifdef" from h]
  rfl

theorem processDirective_ifndef (h : t.keyword = "ifndef") :
    r.processDirective g t = r.enterOn g ((r.definedName t.behindKeyword t).map not) := by
  unfold processDirective
  dsimp only
  rw [show String.ofList (t.text.toList.takeWhile Text.isWord) = "ifndef" from h]
  rfl

theorem processDirective_elif (h : t.keyword = "elif") :
    r.processDirective g t =
      (r.processElif (Condition.holds r.macros t t.behindKeyword) t.position >>= fun r =>
        .ok (r, g)) := by
  unfold processDirective
  dsimp only
  rw [show String.ofList (t.text.toList.takeWhile Text.isWord) = "elif" from h]
  rfl

theorem processDirective_else (h : t.keyword = "else") :
    r.processDirective g t =
      (causeAtDirective t.position r.sections.elseBranch >>= fun sections =>
        .ok ({ r with sections }, g)) := by
  unfold processDirective
  dsimp only
  rw [show String.ofList (t.text.toList.takeWhile Text.isWord) = "else" from h]
  rfl

theorem processDirective_endif (h : t.keyword = "endif") :
    r.processDirective g t =
      (causeAtDirective t.position r.sections.leave >>= fun sections =>
        .ok ({ r with sections }, g)) := by
  unfold processDirective
  dsimp only
  rw [show String.ofList (t.text.toList.takeWhile Text.isWord) = "endif" from h]
  rfl

end Reader

end IdlReader

/-! ## Turns -/

namespace IdlReader.Reader

variable {r r' : Reader} {g : Gathered}

/-! ## What a step does -/

/-- Whether the next raw token of a reader is `t`, behind which the reader is `r'`. -/
def Meets (r : Reader) (t : Token) (r' : Reader) : Prop := r.skipDisabled.raw = .ok (t, r')

theorem Meets.consumes {t : Token} (h : r.Meets t r') : Consumes r t r' := by
  have hConsumes : Consumes r.skipDisabled t r' := finishes_raw.result h
  have hReads := @reads_skipDisabled r
  have hLighter := hConsumes.lighter
  have hFewer := hConsumes.fewer
  have hWeight := @weight_skipDisabled_le r
  have hLeft := @left_skipDisabled_le r
  exact ⟨hReads.trans hConsumes.reads, hConsumes.ahead, by omega, by omega⟩

/-- What a step can do to a reader with an open source. -/
inductive Moves (r : Reader) : List Token → Reader → Prop where
  /-- The innermost source is closed, in which no section was left open. -/
  | closes {t : Token} {r₁ : Reader} {f : Frame} {fs : List Frame} :
      r.Meets t r₁ → t.kind = .finish → r₁.frames = f :: fs →
      r.sections.length ≤ f.sectionsBelow → Moves r [] { r₁ with frames := fs }
  /-- A directive is carried out. -/
  | carries {t : Token} {r₁ r' : Reader} :
      r.Meets t r₁ → t.kind = .directive → Carries r₁ t.keyword r' → Moves r [] r'
  /-- A token is read, with the call of a macro if it is the name of one. -/
  | reads {t : Token} {r₁ r' : Reader} {ts : List Token} :
      r.Meets t r₁ → t.kind ≠ .finish → t.kind ≠ .directive → Reads r r' →
      r'.weight < r.weight → Moves r ts r'

theorem exits_leave {t : Token} {r₁ : Reader} (hSome : r.frames ≠ []) (hMeets : r.Meets t r₁)
    (hKind : t.kind = .finish) :
    Exits (fun f => f.cause.Plain) r₁.leave (Moves r []) := by
  have hReads := hMeets.consumes.reads
  unfold leave
  split
  · rename_i hNone
    have hLength := hReads.length_frames
    rw [hNone] at hLength
    exact absurd (List.eq_nil_of_length_eq_zero hLength.symm) hSome
  · rename_i f fs hFrames
    unfold Sections.closeTo
    split
    · rename_i hClose
      split at hClose
      · cases hClose
      · rename_i hLength
        rw [hReads.sections_eq] at hLength
        exact Exits.ok (.closes hMeets hKind hFrames (Nat.le_of_not_lt hLength))
    · rename_i cause hClose
      split at hClose
      · cases hClose
        exact Exits.error trivial
      · cases hClose

/-- A step ends in one of the moves or in a fault. -/
theorem exits_step (hSome : r.frames ≠ []) :
    Exits (fun f => f.cause.Plain) (r.step g) fun x => Moves r x.1 x.2.1 := by
  have hRaw : Exits (fun f => f.cause.Plain) r.skipDisabled.raw fun x =>
      r.Meets x.1 x.2 := by
    cases hNext : r.skipDisabled.raw with
    | ok x => exact hNext
    | error f => exact (finishes_raw.fault hNext).cause
  unfold step
  refine hRaw.bind ?_
  rintro ⟨t, r₁⟩ hMeets
  have hConsumes := hMeets.consumes
  dsimp only
  split
  · rename_i hKind
    exact (exits_leave hSome hMeets hKind).bind fun r₂ h₂ => Exits.ok h₂
  · rename_i hKind
    exact (finishes_processDirective.weaken fun _ hf => hf.cause).bind fun x hx =>
      Exits.ok (.carries hMeets hKind hx)
  · rename_i hFinish hDirective
    have hKind : t.isFinish = false := by
      cases h : t.isFinish with
      | true => exact absurd (beq_iff_eq.mp h) hFinish
      | false => rfl
    have hLighter : r₁.weight + (if t.isFinish then 0 else 2) ≤ r.weight := hConsumes.lighter
    rw [hKind, if_neg Bool.false_ne_true] at hLighter
    have hRead : ∀ ts, Moves r ts r₁ := fun ts =>
      .reads hMeets hFinish hDirective hConsumes.reads (by omega)
    refine Exits.ite (fun _ => Exits.ok (hRead _)) fun _ => ?_
    refine Exits.ite (fun _ => Exits.ok (hRead _)) fun _ => ?_
    split
    · refine ((finishes_expandCall _).weaken fun _ hf => hf.cause).mono ?_
      rintro ⟨ts, r₂, g₂⟩ ⟨hReads, hWeight⟩
      dsimp only at hWeight
      exact .reads hMeets hFinish hDirective (hConsumes.reads.trans hReads) (by dsimp only; omega)
    · exact Exits.ok (hRead _)

/-! ## Turns -/

/-- Whether a step of a run leads from a reader with what was gathered to another one. -/
def Turn (p q : Reader × Gathered) : Prop :=
  p.1.frames ≠ [] ∧ ∃ ts g, p.1.step p.2 = .ok (ts, q.1, g) ∧ q.2 = if ts.isEmpty then g else {}

/-- Any number of turns. -/
abbrev Turns : Reader × Gathered → Reader × Gathered → Prop := Relation.ReflTransGen Turn

/-- What the next turn of a run leads to, if there is one. -/
def next? (p : Reader × Gathered) : Option (Reader × Gathered) :=
  if p.1.frames.isEmpty then none
  else
    match p.1.step p.2 with
    | .ok (ts, r, g) => some (r, if ts.isEmpty then g else {})
    | .error _ => none

variable {p q : Reader × Gathered}

theorem turn_of_next? (h : next? p = some q) : Turn p q := by
  unfold next? at h
  split at h
  · cases h
  · rename_i hSome
    split at h
    · rename_i ts r g hStep
      cases h
      exact ⟨by simpa using hSome, ts, g, hStep, rfl⟩
    · cases h

/-- As many turns as a list is long. -/
theorem turns_of_foldlM {l : List Unit} (h : l.foldlM (fun p _ => next? p) p = some q) :
    Turns p q := by
  induction l generalizing p with
  | nil =>
    cases h
    exact .refl
  | cons _ l ih =>
    rw [List.foldlM_cons] at h
    obtain ⟨x, hNext, h⟩ := Option.bind_eq_some_iff.mp h
    exact .head (turn_of_next? hNext) (ih h)

theorem Turn.moves (h : Turn p q) : ∃ ts, Moves p.1 ts q.1 := by
  obtain ⟨hSome, ts, g, hStep, -⟩ := h
  exact ⟨ts, (exits_step hSome).result hStep⟩

/-- A run goes on behind a turn. -/
theorem ending_of_turn (h : Turn p q) (n : Nat) :
    (run (n + 1) p.1 p.2).ending = (run n q.1 q.2).ending := by
  obtain ⟨hSome, ts, g, hStep, hGathered⟩ := h
  rw [run, if_neg (by simpa using hSome), hStep, hGathered]

theorem ending_of_fault {f : Fault} (hSome : r.frames ≠ []) (h : r.step g = .error f) (n : Nat) :
    (run (n + 1) r g).ending = .error (f.orInFile r.path?) := by
  rw [run, if_neg (by simpa using hSome), h]

/-- No run ends with a fault of names that clash. -/
theorem category_of_ending {n : Nat} {f : Fault} (h : (run n r g).ending = .error f) :
    f.cause.category ≠ .duplicate := by
  induction n generalizing r g with
  | zero =>
    cases h
    nofun
  | succ n ih =>
    by_cases hSome : r.frames = []
    · rw [run, hSome] at h
      cases h
    · cases hStep : r.step g with
      | error fault =>
        rw [ending_of_fault hSome hStep] at h
        cases h
        exact ((exits_step hSome).fault hStep).category_ne
      | ok x =>
        obtain ⟨ts, next, gathered⟩ := x
        have hTurn : Turn (r, g) (next, if ts.isEmpty then gathered else {}) :=
          ⟨hSome, ts, gathered, hStep, rfl⟩
        exact ih ((ending_of_turn hTurn n).symm.trans h)

/-- The turns of a run under which a measure gets smaller are no more than the run has steps. -/
theorem ending_of_turns {m : Reader → Nat} (h : Turns p q)
    (hMeasure : ∀ x y, Turns p x → Turn x y → m y.1 < m x.1) {n : Nat} (hn : m p.1 < n) :
    ∃ k, m q.1 < k ∧ (run n p.1 p.2).ending = (run k q.1 q.2).ending := by
  induction h with
  | refl => exact ⟨n, hn, rfl⟩
  | tail hTurns hTurn ih =>
    obtain ⟨k, hk, hEnding⟩ := ih
    have hLess := hMeasure _ _ hTurns hTurn
    obtain ⟨k, rfl⟩ : ∃ j, k = j + 1 := ⟨k - 1, by omega⟩
    exact ⟨k, by omega, hEnding.trans (ending_of_turn hTurn k)⟩

end IdlReader.Reader
