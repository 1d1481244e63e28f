import IdlReader.Document
import IdlReader.Proofs.Source.Files
import IdlReader.Proofs.Source.Turn

/-!
# Included files

No file is opened twice, and every turn of a run uses up something of the files that were not opened
or of what the open sources have left. So every run comes to its end, and no bound of it is met.

* `Reader.bounded_of_turns`: the open sources and the files that were opened.
* `Reader.remaining_lt_of_turn`: what a turn uses up.
* `Reader.ends_run`: how a run ends.
-/

namespace IdlReader.Reader

variable {r r' : Reader} {p q : Reader × Gathered}

/-! ## What turns use up -/

/-- The bytes of files, and two for each file. -/
def bytesOf (fs : List (List String × List UInt8)) : Nat := fs.foldr (fun f n => f.2.length + 2 + n) 0

/-- The files that were not opened. -/
def unopened (r : Reader) : List (List String × List UInt8) :=
  r.files.files.filter fun f => !r.opened.contains (Path.ofNames f.1)

/-- What is left to a run: the files that were not opened and what the reader has left. -/
def remaining (r : Reader) : Nat := 2 * bytesOf r.unopened + r.weight

theorem bytesOf_filter_le (keep : List String × List UInt8 → Bool)
    (fs : List (List String × List UInt8)) : bytesOf (fs.filter keep) ≤ bytesOf fs := by
  induction fs with
  | nil => exact Nat.le_refl _
  | cons f fs ih =>
    rw [List.filter_cons]
    split
    · exact Nat.add_le_add_left ih _
    · exact Nat.le_trans ih (Nat.le_add_left _ _)

/-- What a file counts that is not kept. -/
theorem bytesOf_filter_add_le {keep : List String × List UInt8 → Bool}
    {fs : List (List String × List UInt8)} {f : List String × List UInt8} (hFile : f ∈ fs)
    (hDrop : keep f = false) : bytesOf (fs.filter keep) + (f.2.length + 2) ≤ bytesOf fs := by
  induction fs with
  | nil => cases hFile
  | cons e es ih =>
    rw [List.filter_cons]
    rcases List.mem_cons.mp hFile with rfl | hFile
    · have hRest := bytesOf_filter_le keep es
      rw [hDrop, if_neg Bool.false_ne_true]
      simp only [bytesOf, List.foldr_cons] at hRest ⊢
      omega
    · have hRest := ih hFile
      split
      · simp only [bytesOf, List.foldr_cons] at hRest ⊢
        omega
      · simp only [bytesOf, List.foldr_cons] at hRest ⊢
        omega

/-- A file that is opened is taken from those that were not. -/
theorem bytesOf_unopened_cons {f : List String × List UInt8} (hFile : f ∈ r.files.files)
    (hNew : Path.ofNames f.1 ∉ r.opened) :
    bytesOf { r with opened := Path.ofNames f.1 :: r.opened }.unopened + (f.2.length + 2) ≤
      bytesOf r.unopened := by
  have hUnopened : { r with opened := Path.ofNames f.1 :: r.opened }.unopened =
      r.unopened.filter fun e => Path.ofNames e.1 != Path.ofNames f.1 := by
    rw [unopened, unopened, List.filter_filter]
    refine List.filter_congr fun e _ => ?_
    rw [List.contains_cons, Bool.not_or]
    rfl
  rw [hUnopened]
  refine bytesOf_filter_add_le (List.mem_filter.mpr ⟨hFile, ?_⟩) ?_
  · simpa using hNew
  · simp

theorem unopened_congr (hFiles : r'.files = r.files) (hOpened : r'.opened = r.opened) :
    r'.unopened = r.unopened := by
  rw [unopened, unopened, hFiles, hOpened]

theorem remaining_le_of_reads (h : Reads r r') (hWeight : r'.weight ≤ r.weight) :
    r'.remaining ≤ r.remaining := by
  rw [remaining, remaining, unopened_congr h.files_eq h.opened_eq]
  omega

/-- Carrying out a directive leaves no more than there was. -/
theorem remaining_le_of_carries (hProper : r.files.Proper) {keyword : String}
    (h : Carries r keyword r') : r'.remaining ≤ r.remaining := by
  cases h with
  | opens s => exact Nat.le_refl _
  | switches s' _ _ => exact Nat.le_refl _
  | closes _ _ => exact Nat.le_refl _
  | defines macros => exact Nat.le_refl _
  | reads hReads hWeight => exact remaining_le_of_reads hReads hWeight
  | @includes path canonical text kind hCanonical hNew hDepth hText =>
    obtain ⟨f, hFile, rfl, hLength⟩ := FileTree.read_canonical hProper hCanonical hText
    have hBytes := bytesOf_unopened_cons hFile hNew
    have hWeight : ({ r with opened := Path.ofNames f.1 :: r.opened }.enter
        (some (Path.ofNames f.1)) text.toList kind).weight =
        2 * (text.toList.length + 2) + r.weight := by
      simp only [weight, enter, charactersOf, List.foldr_cons, Cursor.ofText]
      omega
    rw [remaining, remaining, hWeight]
    change 2 * bytesOf { r with opened := Path.ofNames f.1 :: r.opened }.unopened + _ ≤ _
    omega

theorem remaining_lt_of_moves (hProper : r.files.Proper) {ts : List Token} (h : Moves r ts r') :
    r'.remaining < r.remaining := by
  cases h with
  | @closes t r₁ f fs hMeets hKind hFrames _ =>
    have hConsumes := hMeets.consumes
    have hLighter := hConsumes.lighter
    have hWeight : r₁.weight = { r₁ with frames := fs }.weight + 2 * (f.cursor.rest.length + 2) := by
      rw [weight, weight, hFrames]
      simp only [charactersOf, List.foldr_cons]
      omega
    have hUnopened := unopened_congr hConsumes.reads.files_eq hConsumes.reads.opened_eq
    rw [remaining, remaining, ← hUnopened]
    change 2 * bytesOf r₁.unopened + _ < _
    omega
  | @carries t r₁ r' hMeets hKind hCarries =>
    have hConsumes := hMeets.consumes
    have hLighter := hConsumes.lighter
    rw [Token.isFinish, hKind, if_neg (by decide)] at hLighter
    have hFiles := hConsumes.reads.files_eq
    have hAfter := remaining_le_of_carries (hFiles ▸ hProper) hCarries
    have hBefore : r₁.remaining + 2 ≤ r.remaining := by
      rw [remaining, remaining, unopened_congr hFiles hConsumes.reads.opened_eq]
      omega
    omega
  | reads _ _ _ hReads hWeight =>
    rw [remaining, remaining, unopened_congr hReads.files_eq hReads.opened_eq]
    omega

/-! ## The files that were opened -/

/-- What holds of the open sources and of the files that were opened. -/
structure Bounded (r : Reader) : Prop where
  depth : r.frames.length ≤ max 1 r.env.maxIncludeDepth
  paths : r.sources.filterMap SourceInfo.path = r.opened.reverse
  nodup : r.opened.Nodup
  canonical : ∀ path ∈ r.opened, r.files.canonical path = .ok path

theorem Bounded.of_reads (h : r.Bounded) (hReads : Reads r r') : r'.Bounded where
  depth := by rw [hReads.length_frames, hReads.env_eq]; exact h.depth
  paths := by rw [hReads.sources_eq, hReads.opened_eq]; exact h.paths
  nodup := by rw [hReads.opened_eq]; exact h.nodup
  canonical := by rw [hReads.opened_eq, hReads.files_eq]; exact h.canonical

theorem Bounded.of_carries (h : r.Bounded) (hProper : r.files.Proper) {keyword : String}
    (hCarries : Carries r keyword r') : r'.Bounded := by
  cases hCarries with
  | opens s => exact ⟨h.depth, h.paths, h.nodup, h.canonical⟩
  | switches s' _ _ => exact ⟨h.depth, h.paths, h.nodup, h.canonical⟩
  | closes _ _ => exact ⟨h.depth, h.paths, h.nodup, h.canonical⟩
  | defines macros => exact ⟨h.depth, h.paths, h.nodup, h.canonical⟩
  | reads hReads _ => exact h.of_reads hReads
  | includes kind hCanonical hNew hDepth hText =>
    refine ⟨?_, ?_, List.nodup_cons.mpr ⟨hNew, h.nodup⟩, ?_⟩
    · exact Nat.le_trans hDepth (Nat.le_max_right _ _)
    · simp only [enter, List.filterMap_append, h.paths, List.reverse_cons]
      rfl
    · intro path hPath
      rcases List.mem_cons.mp hPath with rfl | hPath
      · exact FileTree.canonical_of_canonical hProper hCanonical
      · exact h.canonical path hPath

theorem Bounded.of_moves (h : r.Bounded) (hProper : r.files.Proper) {ts : List Token}
    (hMoves : Moves r ts r') : r'.Bounded := by
  cases hMoves with
  | @closes t r₁ f fs hMeets _ hFrames _ =>
    have h₁ := h.of_reads hMeets.consumes.reads
    refine ⟨Nat.le_trans (Nat.le_of_lt ?_) h₁.depth, h₁.paths, h₁.nodup, h₁.canonical⟩
    rw [hFrames]
    exact Nat.lt_succ_self _
  | carries hMeets _ hCarries =>
    have hReads := hMeets.consumes.reads
    exact (h.of_reads hReads).of_carries (hReads.files_eq ▸ hProper) hCarries
  | reads _ _ _ hReads _ => exact h.of_reads hReads

/-! ## Runs -/

theorem Carries.same {keyword : String} (h : Carries r keyword r') :
    r'.env = r.env ∧ r'.files = r.files := by
  cases h with
  | reads hReads _ => exact ⟨hReads.env_eq, hReads.files_eq⟩
  | _ => exact ⟨rfl, rfl⟩

theorem Moves.same {ts : List Token} (h : Moves r ts r') :
    r'.env = r.env ∧ r'.files = r.files := by
  cases h with
  | closes hMeets _ _ _ =>
    exact ⟨hMeets.consumes.reads.env_eq, hMeets.consumes.reads.files_eq⟩
  | carries hMeets _ hCarries =>
    obtain ⟨hEnv, hFiles⟩ := hCarries.same
    exact ⟨hEnv.trans hMeets.consumes.reads.env_eq, hFiles.trans hMeets.consumes.reads.files_eq⟩
  | reads _ _ _ hReads _ => exact ⟨hReads.env_eq, hReads.files_eq⟩

/-- Turns change neither the environment nor the files. -/
theorem same_of_turns (h : Turns p q) : q.1.env = p.1.env ∧ q.1.files = p.1.files := by
  induction h with
  | refl => exact ⟨rfl, rfl⟩
  | tail _ hTurn ih =>
    obtain ⟨ts, hMoves⟩ := hTurn.moves
    exact ⟨hMoves.same.1.trans ih.1, hMoves.same.2.trans ih.2⟩

theorem remaining_lt_of_turn (hProper : p.1.files.Proper) (h : Turn p q) :
    q.1.remaining < p.1.remaining := by
  obtain ⟨ts, hMoves⟩ := h.moves
  exact remaining_lt_of_moves hProper hMoves

theorem bounded_of_turns (hProper : p.1.files.Proper) (hBounded : p.1.Bounded) (h : Turns p q) :
    q.1.Bounded := by
  induction h with
  | refl => exact hBounded
  | tail hTurns hTurn ih =>
    obtain ⟨ts, hMoves⟩ := hTurn.moves
    exact ih.of_moves ((same_of_turns hTurns).2 ▸ hProper) hMoves

/-- How a run can end: all sources are closed, or a step is a fault. -/
inductive Ends (p : Reader × Gathered) (ending : Except Fault Gathered) : Prop where
  | closed : p.1.frames = [] → ending = .ok p.2 → Ends p ending
  | fault {f : Fault} : p.1.frames ≠ [] → p.1.step p.2 = .error f →
      ending = .error (f.orInFile p.1.path?) → Ends p ending

/-- With enough steps, a run comes to its end. -/
theorem ends_run (hProper : p.1.files.Proper) {n : Nat} (hn : p.1.remaining < n) :
    ∃ q, Turns p q ∧ Ends q (run n p.1 p.2).ending := by
  induction n generalizing p with
  | zero => cases hn
  | succ n ih =>
    by_cases hSome : p.1.frames = []
    · refine ⟨p, .refl, .closed hSome ?_⟩
      rw [run, hSome]
      rfl
    · cases hStep : p.1.step p.2 with
      | error f => exact ⟨p, .refl, .fault hSome hStep (ending_of_fault hSome hStep n)⟩
      | ok x =>
        have hTurn : Turn p (x.2.1, if x.1.isEmpty then x.2.2 else {}) :=
          ⟨hSome, x.1, x.2.2, hStep, rfl⟩
        have hLess := remaining_lt_of_turn hProper hTurn
        obtain ⟨q, hTurns, hEnds⟩ :=
          ih ((same_of_turns (.single hTurn)).2 ▸ hProper) (by omega)
        refine ⟨q, hTurns.head hTurn, ?_⟩
        rw [ending_of_turn hTurn]
        exact hEnds

/-! ## Include directives -/

/-- Whether the next step of a reader carries out the include directive `t`, which names the file
at `path`. -/
def Includes (r : Reader) (t : Token) (path : String) : Prop :=
  r.frames ≠ [] ∧ r.enabled = true ∧ t.kind = .directive ∧ t.keyword = "include" ∧
    ∃ r' isLocal name content, r.Meets t r' ∧
      includeTarget t.behindKeyword = .ok (isLocal, name, content) ∧
      r'.findInclude (String.ofList name) isLocal = some path

theorem processDirective_include {t : Token} {g : Gathered} (hKeyword : t.keyword = "include")
    (hEnabled : r.enabled = true) : r.processDirective g t =
      orAtDirective t.position (r.processInclude g t.behindKeyword t) := by
  unfold processDirective
  dsimp only
  rw [show String.ofList (t.text.toList.takeWhile Text.isWord) = "include" from hKeyword]
  rw [hEnabled]
  rfl

/-- A file that a directive names has a canonical path. -/
theorem canonical_of_findInclude {name path : String} {isLocal : Bool}
    (h : r.findInclude name isLocal = some path) : ∃ canonical,
      r.files.canonical path = .ok canonical := by
  have hFile : r.files.isFile path = true := List.find?_some h
  unfold FileTree.isFile at hFile
  cases hResolve : r.files.resolve path with
  | ok names =>
    refine ⟨Path.ofNames names, ?_⟩
    rw [FileTree.canonical, hResolve]
    rfl
  | error f =>
    rw [hResolve] at hFile
    cases hFile

/-- A file that was opened before, or that lies too deep, is not opened. -/
theorem step_of_includes {t : Token} {path : String} {g : Gathered} (h : r.Includes t path) :
    ∃ canonical, r.files.canonical path = .ok canonical ∧
      (canonical ∈ r.opened ∨ r.env.maxIncludeDepth ≤ r.frames.length → ∃ cause,
        cause = (if canonical ∈ r.opened then .includeRepeated canonical else .includeTooDeep) ∧
        r.step g = .error ⟨cause, some t.position, none⟩) := by
  obtain ⟨-, hEnabled, hKind, hKeyword, r', isLocal, name, content, hMeets, hTarget, hFind⟩ := h
  have hReads := hMeets.consumes.reads
  obtain ⟨canonical, hCanonical⟩ := canonical_of_findInclude hFind
  have hEnabled' : r'.enabled = true := by rw [enabled, hReads.sections_eq]; exact hEnabled
  have hStep : ∀ cause, r'.includeFile path isLocal = .error (Fault.of cause) →
      r.step g = .error ⟨cause, some t.position, none⟩ := by
    intro cause hFault
    have hInclude : r'.processInclude g t.behindKeyword t = .error (Fault.of cause) := by
      unfold processInclude
      rw [hTarget, ok_bind_eq]
      dsimp only
      rw [hFind]
      dsimp only
      rw [hFault, error_bind_eq]
    unfold step
    rw [show r.skipDisabled.raw = .ok (t, r') from hMeets, ok_bind_eq]
    dsimp only
    rw [hKind]
    dsimp only
    rw [processDirective_include hKeyword hEnabled', hInclude]
    rfl
  refine ⟨canonical, hReads.files_eq ▸ hCanonical, fun hRejected => ⟨_, rfl, hStep _ ?_⟩⟩
  by_cases hOpened : canonical ∈ r.opened
  · have hContains : r'.opened.contains canonical = true := by
      rw [hReads.opened_eq]
      simpa using hOpened
    rw [includeFile, hCanonical, if_pos hOpened]
    dsimp only
    rw [if_pos hContains]
    rfl
  · have hContains : ¬ r'.opened.contains canonical = true := by
      rw [hReads.opened_eq]
      simpa using hOpened
    have hDeep : r'.env.maxIncludeDepth ≤ r'.frames.length := by
      rw [hReads.env_eq, hReads.length_frames]
      exact hRejected.resolve_left hOpened
    rw [if_neg hOpened]
    rw [includeFile, hCanonical]
    dsimp only
    rw [if_neg hContains, if_pos hDeep]
    rfl

/-! ## Streams -/

theorem remaining_lt_budget (hAhead : r.ahead = none) : r.remaining < r.budget := by
  have hFiles : bytesOf r.unopened ≤ bytesOf r.files.files := bytesOf_filter_le _ _
  have hBudget : r.budget = 2 * (bytesOf r.files.files + charactersOf r.frames) + 2 := rfl
  rw [hBudget, remaining, weight, hAhead, weightAhead]
  omega

/-- A stream ends as the fault of any step says that its turns come to. -/
theorem ending_stream_of_fault (hProper : r.files.Proper) (hAhead : r.ahead = none)
    {g : Gathered} {f : Fault} (h : Turns (r, {}) (r', g)) (hSome : r'.frames ≠ [])
    (hStep : r'.step g = .error f) : r.stream.ending = .error (f.orInFile r'.path?) := by
  obtain ⟨n, hn, hEnding⟩ := ending_of_turns (m := remaining) h
    (fun x y hx hy => remaining_lt_of_turn ((same_of_turns hx).2 ▸ hProper) hy)
    (remaining_lt_budget hAhead)
  obtain ⟨n, rfl⟩ : ∃ k, n = k + 1 := ⟨n - 1, by omega⟩
  exact hEnding.trans (ending_of_fault hSome hStep n)

/-- The bounds of a run are not met. -/
theorem Ends.cause_ne {ending : Except Fault Gathered} (h : Ends p ending) {f : Fault}
    (hEnding : ending = .error f) : f.cause ≠ .inputExhausted := by
  cases h with
  | closed _ hOk =>
    rw [hOk] at hEnding
    cases hEnding
  | fault hSome hStep hFault =>
    have hFinishes := @exits_step p.1 p.2 hSome
    rw [hStep] at hFinishes
    rw [hFault] at hEnding
    cases hEnding
    exact hFinishes.ne_inputExhausted

end IdlReader.Reader
