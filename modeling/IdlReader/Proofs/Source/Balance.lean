import IdlReader.Proofs.Source.Turn

/-!
# Sections of included files

All sources share one stack of open sections; a source only knows how many sections were open when
it was opened. A directive crosses the bounds of its source if it switches or closes a section that
was open before. Between the turn that opens a file and the one that closes it the sections from
before stay below all others, unless a directive crosses the bounds of a source.

* `Reader.Visit.sections_eq`: the sections when a file is opened and when it is closed.
* `Reader.step_of_unclosed`: a file with a section that it does not close.
* `Reader.step_of_endif`: the directive that closes a section, which may cross the bounds.
-/

namespace IdlReader.Reader

variable {r r' : Reader} {p q x y : Reader × Gathered}

/-- The keywords of the directives that switch or close a section. -/
def branchKeywords : List String := ["elif", "else", "endif"]

/-- Whether the next step of a reader carries out a directive that switches or closes a section
which was open before the innermost source was opened. -/
def crosses (r : Reader) : Bool :=
  r.skipDisabled.raw.toOption.any fun x => x.1.kind == .directive &&
    branchKeywords.contains x.1.keyword &&
    r.frames.head?.any fun f => decide (r.sections.length ≤ f.sectionsBelow)

theorem crosses_eq {t : Token} {f : Frame} {fs : List Frame} (hMeets : r.Meets t r')
    (hKind : t.kind = .directive) (hKeyword : t.keyword ∈ branchKeywords)
    (hFrames : r.frames = f :: fs) :
    r.crosses = decide (r.sections.length ≤ f.sectionsBelow) := by
  unfold crosses
  rw [show r.skipDisabled.raw = .ok (t, r') from hMeets, hFrames]
  change (t.kind == .directive && branchKeywords.contains t.keyword && _) = _
  rw [hKind, List.contains_iff_mem.mpr hKeyword]
  rfl

/-- A directive that does not cross has a section of its source to switch or to close. -/
theorem lt_sections_of_not_crosses {t : Token} {f : Frame} {fs : List Frame}
    (hMeets : r.Meets t r') (hKind : t.kind = .directive) (hKeyword : t.keyword ∈ branchKeywords)
    (hFrames : r.frames = f :: fs) (h : r.crosses = false) :
    f.sectionsBelow < r.sections.length := by
  rw [crosses_eq hMeets hKind hKeyword hFrames] at h
  exact Nat.lt_of_not_le (of_decide_eq_false h)

theorem crosses_of_le {t : Token} {f : Frame} {fs : List Frame} (hMeets : r.Meets t r')
    (hKind : t.kind = .directive) (hKeyword : t.keyword ∈ branchKeywords)
    (hFrames : r.frames = f :: fs) (h : r.sections.length ≤ f.sectionsBelow) :
    r.crosses = true := by
  rw [crosses_eq hMeets hKind hKeyword hFrames]
  exact decide_eq_true h

/-! ## Bounds -/

/-- The numbers of sections that were open when the open sources were opened. -/
def bounds (r : Reader) : List Nat := r.frames.map Frame.sectionsBelow

theorem ReadOn.bounds_eq {fs gs : List Frame} (h : ReadOn fs gs) :
    gs.map Frame.sectionsBelow = fs.map Frame.sectionsBelow := by
  cases h <;> rfl

theorem Reads.bounds_eq (h : Reads r r') : r'.bounds = r.bounds := h.frames.bounds_eq

/-- Whether `k` sections were open when the source was opened that has the place `n` among the open
ones, counted from the outermost, and `low` sections at least when each one inside of it was. -/
def Bound (n k low : Nat) (r : Reader) : Prop :=
  ∃ above below, r.bounds = above ++ k :: below ∧ below.length + 1 = n ∧ ∀ b ∈ above, low ≤ b

/-- Whether the sections `base`, which were open when that source was opened, are still open below
all others. -/
structure Guarded (n : Nat) (base : Sections) (r : Reader) : Prop where
  bound : Bound n base.length base.length r
  suffix : base <:+ r.sections

theorem length_bounds (r : Reader) : r.bounds.length = r.frames.length := List.length_map _

/-- What a move does to the bounds: the innermost one goes, one comes or they stay. -/
theorem Moves.bounds {ts : List Token} (h : Moves r ts r') :
    (∃ b, r.bounds = b :: r'.bounds) ∨ r'.bounds = r.sections.length :: r.bounds ∨
      r'.bounds = r.bounds := by
  cases h with
  | @closes t r₁ f fs hMeets _ hFrames _ =>
    refine Or.inl ⟨f.sectionsBelow, ?_⟩
    rw [← hMeets.consumes.reads.bounds_eq, Reader.bounds, hFrames]
    rfl
  | carries hMeets _ hCarries =>
    have hReads := hMeets.consumes.reads
    rw [← hReads.bounds_eq, ← hReads.sections_eq]
    cases hCarries with
    | includes _ _ _ _ _ => exact Or.inr (Or.inl rfl)
    | reads hReads _ => exact Or.inr (Or.inr hReads.bounds_eq)
    | _ => exact Or.inr (Or.inr rfl)
  | reads _ _ _ hReads _ => exact Or.inr (Or.inr hReads.bounds_eq)

theorem Bound.of_moves {n k low : Nat} {ts : List Token} (h : Bound n k low r)
    (hMoves : Moves r ts r') (hLength : n ≤ r'.frames.length) (hLow : low ≤ r.sections.length) :
    Bound n k low r' := by
  obtain ⟨above, below, hBounds, hBelow, hAbove⟩ := h
  rw [← length_bounds] at hLength
  rcases hMoves.bounds with ⟨b, hb⟩ | hb | hb
  · rw [hb] at hBounds
    cases above with
    | nil =>
      have hEq := (List.cons.inj hBounds).2
      rw [hEq] at hLength
      omega
    | cons a above =>
      exact ⟨above, below, (List.cons.inj hBounds).2, hBelow,
        fun b hb => hAbove b (List.mem_cons_of_mem a hb)⟩
  · refine ⟨_ :: above, below, by rw [hb, hBounds]; rfl, hBelow, fun b hMember => ?_⟩
    rcases List.mem_cons.mp hMember with rfl | hMember
    · exact hLow
    · exact hAbove b hMember
  · exact ⟨above, below, by rw [hb, hBounds], hBelow, hAbove⟩

/-! ## Sections from before -/

theorem suffix_of_lt {s : Section} {base rest : Sections} (h : base <:+ s :: rest)
    (hLength : base.length < (s :: rest).length) : base <:+ rest := by
  rcases List.suffix_cons_iff.mp h with rfl | hSuffix
  · exact absurd hLength (Nat.lt_irrefl _)
  · exact hSuffix

/-- A directive that does not cross keeps the sections from before. -/
theorem Guarded.suffix_of_carries {n : Nat} {base : Sections} {t : Token} {r₁ : Reader}
    (h : Guarded n base r) (hMeets : r.Meets t r₁) (hKind : t.kind = .directive)
    (hCarries : Carries r₁ t.keyword r') (hCrosses : r.crosses = false) : base <:+ r'.sections := by
  have hSections := hMeets.consumes.reads.sections_eq
  have hSuffix : base <:+ r₁.sections := hSections ▸ h.suffix
  -- The innermost source was opened when the sections from before were open.
  have hInside : ∀ {s rest}, r₁.sections = s :: rest → t.keyword ∈ branchKeywords →
      base <:+ rest := by
    intro s rest hs hKeyword
    obtain ⟨above, below, hBounds, -, hAbove⟩ := h.bound
    cases hFrames : r.frames with
    | nil =>
      rw [Reader.bounds, hFrames] at hBounds
      exact absurd hBounds.symm (by simp)
    | cons f fs =>
      have hLess := lt_sections_of_not_crosses hMeets hKind hKeyword hFrames hCrosses
      have hInnermost : base.length ≤ f.sectionsBelow := by
        rw [Reader.bounds, hFrames, List.map_cons] at hBounds
        cases above with
        | nil => exact Nat.le_of_eq (List.cons.inj hBounds).1.symm
        | cons a above =>
          rw [(List.cons.inj hBounds).1]
          exact hAbove a List.mem_cons_self
      rw [← hSections, hs] at hLess
      exact suffix_of_lt (hs ▸ hSuffix) (Nat.lt_of_le_of_lt hInnermost hLess)
  cases hCarries with
  | opens s => exact hSuffix.trans (List.suffix_cons _ _)
  | switches s' hKeyword hs =>
    refine (hInside hs ?_).trans (List.suffix_cons _ _)
    rcases hKeyword with hElif | hElse
    · rw [hElif]
      decide
    · rw [hElse]
      decide
  | closes hKeyword hs =>
    refine hInside hs ?_
    rw [hKeyword]
    decide
  | defines macros => exact hSuffix
  | includes _ _ _ _ _ => exact hSuffix
  | reads hReads _ => exact hReads.sections_eq ▸ hSuffix

theorem Guarded.of_moves {n : Nat} {base : Sections} {ts : List Token} (h : Guarded n base r)
    (hMoves : Moves r ts r') (hLength : n ≤ r'.frames.length) (hCrosses : r.crosses = false) :
    Guarded n base r' := by
  refine ⟨h.bound.of_moves hMoves hLength h.suffix.length_le, ?_⟩
  cases hMoves with
  | closes hMeets _ _ _ => exact hMeets.consumes.reads.sections_eq ▸ h.suffix
  | carries hMeets hKind hCarries => exact h.suffix_of_carries hMeets hKind hCarries hCrosses
  | reads _ _ _ hReads _ => exact hReads.sections_eq ▸ h.suffix

/-! ## Visits -/

/-- Whether turns of a run stay inside of `n` open sources, each of them with the property `P`. -/
abbrev TurnsInside (n : Nat) (P : Reader → Prop) : Reader × Gathered → Reader × Gathered → Prop :=
  Relation.ReflTransGen fun p q => Turn p q ∧ n ≤ q.1.frames.length ∧ P p.1

/-- Whether the turn from `p` to `q` opens a file, and turns that have the property `P` lead from
`q` to `x` while the file is open. -/
structure Visit (P : Reader → Prop) (p q x : Reader × Gathered) : Prop where
  turn : Turn p q
  opens : p.1.frames.length < q.1.frames.length
  inside : TurnsInside q.1.frames.length P q x

theorem opened_of_moves {ts : List Token} (h : Moves r ts r')
    (hOpens : r.frames.length < r'.frames.length) :
    r'.sections = r.sections ∧ r'.bounds = r.sections.length :: r.bounds := by
  have hStays : ∀ {r₁}, Reads r₁ r' → Reads r r₁ → False := by
    intro r₁ h₁ h
    rw [h₁.length_frames, h.length_frames] at hOpens
    exact Nat.lt_irrefl _ hOpens
  cases h with
  | @closes t r₁ f fs hMeets _ hFrames _ =>
    have hLength := hMeets.consumes.reads.length_frames
    rw [hFrames, List.length_cons] at hLength
    dsimp only at hOpens
    omega
  | carries hMeets _ hCarries =>
    have hReads := hMeets.consumes.reads
    rw [← hReads.bounds_eq, ← hReads.sections_eq]
    cases hCarries with
    | includes _ _ _ _ _ => exact ⟨rfl, rfl⟩
    | reads hReads' _ => exact absurd (hStays hReads' hReads) id
    | _ => exact absurd hOpens (by rw [← hReads.length_frames]; exact Nat.lt_irrefl _)
  | reads _ _ _ hReads _ => exact absurd (hStays hReads (Reads.refl r)) id

/-- A file is closed with all sections, of which none was opened in it and left open. -/
theorem closed_of_moves {ts : List Token} (h : Moves r ts r')
    (hCloses : r'.frames.length < r.frames.length) :
    r'.sections = r.sections ∧ ∃ b, r.bounds = b :: r'.bounds ∧ r.sections.length ≤ b := by
  have hStays : ∀ {r₁}, Reads r r₁ → r₁.frames.length ≤ r'.frames.length → False := by
    intro r₁ h hLength
    rw [h.length_frames] at hLength
    exact Nat.not_le_of_lt hCloses hLength
  cases h with
  | @closes t r₁ f fs hMeets _ hFrames hSections =>
    have hReads := hMeets.consumes.reads
    refine ⟨hReads.sections_eq, f.sectionsBelow, ?_, hSections⟩
    rw [← hReads.bounds_eq, Reader.bounds, hFrames]
    rfl
  | carries hMeets _ hCarries =>
    have hReads := hMeets.consumes.reads
    cases hCarries with
    | includes _ _ _ _ _ => exact absurd (hStays hReads (Nat.le_succ _)) id
    | reads hReads' _ => exact absurd (hStays hReads (Nat.le_of_eq hReads'.length_frames.symm)) id
    | _ => exact absurd (hStays hReads (Nat.le_refl _)) id
  | reads _ _ _ hReads _ => exact absurd (hStays hReads (Nat.le_refl _)) id

namespace Visit

variable {P : Reader → Prop}

/-- A file that is opened lies directly inside of the source that includes it. -/
theorem length_eq (h : Visit P p q x) : q.1.frames.length = p.1.frames.length + 1 := by
  obtain ⟨ts, hMoves⟩ := h.turn.moves
  have hBounds := (opened_of_moves hMoves h.opens).2
  rw [← length_bounds, hBounds, List.length_cons, length_bounds]

theorem guarded_opened (h : Visit P p q x) : Guarded q.1.frames.length p.1.sections q.1 := by
  obtain ⟨ts, hMoves⟩ := h.turn.moves
  obtain ⟨hSections, hBounds⟩ := opened_of_moves hMoves h.opens
  refine ⟨⟨[], p.1.bounds, hBounds, ?_, nofun⟩, hSections ▸ List.suffix_refl _⟩
  rw [length_bounds, h.length_eq]

theorem bound (h : Visit P p q x) :
    Bound q.1.frames.length p.1.sections.length 0 x.1 := by
  obtain ⟨above, below, hBounds, hBelow, -⟩ := h.guarded_opened.bound
  obtain ⟨-, -, hInside⟩ := h
  induction hInside with
  | refl => exact ⟨above, below, hBounds, hBelow, fun b _ => Nat.zero_le b⟩
  | tail _ hTurn ih =>
    obtain ⟨hTurn, hLength, -⟩ := hTurn
    obtain ⟨ts, hMoves⟩ := hTurn.moves
    exact ih.of_moves hMoves hLength (Nat.zero_le _)

theorem guarded (h : Visit (fun r => r.crosses = false) p q x) :
    Guarded q.1.frames.length p.1.sections x.1 := by
  have hOpened := h.guarded_opened
  obtain ⟨-, -, hInside⟩ := h
  induction hInside with
  | refl => exact hOpened
  | tail _ hTurn ih =>
    obtain ⟨hTurn, hLength, hCrosses⟩ := hTurn
    obtain ⟨ts, hMoves⟩ := hTurn.moves
    exact ih.of_moves hMoves hLength hCrosses

theorem length_le (h : Visit P p q x) : q.1.frames.length ≤ x.1.frames.length := by
  obtain ⟨above, below, hBounds, hBelow, -⟩ := h.bound
  rw [← length_bounds x.1, hBounds, List.length_append, List.length_cons]
  omega

theorem turns (h : Visit P p q x) : Turns p x :=
  .head h.turn (Relation.ReflTransGen.mono (fun _ _ hTurn => hTurn.1) _ _ h.inside)

theorem frames_cons (h : Visit P p q x) : ∃ f fs, x.1.frames = f :: fs := by
  have hLength := h.length_le
  rw [h.length_eq] at hLength
  exact List.exists_cons_of_length_pos (Nat.lt_of_lt_of_le (Nat.succ_pos _) hLength)

/-- The bound of the file when it is the innermost source. -/
theorem sectionsBelow_eq (h : Visit P p q x) {f : Frame} {fs : List Frame}
    (hFrames : x.1.frames = f :: fs) (hLength : x.1.frames.length = q.1.frames.length) :
    f.sectionsBelow = p.1.sections.length := by
  obtain ⟨above, below, hBounds, hBelow, -⟩ := h.bound
  have hAbove : above = [] := by
    have hLengths := congrArg List.length hBounds
    rw [length_bounds, List.length_append, List.length_cons] at hLengths
    exact List.eq_nil_of_length_eq_zero (by omega)
  rw [hAbove, Reader.bounds, hFrames] at hBounds
  exact (List.cons.inj hBounds).1

/-- The sections that are open when a file is closed are those that were open when it was opened,
if no directive crossed the bounds of a source in between. -/
theorem sections_eq (h : Visit (fun r => r.crosses = false) p q x) (hClose : Turn x y)
    (hClosed : y.1.frames.length < q.1.frames.length) : y.1.sections = p.1.sections := by
  obtain ⟨ts, hMoves⟩ := hClose.moves
  have hLength := h.length_le
  have hSuffix := h.guarded.suffix
  obtain ⟨hSections, b, hBounds, hLe⟩ := closed_of_moves hMoves (by omega)
  obtain ⟨above, below, hFile, hBelow, -⟩ := h.bound
  have hInnermost : b = p.1.sections.length := by
    have hLengths := congrArg List.length (hBounds.symm.trans hFile)
    rw [← length_bounds y.1] at hClosed
    rw [List.length_cons, List.length_append, List.length_cons] at hLengths
    have hAbove : above = [] := List.eq_nil_of_length_eq_zero (by omega)
    rw [hAbove] at hFile
    exact (List.cons.inj (hBounds.symm.trans hFile)).1
  rw [hSections]
  exact (hSuffix.eq_of_length_le (hInnermost ▸ hLe)).symm

end Visit

/-! ## Sources that are not balanced -/

/-- At the end of a source no section may be left open that was opened after it. -/
theorem step_of_unclosed {t : Token} {f : Frame} {fs : List Frame} {g : Gathered}
    (hMeets : r.Meets t r') (hKind : t.kind = .finish) (hFrames : r.frames = f :: fs)
    (hOpen : f.sectionsBelow < r.sections.length) :
    ∃ fault, r.step g = .error fault ∧ fault.cause = .endifMissing ∧ fault.file = f.path := by
  have hReads := hMeets.consumes.reads
  obtain ⟨c, hFrames'⟩ : ∃ c, r'.frames = { f with cursor := c } :: fs := by
    have hOn := hReads.frames
    rw [hFrames] at hOn
    generalize r'.frames = gs at hOn
    cases hOn with
    | innermost _ => exact ⟨_, rfl⟩
  have hLeave : r'.leave =
      .error (((Fault.of .endifMissing).placed c.position).orInFile f.path) := by
    unfold leave Sections.closeTo
    rw [hFrames', hReads.sections_eq]
    dsimp only
    rw [if_pos hOpen]
  refine ⟨⟨.endifMissing, some c.position, f.path⟩, ?_, rfl, rfl⟩
  unfold step
  rw [show r.skipDisabled.raw = .ok (t, r') from hMeets, ok_bind_eq]
  dsimp only
  rw [hKind]
  dsimp only
  rw [hLeave]
  rfl

/-- The innermost section is closed, whichever source it was opened in. -/
theorem step_of_endif {t : Token} {s : Section} {rest : Sections} {g : Gathered}
    (hMeets : r.Meets t r') (hKind : t.kind = .directive)
    (hKeyword : t.keyword = "endif") (hSections : r.sections = s :: rest) :
    r.step g = .ok ([], { r' with sections := rest }, g) := by
  have hReads := hMeets.consumes.reads
  have hDirective : r'.processDirective g t = .ok ({ r' with sections := rest }, g) := by
    rw [processDirective_endif hKeyword, hReads.sections_eq, hSections]
    rfl
  unfold step
  rw [show r.skipDisabled.raw = .ok (t, r') from hMeets, ok_bind_eq]
  dsimp only
  rw [hKind]
  dsimp only
  rw [hDirective]
  rfl

end IdlReader.Reader
