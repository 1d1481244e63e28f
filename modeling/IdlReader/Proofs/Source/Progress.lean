import IdlReader.Proofs.Source.Bounds

/-!
# What reading uses up

Raw tokens are read from the innermost open source or were read ahead. Everything else of a reader
stays as it is, and the reader gets lighter: it weighs what its sources have left, with an allowance
for closing them, and the token ahead.

* `Reader.finishes_raw`: one raw token.
* `Reader.finishes_expandCall`: the call of a macro.
-/

namespace IdlReader.Reader

/-- Whether frames are those of which the innermost one was read on. -/
inductive ReadOn : List Frame → List Frame → Prop where
  | closed : ReadOn [] []
  | innermost {f : Frame} {fs : List Frame} {c : Cursor} :
      c.rest <:+ f.cursor.rest → ReadOn (f :: fs) ({ f with cursor := c } :: fs)

theorem ReadOn.refl : ∀ fs, ReadOn fs fs
  | [] => .closed
  | _ :: _ => .innermost (List.suffix_refl _)

theorem ReadOn.trans {fs gs hs : List Frame} (h : ReadOn fs gs) (h' : ReadOn gs hs) :
    ReadOn fs hs := by
  cases h with
  | closed => exact h'
  | innermost hSuffix =>
    cases h' with
    | innermost hSuffix' => exact .innermost (hSuffix'.trans hSuffix)

theorem ReadOn.length_eq {fs gs : List Frame} (h : ReadOn fs gs) : gs.length = fs.length := by
  cases h <;> rfl

/-- Whether a reader is another one that was read on: only the innermost source and the token ahead
may differ. -/
structure Reads (r r' : Reader) : Prop where
  frames : ReadOn r.frames r'.frames
  same : r' = { r with frames := r'.frames, ahead := r'.ahead }

variable {r r' : Reader} {g : Gathered}

namespace Reads

theorem refl (r : Reader) : Reads r r := ⟨.refl _, rfl⟩

theorem trans {r'' : Reader} (h : Reads r r') (h' : Reads r' r'') : Reads r r'' := by
  refine ⟨h.frames.trans h'.frames, ?_⟩
  rw [h'.same, h.same]

theorem setAhead (h : Reads r r') (t : Option Token) : Reads r { r' with ahead := t } := by
  refine ⟨h.frames, ?_⟩
  rw [h.same]

theorem env_eq (h : Reads r r') : r'.env = r.env := by rw [h.same]

theorem files_eq (h : Reads r r') : r'.files = r.files := by rw [h.same]

theorem macros_eq (h : Reads r r') : r'.macros = r.macros := by rw [h.same]

theorem sections_eq (h : Reads r r') : r'.sections = r.sections := by rw [h.same]

theorem sources_eq (h : Reads r r') : r'.sources = r.sources := by rw [h.same]

theorem opened_eq (h : Reads r r') : r'.opened = r.opened := by rw [h.same]

theorem length_frames (h : Reads r r') : r'.frames.length = r.frames.length :=
  h.frames.length_eq

end Reads

/-! ## Weights -/

/-- The characters that open sources have left, and two for each source. -/
def charactersOf (fs : List Frame) : Nat := fs.foldr (fun f n => f.cursor.rest.length + 2 + n) 0

/-- The weight of the token ahead. The end of a source weighs less than other tokens, which covered
a character. -/
def weightAhead : Option Token → Nat
  | none => 0
  | some t => if t.isFinish then 1 else 2

/-- What a reader has left. -/
def weight (r : Reader) : Nat := 2 * charactersOf r.frames + weightAhead r.ahead

/-- Where no token was read ahead, the steps of a run are more than the reader weighs. -/
theorem weight_lt_budget {r : Reader} (hAhead : r.ahead = none) : r.weight < r.budget := by
  rw [weight, hAhead]
  change 2 * charactersOf r.frames + 0 < 2 * (_ + charactersOf r.frames) + 2
  omega

/-- A bound for the raw tokens that the innermost source has left. -/
def left (r : Reader) : Nat :=
  ((r.frames.head?.map fun f => f.cursor.rest.length).getD 0) + r.ahead.toList.length

theorem left_lt_charactersLeft (r : Reader) : r.left < r.charactersLeft := by
  have hAhead : r.ahead.toList.length ≤ 1 := by cases r.ahead <;> simp
  unfold left charactersLeft
  cases r.frames with
  | nil =>
    simp only [List.head?_nil, Option.map_none, Option.getD_none]
    omega
  | cons f fs =>
    dsimp only [List.head?_cons, Option.map_some, Option.getD_some]
    omega

theorem ReadOn.characters_le {fs gs : List Frame} (h : ReadOn fs gs) :
    charactersOf gs ≤ charactersOf fs := by
  cases h with
  | closed => exact Nat.le_refl _
  | innermost hSuffix =>
    have hLength := hSuffix.length_le
    simp only [charactersOf, List.foldr_cons]
    omega

/-- What reading the raw token `t` makes of a reader. -/
structure Consumes (r : Reader) (t : Token) (r' : Reader) : Prop where
  reads : Reads r r'
  ahead : r'.ahead = none
  lighter : r'.weight + (if t.isFinish then 0 else 2) ≤ r.weight
  fewer : r'.left + (if t.isFinish then 0 else 1) ≤ r.left

theorem reads_setCursor {f : Frame} {fs : List Frame} (h : r.frames = f :: fs) {c : Cursor}
    (hc : c.rest <:+ f.cursor.rest) : Reads r (r.setCursor c) := by
  unfold setCursor
  rw [h]
  refine ⟨?_, rfl⟩
  rw [h]
  exact .innermost hc

theorem weight_setCursor_le {f : Frame} {fs : List Frame} (h : r.frames = f :: fs) {c : Cursor}
    (hc : c.rest <:+ f.cursor.rest) : (r.setCursor c).weight ≤ r.weight := by
  have hCharacters := (reads_setCursor h hc).frames.characters_le
  have hAhead : (r.setCursor c).ahead = r.ahead := by
    rw [setCursor, h]
  rw [weight, weight, hAhead]
  omega

theorem finishes_raw : Finishes r.raw fun x => Consumes r x.1 x.2 := by
  unfold raw
  split
  · rename_i t hAhead
    refine Exits.ok ⟨(Reads.refl r).setAhead none, rfl, ?_, ?_⟩
    · rw [weight, weight, hAhead, weightAhead, weightAhead]
      split <;> simp
    · rw [left, left, hAhead]
      split <;> simp
  · rename_i hAhead
    split
    · rename_i hFrames
      exact Exits.ok ⟨Reads.refl r, hAhead, Nat.le_refl _, Nat.le_refl _⟩
    · rename_i f fs hFrames
      refine Token.finishes_next.bind ?_
      rintro ⟨t, c⟩ hCovers
      have hLength : c.rest.length ≤ f.cursor.rest.length := hCovers.suffix.length_le
      have hShorter : t.isFinish = false → c.rest.length < f.cursor.rest.length :=
        hCovers.shorter
      have hSet : r.setCursor c = { r with frames := { f with cursor := c } :: fs } := by
        rw [setCursor, hFrames]
      refine Exits.ok ⟨reads_setCursor hFrames hCovers.suffix, ?_, ?_, ?_⟩
      · change (r.setCursor c).ahead = none
        rw [hSet]
        exact hAhead
      · change (r.setCursor c).weight + (if t.isFinish then 0 else 2) ≤ r.weight
        rw [hSet, weight, weight, hFrames, hAhead]
        simp only [charactersOf, List.foldr_cons, weightAhead]
        cases hFinish : t.isFinish with
        | true =>
          rw [if_pos rfl]
          omega
        | false =>
          have hLess := hShorter hFinish
          rw [if_neg Bool.false_ne_true]
          omega
      · change (r.setCursor c).left + (if t.isFinish then 0 else 1) ≤ r.left
        rw [hSet, left, left, hFrames, hAhead]
        simp only [List.head?_cons, Option.map_some, Option.getD_some]
        cases hFinish : t.isFinish with
        | true =>
          rw [if_pos rfl]
          omega
        | false =>
          have hLess := hShorter hFinish
          rw [if_neg Bool.false_ne_true]
          omega

/-! ## Sections that are not read -/

theorem skipSection_append (fresh : Bool) (s : List Char) :
    (Text.skipSection fresh s).1 ++ (Text.skipSection fresh s).2 = s := by
  fun_induction Text.skipSection fresh s with
  | case1 => rfl
  | case2 => rfl
  | case3 fresh c s _ fresh' r ih => exact congrArg (c :: ·) ih

theorem reads_skipDisabled : Reads r r.skipDisabled := by
  unfold skipDisabled
  split
  · exact Reads.refl r
  · rename_i f fs hFrames
    split
    · exact Reads.refl r
    · exact reads_setCursor hFrames ⟨_, skipSection_append _ _⟩

theorem ahead_skipDisabled : r.skipDisabled.ahead = r.ahead := by
  rw [reads_skipDisabled.same]
  unfold skipDisabled setCursor
  repeat' split
  all_goals rfl

theorem weight_skipDisabled_le : r.skipDisabled.weight ≤ r.weight := by
  have hCharacters := (@reads_skipDisabled r).frames.characters_le
  rw [weight, weight, ahead_skipDisabled]
  omega

theorem left_skipDisabled_le : r.skipDisabled.left ≤ r.left := by
  rw [left, left, ahead_skipDisabled]
  have hFrames := (@reads_skipDisabled r).frames
  revert hFrames
  generalize r.skipDisabled.frames = gs
  generalize r.frames = fs
  intro hFrames
  cases hFrames with
  | closed => exact Nat.le_refl _
  | innermost hSuffix => exact Nat.add_le_add_right hSuffix.length_le _

/-! ## Calls of macros -/

/-- What reading raw tokens up to `t` makes of a reader. -/
theorem Consumes.trans {t u : Token} {r'' : Reader} (h : Consumes r t r')
    (h' : Consumes r' u r'') : Consumes r u r'' := by
  have hLighter := h.lighter
  have hFewer := h.fewer
  have hLighter' := h'.lighter
  have hFewer' := h'.fewer
  exact ⟨h.reads.trans h'.reads, h'.ahead, by omega, by omega⟩

theorem finishes_rawSignificant {n : Nat} (hn : r.left < n) :
    Finishes (rawSignificant n r g) fun x => Consumes r x.1 x.2.1 := by
  induction n generalizing r g with
  | zero => cases hn
  | succ n ih =>
    unfold rawSignificant
    refine finishes_raw.bind ?_
    rintro ⟨t, r'⟩ hConsumes
    refine Exits.ite (fun hComment => ?_) fun _ => Exits.ok hConsumes
    have hFinish : t.isFinish = false := by
      rw [Token.isFinish, show t.kind = .comment from hComment]
      rfl
    have hFewer : r'.left + (if t.isFinish then 0 else 1) ≤ r.left := hConsumes.fewer
    rw [hFinish, if_neg Bool.false_ne_true] at hFewer
    exact (ih (by omega)).mono fun x hx => hConsumes.trans hx

theorem finishes_callTokens {name : Token} {n depth : Nat} (hn : r.left < n) :
    Finishes (callTokens name n depth r g) fun x => Reads r x.2.1 ∧ x.2.1.ahead = none ∧
      x.2.1.weight ≤ r.weight := by
  induction n generalizing depth r g with
  | zero => cases hn
  | succ n ih =>
    unfold callTokens
    refine (finishes_rawSignificant r.left_lt_charactersLeft).bind ?_
    rintro ⟨t, r', g'⟩ hConsumes
    have hLighter : r'.weight + (if t.isFinish then 0 else 2) ≤ r.weight := hConsumes.lighter
    have hFewer : r'.left + (if t.isFinish then 0 else 1) ≤ r.left := hConsumes.fewer
    dsimp only
    generalize (if t.is "(" then depth + 1 else if t.is ")" then depth - 1 else depth) = depth'
    refine Exits.ite (fun _ => .failAt ⟨trivial, rfl⟩) fun hToken => ?_
    refine Exits.ite (fun _ => Exits.ok ?_) fun _ => ?_
    · exact ⟨hConsumes.reads, hConsumes.ahead, by dsimp only; omega⟩
    · have hFinish : t.isFinish = false := by
        cases hFinish : t.isFinish with
        | true => exact absurd (Or.inl hFinish) (by simpa using hToken)
        | false => rfl
      rw [hFinish, if_neg Bool.false_ne_true] at hFewer
      refine (ih (by omega)).bind ?_
      rintro ⟨ts, r'', g''⟩ ⟨hReads, hAhead, hWeight⟩
      refine Exits.ok ⟨hConsumes.reads.trans hReads, hAhead, ?_⟩
      dsimp only at hWeight ⊢
      omega

theorem finishes_expandCall {d : MacroDefinition} (name : Token) :
    Finishes (r.expandCall g d name) fun x => Reads r x.2.1 ∧ x.2.1.weight ≤ r.weight + 1 := by
  unfold expandCall
  split
  · refine (finishes_rawSignificant r.left_lt_charactersLeft).bind ?_
    rintro ⟨next, r', g'⟩ hConsumes
    have hLighter : r'.weight + (if next.isFinish then 0 else 2) ≤ r.weight := hConsumes.lighter
    dsimp only
    refine Exits.ite (fun _ => ?_) fun _ => Exits.ok ⟨hConsumes.reads.setAhead _, ?_⟩
    · refine (finishes_callTokens r'.left_lt_charactersLeft).bind ?_
      rintro ⟨ts, r'', g''⟩ ⟨hReads, -, hWeight⟩
      refine (Macro.exits_arguments ⟨trivial, rfl⟩ ts).bind fun args _ => ?_
      refine (Macro.exits_expand (admits_local _) _ _).bind fun tokens _ => Exits.ok ?_
      refine ⟨hConsumes.reads.trans hReads, ?_⟩
      dsimp only at hWeight ⊢
      omega
    · have hNone : r'.ahead = none := hConsumes.ahead
      rw [weight, hNone] at hLighter
      rw [weight]
      dsimp only [weightAhead] at hLighter ⊢
      split <;> simp_all
      omega
  · refine (Macro.exits_expand (admits_local _) _ _).bind fun tokens _ => ?_
    exact Exits.ok ⟨Reads.refl r, Nat.le_succ _⟩

end IdlReader.Reader
