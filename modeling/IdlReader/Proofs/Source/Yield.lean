import IdlReader.Proofs.Source.Delivery
import IdlReader.Proofs.Source.Turn

/-!
# What stretches of a run yield

A run yields tokens on the way from one reader to another one if it delivers them first and then
what the other one delivers. Stretches of a run are put together (`Reader.Yields.trans`) from single
steps.

`Reader.placed` is a reader with other open sections that stands elsewhere in its innermost source.
Reading a line changes nothing but these two.

* `Reader.yields_token`, `Reader.yields_comment`: tokens where the source is read.
* `Reader.yields_directive`: directives.
* `Reader.yields_space`, `Reader.yields_skipped`: places from which a run goes on in the same way.
* `Reader.stream_of_yields`: what a stream delivers.
-/

namespace IdlReader.Reader

variable {p q : Reader × Gathered} {ts us : List Token}

/-- Whether a run from `p` delivers the tokens `ts` and then goes on as it does from `q`, in no more
steps than the reader gets lighter. -/
def Yields (p : Reader × Gathered) (ts : List Token) (q : Reader × Gathered) : Prop :=
  ∃ k, k + q.1.weight ≤ p.1.weight ∧ ∀ n, (run (k + n) p.1 p.2).ending = (run n q.1 q.2).ending ∧
    (run (k + n) p.1 p.2).tokens = ts ++ (run n q.1 q.2).tokens

namespace Yields

theorem refl (p : Reader × Gathered) : Yields p [] p :=
  ⟨0, by omega, fun n => by rw [Nat.zero_add]; exact ⟨rfl, rfl⟩⟩

theorem trans {x : Reader × Gathered} (h : Yields p ts q) (h' : Yields q us x) :
    Yields p (ts ++ us) x := by
  obtain ⟨k, hk, hRun⟩ := h
  obtain ⟨m, hm, hRun'⟩ := h'
  refine ⟨k + m, by omega, fun n => ?_⟩
  obtain ⟨hEnding, hTokens⟩ := hRun (m + n)
  obtain ⟨hEnding', hTokens'⟩ := hRun' n
  rw [Nat.add_assoc]
  exact ⟨hEnding.trans hEnding', by rw [hTokens, hTokens', List.append_assoc]⟩

/-- A step that makes the reader lighter. -/
theorem of_step {r r' : Reader} {g g' : Gathered} (hSome : r.frames ≠ [])
    (hStep : r.step g = .ok (ts, r', g')) (hWeight : r'.weight < r.weight) :
    Yields (r, g) ts (r', if ts.isEmpty then g' else {}) := by
  refine ⟨1, by dsimp only; omega, fun n => ?_⟩
  rw [Nat.add_comm, run, if_neg (by simpa using hSome), hStep]
  refine ⟨rfl, ?_⟩
  rw [Stream.tokens, List.map_append, tokens_deliver]
  rfl

/-- Readers from which the next step is the same. -/
theorem of_same {r r' : Reader} {g : Gathered} (hSome : r.frames ≠ []) (hSome' : r'.frames ≠ [])
    (hStep : r.step g = r'.step g) (hPath : r.path? = r'.path?) (hSources : r.sources = r'.sources)
    (hWeight : r'.weight ≤ r.weight) : Yields (r, g) [] (r', g) := by
  have hRun : ∀ n, run n r g = run n r' g := by
    intro n
    cases n with
    | zero => rw [run, run, hSources]
    | succ n =>
      rw [run, run, if_neg (by simpa using hSome), if_neg (by simpa using hSome'), hStep, hPath,
        hSources]
  refine ⟨0, by dsimp only; omega, fun n => ?_⟩
  rw [Nat.zero_add, hRun]
  exact ⟨rfl, rfl⟩

end Yields

/-! ## Places in the innermost source -/

section Placed

variable {r : Reader} {f : Frame} {o : List Frame} {s s' : Sections} {c c' : Cursor}
  {g : Gathered} {t : Token}

/-- A reader in whose innermost source `f`, inside of the sources `o`, the cursor stands at `c`, with
the sections `s` open. -/
def placed (r : Reader) (f : Frame) (o : List Frame) (s : Sections) (c : Cursor) : Reader :=
  { r with frames := { f with cursor := c } :: o, sections := s, ahead := none }

@[simp] theorem macros_placed : (r.placed f o s c).macros = r.macros := rfl

@[simp] theorem sections_placed : (r.placed f o s c).sections = s := rfl

@[simp] theorem enabled_placed : (r.placed f o s c).enabled = s.enabled := rfl

theorem weight_placed : (r.placed f o s c).weight =
    2 * (c.rest.length + 2 + charactersOf o) := rfl

theorem raw_placed : (r.placed f o s c).raw =
    Token.next r.macros.lexicon true f.source c >>= fun x => .ok (x.1, r.placed f o s x.2) := rfl

theorem skipDisabled_placed_of_enabled (h : s.enabled = true) :
    (r.placed f o s c).skipDisabled = r.placed f o s c := by
  unfold skipDisabled
  rw [enabled_placed, h]
  rfl

theorem skipDisabled_placed_of_disabled (h : s.enabled = false) :
    (r.placed f o s c).skipDisabled = r.placed f o s
      (c.moveOver (Text.skipSection c.atLineStart c.rest).1
        (Text.skipSection c.atLineStart c.rest).2) := by
  unfold skipDisabled
  rw [enabled_placed, h]
  rfl

/-- The next token where the source is read. -/
theorem meets_placed (h : s.enabled = true)
    (hNext : Token.next r.macros.lexicon true f.source c = .ok (t, c')) :
    (r.placed f o s c).Meets t (r.placed f o s c') := by
  rw [Meets, skipDisabled_placed_of_enabled h, raw_placed, hNext]
  rfl

theorem weight_lt_of_meets (h : (r.placed f o s c).Meets t (r.placed f o s c'))
    (hKind : t.kind ≠ .finish) : (r.placed f o s' c').weight < (r.placed f o s c).weight := by
  have hLighter := h.consumes.lighter
  have hFinish : t.isFinish = false := beq_eq_false_iff_ne.mpr hKind
  rw [hFinish, if_neg Bool.false_ne_true] at hLighter
  rw [weight_placed] at hLighter ⊢
  omega

theorem yields_comment (h : s.enabled = true)
    (hNext : Token.next r.macros.lexicon true f.source c = .ok (t, c')) (hKind : t.kind = .comment) :
    Yields (r.placed f o s c, g) [] (r.placed f o s c', g.addComment t) := by
  have hMeets := meets_placed (o := o) h hNext
  refine Yields.of_step (List.cons_ne_nil _ _) ?_
    (weight_lt_of_meets hMeets (by rw [hKind]; exact nofun))
  unfold step
  rw [show (r.placed f o s c).skipDisabled.raw = .ok (t, r.placed f o s c') from hMeets,
    ok_bind_eq]
  dsimp only
  rw [hKind]
  dsimp only
  rw [enabled_placed, h]
  rfl

theorem yields_token (h : s.enabled = true)
    (hNext : Token.next r.macros.lexicon true f.source c = .ok (t, c')) (hFinish : t.kind ≠ .finish)
    (hComment : t.kind ≠ .comment) (hDirective : t.kind ≠ .directive)
    (hName : t.isWord = true → r.macros.find? t.text = none) :
    Yields (r.placed f o s c, g) [t] (r.placed f o s c', {}) := by
  have hMeets := meets_placed (o := o) h hNext
  have hStep : (r.placed f o s c).step g = .ok ([t], r.placed f o s c', g) := ?_
  · exact Yields.of_step (List.cons_ne_nil _ _) hStep (weight_lt_of_meets hMeets hFinish)
  unfold step
  rw [show (r.placed f o s c).skipDisabled.raw = .ok (t, r.placed f o s c') from hMeets,
    ok_bind_eq]
  dsimp only
  have hNone : (if t.isWord then r.macros.find? t.text else none) = none := by
    split
    · exact hName ‹_›
    · rfl
  split
  · exact absurd ‹_› hFinish
  · exact absurd ‹_› hDirective
  · rw [enabled_placed, h, if_neg (by simp), if_neg hComment, macros_placed, hNone]
    rfl

theorem yields_directive (hMeets : (r.placed f o s c).Meets t (r.placed f o s c'))
    (hKind : t.kind = .directive)
    (hProcess : (r.placed f o s c').processDirective g t = .ok (r.placed f o s' c', g)) :
    Yields (r.placed f o s c, g) [] (r.placed f o s' c', g) := by
  refine Yields.of_step (List.cons_ne_nil _ _) ?_
    (weight_lt_of_meets hMeets (by rw [hKind]; exact nofun))
  unfold step
  rw [show (r.placed f o s c).skipDisabled.raw = .ok (t, r.placed f o s c') from hMeets,
    ok_bind_eq]
  dsimp only
  rw [hKind]
  dsimp only
  rw [hProcess]
  rfl

/-- Places behind the same white space. -/
theorem yields_space (h : s.enabled = true) (hSkip : c'.skipSpace = c.skipSpace)
    (hLength : c'.rest.length ≤ c.rest.length) :
    Yields (r.placed f o s c, g) [] (r.placed f o s c', g) := by
  have hRaw : (r.placed f o s c).skipDisabled.raw = (r.placed f o s c').skipDisabled.raw := by
    rw [skipDisabled_placed_of_enabled h, skipDisabled_placed_of_enabled h, raw_placed, raw_placed]
    unfold Token.next
    rw [hSkip]
  refine Yields.of_same (List.cons_ne_nil _ _) (List.cons_ne_nil _ _) ?_ rfl rfl ?_
  · unfold step
    rw [hRaw]
  · rw [weight_placed, weight_placed]
    omega

/-- Places from which as much is skipped. -/
theorem yields_skipped
    (hSkip : (r.placed f o s c').skipDisabled = (r.placed f o s c).skipDisabled)
    (hLength : c'.rest.length ≤ c.rest.length) :
    Yields (r.placed f o s c, g) [] (r.placed f o s c', g) := by
  refine Yields.of_same (List.cons_ne_nil _ _) (List.cons_ne_nil _ _) ?_ rfl rfl ?_
  · unfold step
    rw [hSkip]
  · rw [weight_placed, weight_placed]
    omega

theorem leave_of_closeTo {r : Reader} (hFrames : r.frames = f :: o)
    (hClose : r.sections.closeTo f.sectionsBelow = .ok ()) : r.leave = .ok { r with frames := o } := by
  unfold leave
  rw [hFrames]
  dsimp only
  rw [hClose]

/-- The end of the source, in which no section is left open. -/
theorem yields_end (h : s.enabled = true) (hRest : c.rest = []) (hSections : s.length ≤ f.sectionsBelow) :
    Yields (r.placed f o s c, g) [] ({ r.placed f o s c with frames := o }, g) := by
  have hNext : Token.next r.macros.lexicon true f.source c =
      .ok (Token.finish c.skipSpace.position f.source, c.skipSpace) := by
    unfold Token.next
    dsimp only
    rw [show c.skipSpace.rest = [] by rw [Cursor.skipSpace, hRest]; rfl]
  have hLeave : (r.placed f o s c.skipSpace).leave = .ok { r.placed f o s c with frames := o } :=
    leave_of_closeTo rfl (if_neg (Nat.not_lt.mpr hSections))
  refine Yields.of_step (List.cons_ne_nil _ _) ?_ ?_
  · unfold step
    rw [show (r.placed f o s c).skipDisabled.raw = _ from meets_placed h hNext, ok_bind_eq]
    change ((r.placed f o s c.skipSpace).leave >>= fun r => .ok ([], r, g)) = _
    rw [hLeave]
    rfl
  · rw [weight_placed, hRest]
    change 2 * charactersOf o < _
    omega

end Placed

/-- What a stream delivers that yields tokens until all sources are read. -/
theorem stream_of_yields {r : Reader} (hAhead : r.ahead = none) (h : Yields (r, {}) ts q)
    (hEnd : q.1.frames = []) : r.stream.ending = .ok q.2 ∧ r.stream.tokens = ts := by
  have hBudget := weight_lt_budget hAhead
  obtain ⟨k, hk, hRun⟩ := h
  dsimp only at hk hRun
  obtain ⟨n, hn⟩ : ∃ n, r.budget = k + (n + 1) := ⟨r.budget - k - 1, by omega⟩
  have hClosed : run (n + 1) q.1 q.2 = ⟨[], .ok q.2, q.1.sources⟩ := by
    rw [run, hEnd]
    rfl
  obtain ⟨hEnding, hTokens⟩ := hRun (n + 1)
  rw [hClosed] at hEnding hTokens
  rw [stream, hn]
  exact ⟨hEnding, hTokens.trans (List.append_nil ts)⟩

end IdlReader.Reader
