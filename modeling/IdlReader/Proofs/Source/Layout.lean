import IdlReader.Proofs.Source.Alike
import IdlReader.Proofs.Source.Delivery
import IdlReader.Proofs.Source.Turn

/-!
# Sources without directives

In a source without directives the tokens besides comments are all that matters. A run delivers what
expanding the calls among them gives (`Macro.expandAll`), wherever the tokens stand and whatever
comments stand between them, and it ends without a fault if the source splits into tokens to its end and
the calls can be expanded.

* `Reader.Comes`: what is to come in such a source.
* `Reader.run_comes`: what a run delivers.
* `Macro.alike_expandAll`: tokens that differ in their places.
-/

namespace IdlReader

/-! ## Calls among the tokens of a source -/

namespace Macro

/-- The tokens up to the parenthesis that closes a call, which is one of them. `depth` parentheses are
open. -/
def callSpan (depth : Nat) : List Token → Except Fault (List Token)
  | [] => fail .callUnclosed
  | t :: ts =>
    if depthAfter depth t = 0 then .ok [t]
    else do
      let call ← callSpan (depthAfter depth t) ts
      return t :: call

/-- What the name of a macro and the tokens behind it are replaced by, and how many of these tokens
belong to the call. Where a fault is to come instead of the end, nothing can be said about a name at the
end. -/
def expandNext (table : MacroTable) (ends : Bool) (d : MacroDefinition) (name : Token) (ts : List Token) :
    Except Fault (List Token × Nat) :=
  if d.isFunctionLike then
    match ts with
    | [] => if ends then .ok ([name], 0) else fail .inputExhausted
    | t :: ts =>
      if t.is "(" then do
        let call ← callSpan 1 ts
        let (args, _) ← arguments call
        let tokens ← expand table name (some args)
        return (tokens, call.length + 1)
      else .ok ([name], 0)
  else do
    let tokens ← expand table name none
    return (tokens, 0)

/-- The tokens of a source with all calls expanded, behind the first `skip` ones, which belong to an
earlier call. -/
def expandAll (table : MacroTable) (ends : Bool) : (skip : Nat) → List Token → Except Fault (List Token)
  | _, [] => if ends then .ok [] else fail .inputExhausted
  | skip + 1, _ :: ts => expandAll table ends skip ts
  | 0, t :: ts =>
    match if t.isWord then table.find? t.text else none with
    | none => do
      let rest ← expandAll table ends 0 ts
      return t :: rest
    | some d => do
      let (tokens, taken) ← expandNext table ends d t ts
      let rest ← expandAll table ends taken ts
      return tokens ++ rest

variable {table : MacroTable} {ends : Bool} {ts us : List Token}

theorem expandAll_drop (n : Nat) (ts : List Token) :
    expandAll table ends n ts = expandAll table ends 0 (ts.drop n) := by
  induction ts generalizing n with
  | nil =>
    rw [List.drop_nil]
    cases n <;> rfl
  | cons t ts ih =>
    cases n with
    | zero => rfl
    | succ n => exact ih n

/-- Nothing is delivered to the end where there is no end. -/
theorem expandAll_open (table : MacroTable) (n : Nat) (ts : List Token) : ∃ f, expandAll table false n ts = .error f := by
  induction ts generalizing n with
  | nil => exact ⟨_, by cases n <;> rfl⟩
  | cons t ts ih =>
    cases n with
    | succ n => exact ih n
    | zero =>
      rw [expandAll]
      split
      · obtain ⟨f, hRest⟩ := ih 0
        rw [hRest]
        exact ⟨f, rfl⟩
      · rename_i d _
        cases expandNext table false d t ts with
        | error f => exact ⟨f, rfl⟩
        | ok x =>
          obtain ⟨tokens, taken⟩ := x
          obtain ⟨f, hRest⟩ := ih taken
          rw [ok_bind_eq]
          dsimp only
          rw [hRest]
          exact ⟨f, rfl⟩

/-! ### Tokens that differ in their places -/

theorem alike_callSpan (h : Alike ts us) (depth : Nat) :
    Corresponds Alike (callSpan depth ts) (callSpan depth us) := by
  induction h generalizing depth with
  | nil => exact .error _ _
  | @cons t u ts us ht hs ih =>
    have hDepth : depthAfter depth t = depthAfter depth u := by
      rw [depthAfter, depthAfter, ht.is "(", ht.is ")"]
    rw [callSpan, callSpan, hDepth]
    split
    · exact .ok (.cons ht .nil)
    · exact (ih _).bind fun _ _ hCall => .ok (.cons ht hCall)

theorem alike_expandNext (d : MacroDefinition) {t u : Token} (ht : t.Alike u) (h : Alike ts us) :
    Corresponds (fun x y => Alike x.1 y.1 ∧ x.2 = y.2) (expandNext table ends d t ts)
      (expandNext table ends d u us) := by
  have hSelf : Alike [t] [u] := .cons ht .nil
  unfold expandNext
  split
  · cases h with
    | nil =>
      dsimp only
      split
      · exact .ok ⟨hSelf, rfl⟩
      · exact .error _ _
    | @cons next next' ts us hNext hs =>
      dsimp only
      rw [hNext.is "("]
      split
      · refine (alike_callSpan hs 1).bind fun call call' hCall => ?_
        refine (alike_arguments hCall).bind fun as bs hArguments => ?_
        refine (alike_expand table ht (.some hArguments.1)).bind fun out out' hOut => ?_
        exact .ok ⟨hOut, congrArg (· + 1) hCall.length_eq⟩
      · exact .ok ⟨hSelf, rfl⟩
  · exact (alike_expand table ht .none).bind fun _ _ hOut => .ok ⟨hOut, rfl⟩

/-- Tokens that differ in their places only are delivered as such. -/
theorem alike_expandAll (n : Nat) (h : Alike ts us) :
    Corresponds Alike (expandAll table ends n ts) (expandAll table ends n us) := by
  induction h generalizing n with
  | nil => exact .refl .refl _
  | @cons t u ts us ht hs ih =>
    cases n with
    | succ n => exact ih n
    | zero =>
      rw [expandAll, expandAll, ht.isWord, ht.text]
      split
      · exact (ih 0).bind fun _ _ hRest => .ok (.cons ht hRest)
      · refine (alike_expandNext _ ht hs).bind ?_
        rintro ⟨out, taken⟩ ⟨out', taken'⟩ ⟨hOut, hTaken⟩
        dsimp only at hOut hTaken ⊢
        subst hTaken
        exact (ih taken).bind fun _ _ hRest => .ok (hOut.append hRest)

end Macro

namespace Reader

/-! ## What is to come -/

/-- Whether no directive is to come in a reader, and the tokens `ts` are besides comments. Behind them
stands the end if `ends` says so, else a text that is no token. -/
inductive Comes : Reader → List Token → (ends : Bool) → Prop where
  | finish {r r' : Reader} {t : Token} : r.raw = .ok (t, r') → t.kind = .finish → Comes r [] true
  | fault {r : Reader} {f : Fault} : r.raw = .error f → Comes r [] false
  | comment {r r' : Reader} {t : Token} {ts : List Token} {ends : Bool} : r.raw = .ok (t, r') →
      t.kind = .comment → Comes r' ts ends → Comes r ts ends
  | token {r r' : Reader} {t : Token} {ts : List Token} {ends : Bool} : r.raw = .ok (t, r') →
      t.Solid → Comes r' ts ends → Comes r (t :: ts) ends

variable {r r' : Reader} {g : Gathered} {ts : List Token} {ends : Bool}

/-- What is to come of a text that splits into tokens among which there is no directive. -/
theorem comes_of_readAll {f : Frame} (hFrames : r.frames = [f]) (hAhead : r.ahead = none) {n : Nat}
    (hn : f.cursor.rest.length < n)
    (hDirectives : ∀ t ∈ (Token.readAll r.macros.lexicon true f.source n f.cursor).1,
      t.kind ≠ .directive) :
    Comes r ((Token.readAll r.macros.lexicon true f.source n f.cursor).1.filter
        fun t => t.kind ≠ .comment ∧ t.kind ≠ .finish)
      (Token.readAll r.macros.lexicon true f.source n f.cursor).2.isNone := by
  induction n generalizing r f with
  | zero => cases hn
  | succ n ih =>
    have hRaw : r.raw = Token.next r.macros.lexicon true f.source f.cursor >>= fun x =>
        .ok (x.1, r.setCursor x.2) := by
      unfold raw
      rw [hAhead, hFrames]
      rfl
    have hCovers := @Token.finishes_next r.macros.lexicon true f.source f.cursor
    rw [Token.readAll] at hDirectives ⊢
    cases hNext : Token.next r.macros.lexicon true f.source f.cursor with
    | error fault =>
      rw [hNext] at hRaw
      exact .fault hRaw
    | ok x =>
      obtain ⟨t, c⟩ := x
      rw [hNext] at hRaw hDirectives hCovers
      dsimp only at hDirectives ⊢
      cases hFinish : t.isFinish with
      | true =>
        have hKind : t.kind = .finish := beq_iff_eq.mp hFinish
        rw [if_pos rfl, List.filter_cons_of_neg (by simp [hKind])]
        exact .finish hRaw hKind
      | false =>
        have hKind : t.kind ≠ .finish := beq_eq_false_iff_ne.mp hFinish
        rw [hFinish, if_neg Bool.false_ne_true, List.forall_mem_cons] at hDirectives
        rw [if_neg Bool.false_ne_true]
        have hSet : r.setCursor c = { r with frames := [{ f with cursor := c }] } := by
          unfold setCursor
          rw [hFrames]
        have hShorter : c.rest.length < f.cursor.rest.length := hCovers.shorter hFinish
        have hRest := ih (r := r.setCursor c) (f := { f with cursor := c }) (by rw [hSet])
          (by rw [hSet]; exact hAhead) (by dsimp only; omega) (by rw [hSet]; exact hDirectives.2)
        have hRaw : r.raw = .ok (t, r.setCursor c) := hRaw
        rw [hSet] at hRest hRaw
        by_cases hComment : t.kind = .comment
        · rw [List.filter_cons_of_neg (by simp [hComment])]
          exact .comment hRaw hComment hRest
        · rw [List.filter_cons_of_pos (by simp [hComment, hKind])]
          exact .token hRaw ⟨hComment, hKind, hDirectives.1⟩ hRest

/-! ## Reading on -/

/-- What reading on to the next token that is no comment can give. -/
inductive Finds (records : List Record) :
    List Token → Bool → Except Fault (Token × Reader × Gathered) → Prop where
  | token {r : Reader} {g : Gathered} {t : Token} {ts : List Token} {ends : Bool} :
      t.Solid → Comes r ts ends → g.records = records → Finds records (t :: ts) ends (.ok (t, r, g))
  | finish {r : Reader} {g : Gathered} {t : Token} : t.kind = .finish → g.records = records →
      Finds records [] true (.ok (t, r, g))
  | fault (f : Fault) : Finds records [] false (.error f)

theorem finds_rawSignificant {n : Nat} (h : Comes r ts ends) (hn : r.left < n) :
    Finds g.records ts ends (rawSignificant n r g) := by
  induction h generalizing n g with
  | @finish r r' t hRaw hKind =>
    obtain ⟨n, rfl⟩ := Nat.exists_eq_succ_of_ne_zero (Nat.ne_zero_of_lt hn)
    rw [rawSignificant, hRaw, ok_bind_eq]
    dsimp only
    rw [if_neg (by rw [hKind]; decide)]
    exact .finish hKind rfl
  | @fault r f hRaw =>
    obtain ⟨n, rfl⟩ := Nat.exists_eq_succ_of_ne_zero (Nat.ne_zero_of_lt hn)
    rw [rawSignificant, hRaw, error_bind_eq]
    exact .fault f
  | @comment r r' t ts ends hRaw hKind _ ih =>
    obtain ⟨n, rfl⟩ := Nat.exists_eq_succ_of_ne_zero (Nat.ne_zero_of_lt hn)
    have hFewer : r'.left + (if t.isFinish then 0 else 1) ≤ r.left :=
      (finishes_raw.result hRaw).fewer
    rw [Token.isFinish, hKind, if_neg (by decide)] at hFewer
    rw [rawSignificant, hRaw, ok_bind_eq]
    dsimp only
    rw [if_pos hKind]
    exact ih (g := g.addComment t) (by omega)
  | @token r r' t ts ends hRaw hSolid hRest _ =>
    obtain ⟨n, rfl⟩ := Nat.exists_eq_succ_of_ne_zero (Nat.ne_zero_of_lt hn)
    rw [rawSignificant, hRaw, ok_bind_eq]
    dsimp only
    rw [if_neg hSolid.comment]
    exact .token hSolid hRest rfl

theorem comes_callTokens {name : Token} {n : Nat} (depth : Nat) (h : Comes r ts ends) (hn : r.left < n) :
    Corresponds (fun call x => x.1 = call ∧ Comes x.2.1 (ts.drop call.length) ends ∧
        x.2.1.macros = r.macros ∧ x.2.2.records = g.records) (Macro.callSpan depth ts)
      (callTokens name n depth r g) := by
  induction n generalizing r g ts depth with
  | zero => cases hn
  | succ n ih =>
    have hFinds := finds_rawSignificant (g := g) h r.left_lt_charactersLeft
    have hConsumes := finishes_rawSignificant (g := g) r.left_lt_charactersLeft
    rw [callTokens]
    revert hFinds hConsumes
    generalize rawSignificant r.charactersLeft r g = x
    intro hFinds hConsumes
    cases hFinds with
    | fault f => exact .error _ _
    | @finish r' g' t hKind hRecords =>
      rw [ok_bind_eq]
      dsimp only
      rw [if_pos (by simp [Token.isFinish, hKind])]
      exact .error _ _
    | @token r' g' t ts ends hSolid hRest hRecords =>
      have hFewer : r'.left + (if t.isFinish then 0 else 1) ≤ r.left := hConsumes.fewer
      have hFinish : t.isFinish = false := beq_eq_false_iff_ne.mpr hSolid.finish
      rw [hFinish, if_neg Bool.false_ne_true] at hFewer
      have hSame : r'.macros = r.macros := hConsumes.reads.macros_eq
      rw [ok_bind_eq, Macro.callSpan]
      dsimp only
      have hKind : ¬ (t.isFinish || decide (t.kind = .directive)) = true := by
        simp [hFinish, hSolid.directive]
      rw [if_neg hKind, ← Macro.depthAfter]
      split
      · exact .ok ⟨rfl, hRest, hSame, hRecords⟩
      · refine (ih _ hRest (g := g') (by omega)).bind ?_
        rintro _ ⟨call, r'', g''⟩ ⟨rfl, hComes, hSame', hRecords'⟩
        exact .ok ⟨rfl, hComes, hSame'.trans hSame, hRecords'.trans hRecords⟩

theorem comes_expandCall {d : MacroDefinition} (name : Token) (h : Comes r ts ends) :
    Corresponds (fun out x => x.1 = out.1 ∧ Comes x.2.1 (ts.drop out.2) ends ∧
        x.2.2.records = g.records) (Macro.expandNext r.macros ends d name ts)
      (r.expandCall g d name) := by
  unfold Macro.expandNext expandCall
  split
  · have hFinds := finds_rawSignificant (g := g) h r.left_lt_charactersLeft
    have hConsumes := finishes_rawSignificant (g := g) r.left_lt_charactersLeft
    revert hFinds hConsumes
    generalize rawSignificant r.charactersLeft r g = x
    intro hFinds hConsumes
    cases hFinds with
    | fault f => exact .error _ _
    | @finish r' g' t hKind hRecords =>
      rw [ok_bind_eq]
      dsimp only
      have hOpen : t.is "(" = false := by
        rw [Token.is, Token.isPlain, hKind]
        rfl
      rw [hOpen, if_neg Bool.false_ne_true]
      exact .ok ⟨rfl, .finish rfl hKind, hRecords⟩
    | @token r' g' t ts ends hSolid hRest hRecords =>
      have hReads : Consumes r t r' := hConsumes
      rw [ok_bind_eq]
      dsimp only
      split
      · refine (comes_callTokens 1 hRest r'.left_lt_charactersLeft (g := g')).bind ?_
        rintro _ ⟨call, r'', g''⟩ ⟨rfl, hComes, hSame, hRecords'⟩
        dsimp only at hComes hSame hRecords' ⊢
        rw [hReads.reads.macros_eq] at hSame
        cases Macro.arguments call with
        | error f => exact .error _ _
        | ok args =>
          rw [ok_bind_eq, ok_bind_eq, hSame]
          cases Macro.expand r.macros name (some args.1) with
          | error f => exact .error _ _
          | ok out => exact .ok ⟨rfl, hComes, hRecords'.trans hRecords⟩
      · refine .ok ⟨rfl, .token ?_ hSolid hRest, hRecords⟩
        rw [raw]
        dsimp only
        have hAhead : r'.ahead = none := hReads.ahead
        rw [← hAhead]
  · cases Macro.expand r.macros name none with
    | error f => exact .error _ _
    | ok out => exact .ok ⟨rfl, h, rfl⟩

/-! ## Runs -/

/-- Whether a reader stands in its only source, in which no section is open. -/
structure Alone (r : Reader) : Prop where
  frames : r.frames.length = 1
  sections : r.sections = []

theorem Alone.reads (h : r.Alone) (hReads : Reads r r') : r'.Alone :=
  ⟨hReads.length_frames.trans h.frames, hReads.sections_eq.trans h.sections⟩

theorem Alone.frames_ne_nil (h : r.Alone) : r.frames ≠ [] := by
  intro hNil
  have hLength := h.frames
  rw [hNil] at hLength
  cases hLength

theorem Alone.enabled (h : r.Alone) : r.enabled = true := by
  rw [Reader.enabled, h.sections]
  rfl

theorem Alone.skipDisabled (h : r.Alone) : r.skipDisabled = r := by
  unfold Reader.skipDisabled
  rw [h.enabled]
  split <;> rfl

theorem Alone.weight_pos (h : r.Alone) : 0 < r.weight := by
  obtain ⟨f, hFrames⟩ := List.length_eq_one_iff.mp h.frames
  rw [weight, hFrames]
  simp only [charactersOf, List.foldr_cons]
  omega

theorem Alone.leave (h : r.Alone) : ∃ r', r.leave = .ok r' ∧ r'.frames = [] := by
  obtain ⟨f, hFrames⟩ := List.length_eq_one_iff.mp h.frames
  refine ⟨{ r with frames := [] }, ?_, rfl⟩
  unfold Reader.leave
  rw [hFrames, h.sections]
  rfl

end Reader

/-- Whether a stream delivers the tokens `ts` and records no directive. -/
structure Stream.Plain (S : Stream) (ts : List Token) (g : Gathered) : Prop where
  tokens : S.tokens = ts
  records : ∀ d ∈ S.deliveries, d.gathered.records = []
  gathered : g.records = []

namespace Reader

variable {r r' : Reader} {g g' : Gathered} {ts us : List Token} {ends : Bool}

/-- A stream behind a step that delivers tokens. -/
theorem plain_deliver {S : Stream} {out rest : List Token} (h : S.Plain rest g') (hRecords : g.records = []) :
    Stream.Plain { S with deliveries := deliver g out ++ S.deliveries } (out ++ rest) g' := by
  refine ⟨?_, ?_, h.gathered⟩
  · rw [Stream.tokens, List.map_append, tokens_deliver]
    exact congrArg (out ++ ·) h.tokens
  · intro d hd
    rcases List.mem_append.mp hd with hFirst | hLater
    · cases out with
      | nil => cases hFirst
      | cons t out =>
        rcases List.mem_cons.mp hFirst with rfl | hMem
        · exact hRecords
        · obtain ⟨u, -, rfl⟩ := List.mem_map.mp hMem
          rfl
    · exact h.records d hLater

theorem run_of_step {out : List Token} (hSome : r.frames ≠ []) (hStep : r.step g = .ok (out, r', g'))
    (n : Nat) : run (n + 1) r g =
      { run n r' (if out.isEmpty then g' else {}) with
        deliveries := deliver g' out ++ (run n r' (if out.isEmpty then g' else {})).deliveries } := by
  rw [run, if_neg (by simpa using hSome), hStep]

/-- A step that reads a token. -/
theorem Alone.step_token {t : Token} (h : r.Alone) (hRaw : r.raw = .ok (t, r')) (hSolid : t.Solid) :
    r.step g = match if t.isWord then r.macros.find? t.text else none with
      | some d => r'.expandCall g d t
      | none => .ok ([t], r', g) := by
  have hReads : Reads r r' := (finishes_raw.result hRaw).reads
  unfold step
  rw [h.skipDisabled, hRaw, ok_bind_eq]
  dsimp only
  split
  · exact absurd ‹_› hSolid.finish
  · exact absurd ‹_› hSolid.directive
  · rw [(h.reads hReads).enabled, if_neg (by decide), if_neg hSolid.comment, hReads.macros_eq]
    rfl

/-- What a run over a source without directives delivers, and whether it ends without a fault, is told
by the tokens of the source. -/
theorem run_comes {n : Nat} (hAlone : r.Alone) (h : Comes r ts ends) (hn : r.weight < n)
    (hRecords : g.records = []) :
    Corresponds (run n r g).Plain (Macro.expandAll r.macros ends 0 ts) (run n r g).ending := by
  induction n generalizing r g ts with
  | zero => cases hn
  | succ n ih =>
    have hSome := hAlone.frames_ne_nil
    cases h with
    | @finish _ r' t hRaw hKind =>
      have hReads : Reads r r' := (finishes_raw.result hRaw).reads
      obtain ⟨r'', hLeave, hFrames⟩ := (hAlone.reads hReads).leave
      have hStep : r.step g = .ok ([], r'', g) := by
        unfold step
        rw [hAlone.skipDisabled, hRaw, ok_bind_eq]
        dsimp only
        rw [hKind]
        dsimp only
        rw [hLeave]
        rfl
      obtain ⟨m, rfl⟩ := Nat.exists_eq_succ_of_ne_zero (n := n)
        (by have hPos := hAlone.weight_pos; omega)
      rw [run_of_step hSome hStep, run, hFrames]
      exact .ok ⟨rfl, List.forall_mem_nil _, hRecords⟩
    | @fault _ f hRaw =>
      have hStep : r.step g = .error f := by
        unfold step
        rw [hAlone.skipDisabled, hRaw, error_bind_eq]
      rw [ending_of_fault hSome hStep]
      exact .error _ _
    | @comment _ r' t _ _ hRaw hKind hRest =>
      have hConsumes : Consumes r t r' := finishes_raw.result hRaw
      have hAlone' := hAlone.reads hConsumes.reads
      have hStep : r.step g = .ok ([], r', g.addComment t) := by
        unfold step
        rw [hAlone.skipDisabled, hRaw, ok_bind_eq]
        dsimp only
        rw [hKind]
        dsimp only
        rw [hAlone'.enabled]
        rfl
      have hLighter : r'.weight + (if t.isFinish then 0 else 2) ≤ r.weight := hConsumes.lighter
      rw [Token.isFinish, hKind, if_neg (by decide)] at hLighter
      rw [run_of_step hSome hStep, ← hConsumes.reads.macros_eq]
      exact (ih (g := g.addComment t) hAlone' hRest (by omega) hRecords).mono fun us g' hPlain =>
        plain_deliver hPlain hRecords
    | @token _ r' t us _ hRaw hSolid hRest =>
      have hConsumes : Consumes r t r' := finishes_raw.result hRaw
      have hAlone' := hAlone.reads hConsumes.reads
      have hLighter : r'.weight + (if t.isFinish then 0 else 2) ≤ r.weight := hConsumes.lighter
      rw [Token.isFinish, beq_eq_false_iff_ne.mpr hSolid.finish, if_neg Bool.false_ne_true] at hLighter
      have hStep := hAlone.step_token (g := g) hRaw hSolid
      rw [Macro.expandAll]
      revert hStep
      cases (if t.isWord then r.macros.find? t.text else none) with
      | none =>
        intro hStep
        rw [run_of_step hSome hStep, ← hConsumes.reads.macros_eq]
        exact (ih (g := {}) hAlone' hRest (by omega) rfl).bind_left fun rest g' hPlain =>
          plain_deliver hPlain hRecords
      | some d =>
        intro hStep
        have hCall := comes_expandCall (g := g) (d := d) t hRest
        have hWeight := finishes_expandCall (r := r') (g := g) (d := d) t
        rw [← hConsumes.reads.macros_eq]
        dsimp only at hStep ⊢
        rw [← hStep] at hCall hWeight
        revert hCall hWeight
        generalize Macro.expandNext r'.macros ends d t us = x
        generalize hResult : r.step g = y
        intro hCall hWeight
        cases hCall with
        | error f f' =>
          rw [ending_of_fault hSome hResult]
          exact .error _ _
        | @ok x y hxy =>
          obtain ⟨out, taken⟩ := x
          obtain ⟨_, r'', g''⟩ := y
          obtain ⟨rfl, hComes, hRecords'⟩ := hxy
          obtain ⟨hReads, hLater⟩ := hWeight.result rfl
          dsimp only at hComes hRecords' hReads hLater ⊢
          rw [run_of_step hSome hResult, ok_bind_eq]
          dsimp only
          rw [Macro.expandAll_drop, ← hReads.macros_eq]
          refine (ih (hAlone'.reads hReads) hComes (by omega) ?_).bind_left fun rest g' hPlain =>
            plain_deliver hPlain (hRecords'.trans hRecords)
          split
          · exact hRecords'.trans hRecords
          · rfl

/-- What is delivered of a source without directives. -/
theorem stream_comes (hAlone : r.Alone) (hAhead : r.ahead = none) (h : Comes r ts ends) :
    Corresponds r.stream.Plain (Macro.expandAll r.macros ends 0 ts) r.stream.ending :=
  run_comes hAlone h (weight_lt_budget hAhead) rfl

end Reader

end IdlReader
