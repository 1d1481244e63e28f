import IdlReader.Document
import IdlReader.Proofs.Source.Expansion

/-!
# Properties of deliveries

What a run over sources delivers are tokens of the sources and of what calls of macros expand to. So
properties that are kept by expansions hold of all deliveries: the words among them are names, and
neither comments nor directives nor ends of sources are delivered.

* `Reader.each_step`: what one step delivers.
* `Reader.each_stream`: what a run delivers.
* `Reader.run_behind`: what was recorded in front of a run.
* `Document.proper_deliveries`, `Document.lexical_reader`, `Document.solid_deliveries`: all inputs.
-/

namespace IdlReader

/-- Whether the words among the deliveries of a stream are names. -/
def Stream.Lexical (s : Stream) : Prop := IdlReader.Lexical s.tokens

/-- What was gathered with other directives recorded in front. -/
def Gathered.behind (records : List Record) (g : Gathered) : Gathered :=
  { g with records := records ++ g.records }

/-- What is delivered with directives recorded in front of everything. -/
def Stream.behind (records : List Record) (S : Stream) : Stream :=
  match S.deliveries with
  | d :: ds => { S with deliveries := { d with gathered := d.gathered.behind records } :: ds }
  | [] => { S with ending := S.ending.map (Gathered.behind records) }

/-- Whether a property `P` holds of all raw tokens, and the tokens with it that can be delivered have
the property `Q`, which is kept by expansions. -/
structure Passes (P Q : Token → Prop) : Prop extends Kept Q where
  next : ∀ {l directives source c}, Ok (Token.next l directives source c) fun r => P r.1
  finish : P (Token.finish ⟨0, 0⟩ 0)
  plain : ∀ {t}, P t → t.kind ≠ .comment → t.kind ≠ .finish → t.kind ≠ .directive → Q t

namespace Reader

/-- Whether the bodies of the macros of a reader and the token that was read ahead have properties
of delivered and of raw tokens. -/
structure Holds (P Q : Token → Prop) (r : Reader) : Prop where
  macros : r.macros.Each Q
  ahead : ∀ t ∈ r.ahead, P t

variable {P Q : Token → Prop} {r : Reader} {g : Gathered}

/-- A reader that holds the tokens of another one holds the same properties. -/
theorem Holds.congr (h : r.Holds P Q) {r' : Reader} (hMacros : r'.macros = r.macros)
    (hAhead : r'.ahead = r.ahead) : r'.Holds P Q :=
  ⟨hMacros ▸ h.macros, hAhead ▸ h.ahead⟩

theorem holds_setCursor (h : r.Holds P Q) (c : Cursor) : (r.setCursor c).Holds P Q := by
  unfold setCursor
  split
  · exact h
  · exact h.congr rfl rfl

theorem holds_skipDisabled (h : r.Holds P Q) : r.skipDisabled.Holds P Q := by
  unfold skipDisabled
  split
  · exact h
  · split
    · exact h
    · exact holds_setCursor h _

theorem holds_raw (hPass : Passes P Q) (h : r.Holds P Q) :
    Ok r.raw fun x => P x.1 ∧ x.2.Holds P Q := by
  unfold raw
  split
  · rename_i t hAhead
    exact ok_ok ⟨h.ahead t hAhead, h.macros, nofun⟩
  · split
    · exact ok_ok ⟨hPass.finish, h⟩
    · refine ok_bind hPass.next ?_
      intro x hx
      exact ok_ok ⟨hx, holds_setCursor h _⟩

/-! ## Directives -/

theorem holds_leave (h : r.Holds P Q) : Ok r.leave (Holds P Q) := by
  unfold leave
  split
  · exact ok_ok h
  · split
    · exact ok_ok (h.congr rfl rfl)
    · exact ok_error _ _

theorem holds_includeFile (h : r.Holds P Q) {path : String} {isLocal : Bool} :
    Ok (r.includeFile path isLocal) (Holds P Q) := by
  unfold includeFile
  split
  · exact ok_error _ _
  · split
    · exact ok_error _ _
    · split
      · exact ok_error _ _
      · split
        · exact ok_error _ _
        · exact ok_ok (h.congr rfl rfl)

theorem holds_processInclude (h : r.Holds P Q) {rest : List Char} {directive : Token} :
    Ok (r.processInclude g rest directive) fun x => x.1.Holds P Q := by
  unfold processInclude
  refine ok_bind (P := fun _ => True) (fun _ _ => trivial) ?_
  intro target _
  dsimp only
  split
  · exact ok_error _ _
  · exact ok_bind (holds_includeFile h) fun r hr => ok_ok hr

theorem holds_readVerbatim (h : r.Holds P Q) : Ok r.readVerbatim fun x => x.2.Holds P Q := by
  unfold readVerbatim
  split
  · exact ok_ok h
  · split
    · exact ok_ok (holds_setCursor h _)
    · exact ok_error _ _

theorem holds_processCommand (hPass : Passes P Q) (h : r.Holds P Q) {keyword : String} {rest : List Char}
    {directive : Token} :
    Ok (r.processCommand g keyword rest directive) fun x => x.1.Holds P Q := by
  unfold processCommand
  split
  case h_1 =>
    refine ok_bind (MacroTable.each_define hPass.toKept.tokenize h.macros rest) ?_
    intro x hx
    exact ok_ok ⟨hx, h.ahead⟩
  case h_2 =>
    dsimp only
    split
    · exact ok_ok ⟨h.macros.eraseName _, h.ahead⟩
    · exact ok_error _ _
  case h_3 => exact holds_processInclude h
  case h_4 => exact ok_ok h
  case h_5 => exact ok_bind (holds_readVerbatim h) fun x hx => ok_ok hx
  all_goals exact ok_error _ _

theorem holds_processElif (h : r.Holds P Q) {condition : Except Fault Bool} {p : Position} :
    Ok (r.processElif condition p) (Holds P Q) := by
  unfold processElif
  split
  · exact ok_error _ _
  · split
    · exact ok_bind (P := fun _ => True) (fun _ _ => trivial) fun b _ =>
        ok_ok (h.congr rfl rfl)
    · exact ok_ok (h.congr rfl rfl)
    · exact ok_ok h

theorem holds_processDirective (hPass : Passes P Q) (h : r.Holds P Q) {directive : Token} :
    Ok (r.processDirective g directive) fun x => x.1.Holds P Q := by
  have hSections : ∀ s : Sections, { r with sections := s }.Holds P Q :=
    fun s => h.congr rfl rfl
  have hEnter : ∀ condition : Except Fault Bool,
      Ok (if r.enabled then do
          let b ← condition
          return ({ r with sections := r.sections.enter (some b) }, g)
        else .ok ({ r with sections := r.sections.enter none }, g) :
          Except Fault (Reader × Gathered)) fun x => x.1.Holds P Q := by
    intro condition
    split
    · exact ok_bind (P := fun _ => True) (fun _ _ => trivial) fun b _ => ok_ok (hSections _)
    · exact ok_ok (hSections _)
  unfold processDirective
  dsimp only
  split
  case h_1 => exact hEnter _
  case h_2 => exact hEnter _
  case h_3 => exact hEnter _
  case h_4 => exact ok_bind (holds_processElif h) fun r hr => ok_ok hr
  case h_5 =>
    exact ok_bind (P := fun _ => True) (fun _ _ => trivial) fun s _ => ok_ok (hSections s)
  case h_6 =>
    exact ok_bind (P := fun _ => True) (fun _ _ => trivial) fun s _ => ok_ok (hSections s)
  case h_7 =>
    split
    · intro x hx
      unfold orAtDirective at hx
      split at hx
      · rename_i a hCommand
        cases hx
        exact holds_processCommand hPass h _ hCommand
      · cases hx
    · exact ok_ok h

/-! ## Calls of macros -/

theorem holds_rawSignificant (hPass : Passes P Q) (n : Nat) (h : r.Holds P Q) :
    Ok (rawSignificant n r g) fun x => P x.1 ∧ x.1.kind ≠ .comment ∧ x.2.1.Holds P Q := by
  induction n generalizing r g with
  | zero => exact ok_error _ _
  | succ n ih =>
    unfold rawSignificant
    refine ok_bind (holds_raw hPass h) ?_
    intro x hx
    dsimp only
    split
    · exact ih hx.2
    · rename_i hKind
      exact ok_ok ⟨hx.1, hKind, hx.2⟩

theorem each_callTokens (hPass : Passes P Q) {name : Token} (n depth : Nat) (h : r.Holds P Q) :
    Ok (callTokens name n depth r g) fun x => Each Q x.1 ∧ x.2.1.Holds P Q := by
  induction n generalizing depth r g with
  | zero => exact ok_error _ _
  | succ n ih =>
    unfold callTokens
    refine ok_bind (holds_rawSignificant hPass _ h) ?_
    rintro ⟨t, r', g'⟩ ⟨hRaw, hComment, hr⟩
    dsimp only
    split
    · exact ok_error _ _
    · rename_i hKind
      simp only [Token.isFinish, Bool.or_eq_true, beq_iff_eq, decide_eq_true_eq, not_or] at hKind
      have ht : Q t := hPass.plain hRaw hComment hKind.1 hKind.2
      generalize (if t.is "(" then depth + 1 else if t.is ")" then depth - 1 else depth) = depth'
      split
      · exact ok_ok ⟨each_cons.mpr ⟨ht, each_nil⟩, hr⟩
      · refine ok_bind (ih depth' hr) ?_
        intro x hx
        exact ok_ok ⟨each_cons.mpr ⟨ht, hx.1⟩, hx.2⟩

theorem each_expandCall (hPass : Passes P Q) (h : r.Holds P Q) {d : MacroDefinition} {name : Token}
    (hName : Q name) :
    Ok (r.expandCall g d name) fun x => Each Q x.1 ∧ x.2.1.Holds P Q := by
  unfold expandCall
  split
  · refine ok_bind (holds_rawSignificant hPass _ h) ?_
    rintro ⟨next, r', g'⟩ ⟨hNext, -, hr⟩
    dsimp only
    split
    · refine ok_bind (each_callTokens hPass _ 1 hr) ?_
      rintro ⟨ts, r', g'⟩ ⟨hTokens, hr⟩
      refine ok_bind (Macro.each_arguments hTokens) ?_
      intro args hArgs
      refine ok_bind (Macro.each_expand hPass.toKept hr.macros hName ?_) ?_
      · intro as hAs
        cases hAs
        exact hArgs
      · intro tokens hExpanded
        exact ok_ok ⟨hExpanded, hr⟩
    · refine ok_ok ⟨each_cons.mpr ⟨hName, each_nil⟩, hr.macros, ?_⟩
      intro t ht
      cases ht
      exact hNext
  · refine ok_bind (Macro.each_expand hPass.toKept h.macros hName nofun) ?_
    intro tokens hExpanded
    exact ok_ok ⟨hExpanded, h⟩

/-! ## Runs -/

theorem each_step (hPass : Passes P Q) (h : r.Holds P Q) :
    Ok (r.step g) fun x => Each Q x.1 ∧ x.2.1.Holds P Q := by
  unfold step
  refine ok_bind (holds_raw hPass (holds_skipDisabled h)) ?_
  rintro ⟨t, r'⟩ ⟨ht, hr⟩
  dsimp only
  split
  · exact ok_bind (holds_leave hr) fun r hr => ok_ok ⟨each_nil, hr⟩
  · exact ok_bind (holds_processDirective hPass hr) fun x hx => ok_ok ⟨each_nil, hx⟩
  · rename_i hFinish hDirective
    split
    · exact ok_ok ⟨each_nil, hr⟩
    · split
      · exact ok_ok ⟨each_nil, hr⟩
      · rename_i hComment
        have hName : Q t := hPass.plain ht hComment hFinish hDirective
        split
        · exact each_expandCall hPass hr hName
        · exact ok_ok ⟨each_cons.mpr ⟨hName, each_nil⟩, hr⟩

theorem tokens_deliver (g : Gathered) (ts : List Token) :
    (deliver g ts).map Delivery.token = ts := by
  cases ts with
  | nil => rfl
  | cons t ts => simp [deliver, Function.comp_def]

theorem each_run (hPass : Passes P Q) (n : Nat) (h : r.Holds P Q) : Each Q (run n r g).tokens := by
  induction n generalizing r g with
  | zero => exact each_nil
  | succ n ih =>
    unfold run
    split
    · exact each_nil
    · split
      · exact each_nil
      · rename_i ts next gathered hStep
        obtain ⟨hTokens, hNext⟩ := each_step hPass h _ hStep
        rw [Stream.tokens, List.map_append, tokens_deliver]
        exact each_append.mpr ⟨hTokens, ih hNext⟩

theorem each_stream (hPass : Passes P Q) (h : r.Holds P Q) : Each Q r.stream.tokens :=
  each_run hPass _ h

theorem holds_ofEnvironment (hPass : Passes P Q) (env : Environment) (files : FileTree) :
    Ok (ofEnvironment env files) (Holds P Q) := by
  unfold ofEnvironment
  exact ok_bind (MacroTable.each_ofEnvironment hPass.toKept env) fun macros h => ok_ok ⟨h, nofun⟩

/-! ## Directives that were recorded before

What was recorded in front of a step makes no difference to it: it stands in front of what is recorded
in the step. -/

section Behind

variable (records : List Record)

/-- A reader with what was gathered behind other directives. -/
def behind (x : Reader × Gathered) : Reader × Gathered := (x.1, x.2.behind records)

theorem addRecord_behind (kind : RecordKind) (content : String) (directive : Token) :
    (g.behind records).addRecord kind content directive =
      (g.addRecord kind content directive).behind records := by
  unfold Gathered.addRecord Gathered.behind
  dsimp only
  rw [List.append_assoc]

theorem processInclude_behind (rest : List Char) (directive : Token) :
    r.processInclude (g.behind records) rest directive =
      behind records <$> r.processInclude g rest directive := by
  unfold processInclude
  rw [map_bind]
  refine bind_congr fun target => ?_
  dsimp only
  rw [addRecord_behind]
  split
  · rfl
  · rw [map_bind]
    rfl

theorem processCommand_behind (keyword : String) (rest : List Char) (directive : Token) :
    r.processCommand (g.behind records) keyword rest directive =
      behind records <$> r.processCommand g keyword rest directive := by
  unfold processCommand
  simp only [addRecord_behind]
  split
  · rw [map_bind]; rfl
  · split <;> rfl
  · exact processInclude_behind records rest directive
  · rfl
  · rw [map_bind]; rfl
  all_goals rfl

theorem processDirective_behind (directive : Token) :
    r.processDirective (g.behind records) directive =
      behind records <$> r.processDirective g directive := by
  have hEnter : ∀ condition : Except Fault Bool,
      (if r.enabled then do
          let b ← condition
          return ({ r with sections := r.sections.enter (some b) }, g.behind records)
        else .ok ({ r with sections := r.sections.enter none }, g.behind records) :
          Except Fault (Reader × Gathered)) = behind records <$>
        (if r.enabled then do
          let b ← condition
          return ({ r with sections := r.sections.enter (some b) }, g)
        else .ok ({ r with sections := r.sections.enter none }, g) :
          Except Fault (Reader × Gathered)) := by
    intro condition
    split
    · rw [map_bind]; rfl
    · rfl
  unfold processDirective
  dsimp only
  split
  case h_1 => exact hEnter _
  case h_2 => exact hEnter _
  case h_3 => exact hEnter _
  case h_4 => rw [map_bind]; rfl
  case h_5 => rw [map_bind]; rfl
  case h_6 => rw [map_bind]; rfl
  case h_7 =>
    split
    · rw [processCommand_behind]
      cases r.processCommand g _ _ directive <;> rfl
    · rfl

/-- Tokens and what is behind them. -/
def behindTokens {α : Type} (x : α × Reader × Gathered) : α × Reader × Gathered :=
  (x.1, behind records x.2)

theorem rawSignificant_behind (n : Nat) :
    rawSignificant n r (g.behind records) = behindTokens records <$> rawSignificant n r g := by
  induction n generalizing r g with
  | zero => rfl
  | succ n ih =>
    unfold rawSignificant
    rw [map_bind]
    refine bind_congr fun x => ?_
    dsimp only
    split
    · exact ih (g := g.addComment x.1)
    · rfl

theorem callTokens_behind (name : Token) (n depth : Nat) :
    callTokens name n depth r (g.behind records) =
      behindTokens records <$> callTokens name n depth r g := by
  induction n generalizing depth r g with
  | zero => rfl
  | succ n ih =>
    unfold callTokens
    rw [rawSignificant_behind, bind_map_left, map_bind]
    refine bind_congr fun x => ?_
    obtain ⟨t, r', g'⟩ := x
    dsimp only [behindTokens, behind]
    split
    · rfl
    · generalize (if t.is "(" then depth + 1 else if t.is ")" then depth - 1 else depth) = depth'
      split
      · rfl
      · rw [ih, bind_map_left, map_bind]
        rfl

theorem expandCall_behind (d : MacroDefinition) (name : Token) :
    r.expandCall (g.behind records) d name = behindTokens records <$> r.expandCall g d name := by
  unfold expandCall
  split
  · rw [rawSignificant_behind, bind_map_left, map_bind]
    refine bind_congr fun x => ?_
    obtain ⟨t, r', g'⟩ := x
    dsimp only [behindTokens, behind]
    split
    · rw [callTokens_behind, bind_map_left, map_bind]
      refine bind_congr fun x => ?_
      rw [map_bind]
      refine bind_congr fun args => ?_
      rw [map_bind]
      rfl
    · rfl
  · rw [map_bind]
    rfl

theorem step_behind : r.step (g.behind records) = behindTokens records <$> r.step g := by
  unfold step
  rw [map_bind]
  refine bind_congr fun x => ?_
  dsimp only
  split
  · rw [map_bind]; rfl
  · rw [processDirective_behind, bind_map_left, map_bind]
    rfl
  · split
    · rfl
    · split
      · rfl
      · split
        · exact expandCall_behind records _ _
        · rfl

theorem run_behind (n : Nat) :
    run n r (g.behind records) = (run n r g).behind records := by
  induction n generalizing r g with
  | zero => rfl
  | succ n ih =>
    unfold run
    split
    · rfl
    · rw [step_behind]
      cases r.step g with
      | error f => rfl
      | ok x =>
        obtain ⟨ts, next, gathered⟩ := x
        cases ts with
        | nil => exact ih
        | cons t ts => rfl

end Behind

end Reader

/-! ## Inputs -/

theorem passes_proper : Passes Token.Proper Token.Proper where
  toKept := kept_proper
  next := proper_next
  finish := proper_of_not_isWord rfl
  plain h _ _ _ := h

theorem passes_solid : Passes (fun _ => True) Token.Solid where
  toKept := kept_solid
  next _ _ := trivial
  finish := trivial
  plain _ := Token.Solid.mk

namespace Document

theorem holds_reader {P Q : Token → Prop} (hPass : Passes P Q) (env : Environment)
    (files : FileTree) (input : Input) : Ok (reader env files input) (Reader.Holds P Q) := by
  cases input with
  | nothing => exact Reader.holds_ofEnvironment hPass env files
  | text content =>
    refine ok_bind (Reader.holds_ofEnvironment hPass env files) ?_
    intro r hr
    exact ok_ok (hr.congr rfl rfl)
  | file path =>
    change Ok (Reader.ofFile env files path) (Reader.Holds P Q)
    unfold Reader.ofFile
    split
    · exact ok_error _ _
    · split
      · exact ok_error _ _
      · refine ok_bind (Reader.holds_ofEnvironment hPass env files) ?_
        intro r hr
        exact ok_ok (hr.congr rfl rfl)

theorem proper_deliveries (env : Environment) (files : FileTree) (input : Input) :
    Ok (reader env files input) fun r => Each Token.Proper r.stream.tokens :=
  (holds_reader passes_proper env files input).mono fun _ h => Reader.each_stream passes_proper h

theorem lexical_reader (env : Environment) (files : FileTree) (input : Input) :
    Ok (reader env files input) fun r => r.stream.Lexical :=
  (proper_deliveries env files input).mono fun _ h t ht => (h t ht).lexical

theorem solid_deliveries (env : Environment) (files : FileTree) (input : Input) :
    Ok (reader env files input) fun r => Each Token.Solid r.stream.tokens :=
  (holds_reader passes_solid env files input).mono fun _ h => Reader.each_stream passes_solid h

end Document

end IdlReader
