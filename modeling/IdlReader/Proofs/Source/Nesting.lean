import IdlReader.Macro.Expansion

/-!
# How calls of macros lie inside of each other

A call hides the name of its macro from the calls inside of it. So no more calls lie inside of each
other than there are macros, and the bound under which calls are expanded is never met: under any
bound above the number of macros a call expands to the same tokens.

Expansion told as a computation with a list of hidden names: a call puts the name of its macro on
the list and takes it off when it is done, whether it ended with tokens or with a fault. The
computation is stuck where it would hide a name that no macro has or that is hidden already, and
where more calls than the `clock` allows would lie inside of each other.

It is never stuck. Under a clock of as many calls as there are macros it ends with what `expand`
says, and the list is then as it was.

* `expandWithin_of_lt`: the bound is no part of what a call expands to.
* `Hiding.restores_rescan`, `Hiding.restores_substitute`: a search and a substitution put back what
  they hide if the calls in them do.
* `Hiding.restores_expandOne`: a call takes no more calls inside of each other than macros are
  visible.
* `expansion_ends`: every expansion ends.
-/

namespace IdlReader.Macro

/-! ## The bound -/

section Bound

variable {table : MacroTable}

/-- The macros whose names are not hidden. -/
def visible (table : MacroTable) (hidden : List String) : List MacroDefinition :=
  table.definitions.filter fun d => !hidden.contains d.name

theorem visible_cons (hidden : List String) (name : String) :
    visible table (name :: hidden) = (visible table hidden).filter fun d => d.name != name := by
  rw [visible, visible, List.filter_filter]
  refine List.filter_congr fun d _ => ?_
  rw [List.contains_cons, Bool.not_or]
  rfl

theorem visible_nil : visible table [] = table.definitions :=
  List.filter_eq_self.mpr fun _ _ => rfl

/-- A macro is no longer visible when its name is hidden. -/
theorem length_visible_cons {hidden : List String} {name : String} {d : MacroDefinition}
    (hFind : table.find? name = some d) (h : hidden.contains name = false) :
    (visible table (name :: hidden)).length < (visible table hidden).length := by
  have hName : d.name = name := by simpa using List.find?_some hFind
  have hVisible : d ∈ visible table hidden := by
    refine List.mem_filter.mpr ⟨List.mem_of_find?_eq_some hFind, ?_⟩
    rw [hName, h]
    rfl
  rw [visible_cons]
  refine List.length_filter_lt_length_iff_exists.mpr ⟨d, hVisible, ?_⟩
  simpa using hName

/-- A token calls a macro of its name that is not hidden. -/
theorem find?_of_called {hidden : List String} {t : Token} {d : MacroDefinition}
    (h : called? table hidden t = some d) :
    table.find? t.text = some d ∧ hidden.contains t.text = false := by
  unfold called? at h
  split at h
  · rename_i hCalls
    simp only [Bool.and_eq_true, Bool.not_eq_true'] at hCalls
    exact ⟨h, hCalls.2⟩
  · cases h

/-- A macro that is called is no longer visible inside of the call. -/
theorem length_visible_of_called {hidden : List String} {t : Token} {d : MacroDefinition}
    (h : called? table hidden t = some d) :
    (visible table (t.text :: hidden)).length < (visible table hidden).length :=
  length_visible_cons (find?_of_called h).1 (find?_of_called h).2

/-- Searching for calls only depends on how the calls that are found are expanded. -/
theorem rescan_congr {expand expand' : Expander} {hidden : List String}
    (h : ∀ t d args, called? table hidden t = some d →
      expand (t.text :: hidden) t args = expand' (t.text :: hidden) t args) (skip : Nat)
    (ts : List Token) :
    rescan table expand hidden skip ts = rescan table expand' hidden skip ts := by
  induction ts generalizing skip with
  | nil => simp only [rescan]
  | cons t ts ih =>
    cases skip with
    | succ skip => exact ih skip
    | zero =>
      unfold rescan
      cases hCalled : called? table hidden t with
      | none => simp only [ih]
      | some d =>
        have hExpand := fun args => h t d args hCalled
        simp only [ih, hExpand]

theorem expandWithin_succ {depth : Nat} {hidden : List String} {name : Token}
    {args : Option (List (List Token))} (h : (visible table hidden).length < depth) :
    expandWithin table (depth + 1) hidden name args = expandWithin table depth hidden name args := by
  induction depth generalizing hidden name args with
  | zero => cases h
  | succ depth ih =>
    have hSearch : rescan table (expandWithin table (depth + 1)) hidden 0 =
        rescan table (expandWithin table depth) hidden 0 := by
      funext ts
      refine rescan_congr (fun t d args hCalled => ih ?_) 0 ts
      exact Nat.lt_of_lt_of_le (length_visible_of_called hCalled) (Nat.le_of_lt_succ h)
    rw [expandWithin, hSearch]
    conv => rhs; rw [expandWithin]

/-- A call expands to the same tokens under every bound above the number of macros. -/
theorem expandWithin_of_lt {depth : Nat} (name : Token) (args : Option (List (List Token)))
    (h : table.definitions.length < depth) :
    expandWithin table depth [name.text] name args =
      expandWithin table (table.definitions.length + 1) [name.text] name args := by
  have hVisible : (visible table [name.text]).length ≤ table.definitions.length :=
    List.length_filter_le _ _
  obtain ⟨k, rfl⟩ := Nat.exists_eq_add_of_lt h
  induction k with
  | zero => rfl
  | succ k ih =>
    rw [← ih (by omega)]
    exact expandWithin_succ (by omega)

end Bound

/-! ## Hidden names -/

/-- A computation with a list of hidden names, the latest first. It ends with a result or with a
fault, or is stuck. -/
abbrev Hiding := ExceptT Fault (StateT (List String) Option)

namespace Hiding

variable {α β : Type}

/-- How a computation ends and which names are hidden then. -/
def runFrom (hidden : List String) (x : Hiding α) : Option (Except Fault α × List String) :=
  x.run.run hidden

/-- No way to go on. -/
def stuck : Hiding α := ExceptT.mk fun _ => none

/-- An outcome that hides nothing. -/
def ofOutcome (outcome : Except Fault α) : Hiding α := ExceptT.mk (pure outcome)

/-- Hides a name that a macro has and that is not hidden. -/
def push (table : MacroTable) (name : String) : Hiding Unit := do
  if table.isDefined name && !(← get).contains name then modify (name :: ·) else stuck

/-- Shows the name that was hidden last. -/
def pop : Hiding Unit := modify List.tail

/-- The outcome of a computation, which goes on behind a fault. -/
def attempt (x : Hiding α) : Hiding (Except Fault α) := ExceptT.mk (Except.ok <$> x.run)

/-- A computation with one more name hidden. -/
def within (table : MacroTable) (name : String) (x : Hiding α) : Hiding α := do
  push table name
  let outcome ← attempt x
  pop
  ofOutcome outcome

/-! ## Expansion -/

/-- Replaces the parameters in a body; `expand` expands an argument. -/
def substitute (l : Lexicon) (c : Call) (expand : List Token → Hiding (List Token)) :
    List Token → List Token → Hiding (List Token)
  | out, [] => return out.reverse
  | out, [t] =>
    if t.is "#" then ofOutcome (IdlReader.fail (.stringizeOperand c.definition.name))
    else if t.is "##" then ofOutcome (IdlReader.fail (.pasteOperand c.definition.name))
    else
      match c.argument? t with
      | some a => do
        let a ← expand a
        return out.reverse ++ a
      | none => return (t :: out).reverse
  | out, t :: next :: body =>
    if t.is "#" then
      match c.argument? next with
      | some a => substitute l c expand (stringize a t :: out) body
      | none => ofOutcome (IdlReader.fail (.stringizeOperand c.definition.name))
    else if t.is "##" then
      match out with
      | left :: out => do
        let joined ← ofOutcome (c.paste l left t next)
        substitute l c expand (joined.reverse ++ out) body
      | [] => ofOutcome (IdlReader.fail (.pasteOperand c.definition.name))
    else
      match c.argument? t with
      | some a =>
        if next.is "##" then substitute l c expand (a.reverse ++ out) (next :: body)
        else do
          let a ← expand a
          substitute l c expand (a.reverse ++ out) (next :: body)
      | none => substitute l c expand (t :: out) (next :: body)

/-- Expands the calls in a list of tokens behind the first `skip` tokens; `expand` expands one of
them. -/
def rescan (table : MacroTable)
    (expand : Token → Option (List (List Token)) → Hiding (List Token)) :
    (skip : Nat) → List Token → Hiding (List Token)
  | _, [] => return []
  | skip + 1, _ :: ts => rescan table expand skip ts
  | 0, t :: ts => do
    match called? table (← get) t with
    | none => do
      let rest ← rescan table expand 0 ts
      return t :: rest
    | some d =>
      if d.isFunctionLike then
        if (ts.head?.map (·.is "(")).getD false then do
          let (args, taken) ← ofOutcome (arguments (ts.drop 1))
          let replaced ← within table t.text (expand t (some args))
          let rest ← rescan table expand (taken + 1) ts
          return replaced ++ rest
        else do
          let rest ← rescan table expand 0 ts
          return t :: rest
      else do
        let replaced ← within table t.text (expand t none)
        let rest ← rescan table expand 0 ts
        return replaced ++ rest

/-- The tokens in place of a call before they are searched for further calls. -/
def replace (table : MacroTable) (expand : List Token → Hiding (List Token))
    (d : MacroDefinition) (name : Token) (args : Option (List (List Token))) :
    Hiding (List Token) :=
  match d.parameters with
  | none => return d.tokens
  | some parameters => do
    let args ← ofOutcome (matchArguments name parameters args)
    substitute table.lexicon ⟨d, args⟩ expand [] d.tokens

/-- Expands a call. No more than `clock` calls of macros lie inside of each other. -/
def expandOne (table : MacroTable) (clock : Nat) (name : Token)
    (args : Option (List (List Token))) : Hiding (List Token) :=
  match table.find? name.text with
  | none => ofOutcome (IdlReader.fail (.macroUndefined name.text))
  | some d =>
    match clock with
    | 0 => stuck
    | clock + 1 => do
      let search := rescan table (expandOne table clock) 0
      let replaced ← replace table search d name args
      search replaced

/-! ## Computations that put back what they hide -/

section Run

variable {hidden hidden' : List String} {x : Hiding α} {f : α → Hiding β}

theorem runFrom_bind_of_ok {a : α} (h : x.runFrom hidden = some (.ok a, hidden')) :
    (x >>= f).runFrom hidden = (f a).runFrom hidden' := by
  change x.run.run hidden = _ at h
  show (x.run.run hidden).bind _ = _
  rw [h]
  rfl

theorem runFrom_bind_of_error {fault : Fault}
    (h : x.runFrom hidden = some (.error fault, hidden')) :
    (x >>= f).runFrom hidden = some (.error fault, hidden') := by
  change x.run.run hidden = _ at h
  show (x.run.run hidden).bind _ = _
  rw [h]
  rfl

theorem runFrom_attempt {outcome : Except Fault α}
    (h : x.runFrom hidden = some (outcome, hidden')) :
    (attempt x).runFrom hidden = some (.ok outcome, hidden') := by
  change x.run.run hidden = _ at h
  show (x.run.run hidden).bind _ = _
  rw [h]
  rfl

theorem runFrom_push {table : MacroTable} {name : String} (hDefined : table.isDefined name = true)
    (hVisible : hidden.contains name = false) :
    (push table name).runFrom hidden = some (.ok (), name :: hidden) := by
  show (if table.isDefined name && !hidden.contains name then modify (name :: ·)
    else stuck : Hiding Unit).runFrom hidden = _
  rw [hDefined, hVisible]
  rfl

end Run

/-- Whether a computation ends with an outcome and with the same names hidden. -/
def Restores (hidden : List String) (x : Hiding α) (outcome : Except Fault α) : Prop :=
  x.runFrom hidden = some (outcome, hidden)

variable {hidden : List String} {table : MacroTable} {x : Hiding α} {outcome : Except Fault α}

theorem restores_ofOutcome (outcome : Except Fault α) :
    Restores hidden (ofOutcome outcome) outcome := rfl

theorem restores_pure (a : α) : Restores hidden (pure a) (.ok a) := rfl

theorem Restores.bind {f : α → Hiding β} {g : α → Except Fault β} (hx : Restores hidden x outcome)
    (hf : ∀ a, Restores hidden (f a) (g a)) : Restores hidden (x >>= f) (outcome >>= g) := by
  cases outcome with
  | ok a => exact (runFrom_bind_of_ok hx).trans (hf a)
  | error fault => exact runFrom_bind_of_error hx

/-- A name that is hidden for a computation is shown behind it, whatever its outcome is. -/
theorem Restores.within {name : String} (hDefined : table.isDefined name = true)
    (hVisible : hidden.contains name = false) (hx : Restores (name :: hidden) x outcome) :
    Restores hidden (within table name x) outcome := by
  unfold Hiding.within
  apply (runFrom_bind_of_ok (runFrom_push hDefined hVisible)).trans
  apply (runFrom_bind_of_ok (runFrom_attempt hx)).trans
  rfl

theorem restores_get {f : List String → Hiding α} (h : Restores hidden (f hidden) outcome) :
    Restores hidden (get >>= f) outcome := h

/-- Substitution hides what the expansion of arguments hides. -/
theorem restores_substitute {l : Lexicon} {c : Call} {expand : List Token → Hiding (List Token)}
    {expand' : List Token → Except Fault (List Token)}
    (h : ∀ ts, Restores hidden (expand ts) (expand' ts)) (out body : List Token) :
    Restores hidden (substitute l c expand out body) (c.substitute l expand' out body) := by
  fun_induction Call.substitute l c expand' out body with
  | case1 out =>
    rw [substitute]
    apply restores_pure
  | case2 out t hSign =>
    rw [substitute, if_pos hSign]
    apply restores_ofOutcome
  | case3 out t hSign hPaste =>
    rw [substitute, if_neg hSign, if_pos hPaste]
    apply restores_ofOutcome
  | case4 out t hSign hPaste a hArgument =>
    rw [substitute, if_neg hSign, if_neg hPaste, hArgument]
    exact (h a).bind fun b => restores_pure _
  | case5 out t hSign hPaste hArgument =>
    rw [substitute, if_neg hSign, if_neg hPaste, hArgument]
    apply restores_pure
  | case6 out t next body hSign a hArgument ih =>
    unfold substitute
    rw [if_pos hSign, hArgument]
    exact ih
  | case7 out t next body hSign hArgument =>
    unfold substitute
    rw [if_pos hSign, hArgument]
    apply restores_ofOutcome
  | case8 t next body hSign hPaste left out ih =>
    rw [substitute, if_neg hSign, if_pos hPaste]
    exact (restores_ofOutcome _).bind ih
  | case9 t next body hSign hPaste =>
    rw [substitute, if_neg hSign, if_pos hPaste]
    apply restores_ofOutcome
  | case10 out t next body hSign hPaste a hArgument hNext ih =>
    unfold substitute
    rw [if_neg hSign, if_neg hPaste, hArgument]
    simp only [hNext, if_true]
    exact ih
  | case11 out t next body hSign hPaste a hArgument hNext ih =>
    unfold substitute
    rw [if_neg hSign, if_neg hPaste, hArgument]
    simp only [hNext]
    exact (h a).bind ih
  | case12 out t next body hSign hPaste hArgument ih =>
    unfold substitute
    rw [if_neg hSign, if_neg hPaste, hArgument]
    exact ih

/-- A search hides the name of every call that it finds, and shows it again. -/
theorem restores_rescan {expand : Token → Option (List (List Token)) → Hiding (List Token)}
    {expand' : Expander}
    (h : ∀ t d args, called? table hidden t = some d →
      Restores (t.text :: hidden) (expand t args) (expand' (t.text :: hidden) t args))
    (skip : Nat) (ts : List Token) :
    Restores hidden (rescan table expand skip ts) (Macro.rescan table expand' hidden skip ts) := by
  fun_induction Macro.rescan table expand' hidden skip ts with
  | case1 skip =>
    rw [rescan]
    apply restores_pure
  | case2 skip t ts ih =>
    rw [rescan]
    exact ih
  | case3 t ts hCalled ih =>
    rw [rescan]
    apply restores_get
    rw [hCalled]
    exact ih.bind fun rest => restores_pure _
  | case4 t ts d hCalled hFunction hOpen ih =>
    obtain ⟨hFind, hVisible⟩ := find?_of_called hCalled
    rw [rescan]
    apply restores_get
    rw [hCalled]
    simp only [hFunction, hOpen, if_true]
    apply (restores_ofOutcome _).bind
    rintro ⟨args, taken⟩
    apply ((h t d (some args) hCalled).within (Option.isSome_of_mem hFind) hVisible).bind
    intro replaced
    exact (ih taken).bind fun rest => restores_pure _
  | case5 t ts d hCalled hFunction hOpen ih =>
    rw [rescan]
    apply restores_get
    rw [hCalled]
    simp only [hFunction, hOpen, if_true]
    exact ih.bind fun rest => restores_pure _
  | case6 t ts d hCalled hFunction ih =>
    obtain ⟨hFind, hVisible⟩ := find?_of_called hCalled
    rw [rescan]
    apply restores_get
    rw [hCalled]
    simp only [hFunction]
    apply ((h t d none hCalled).within (Option.isSome_of_mem hFind) hVisible).bind
    intro replaced
    exact ih.bind fun rest => restores_pure _

theorem restores_replace {expand : List Token → Hiding (List Token)}
    {expand' : List Token → Except Fault (List Token)}
    (h : ∀ ts, Restores hidden (expand ts) (expand' ts)) (d : MacroDefinition) (name : Token)
    (args : Option (List (List Token))) :
    Restores hidden (replace table expand d name args)
      (Macro.replace table expand' d name args) := by
  unfold replace Macro.replace
  cases d.parameters with
  | none => apply restores_pure
  | some parameters =>
    exact (restores_ofOutcome _).bind fun args => restores_substitute h [] d.tokens

/-! ## Calls inside of each other -/

/-- A clock above the number of visible macros never stops a call: each call inside of it leaves
one macro less visible. -/
theorem restores_expandOne {clock : Nat} {hidden : List String} {name : Token}
    {args : Option (List (List Token))} (h : (visible table hidden).length < clock) :
    Restores hidden (expandOne table clock name args)
      (expandWithin table clock hidden name args) := by
  induction clock generalizing hidden name args with
  | zero => cases h
  | succ clock ih =>
    unfold expandOne expandWithin
    cases table.find? name.text with
    | none => apply restores_ofOutcome
    | some d =>
      have hSearch : ∀ ts, Restores hidden (rescan table (expandOne table clock) 0 ts)
          (Macro.rescan table (expandWithin table clock) hidden 0 ts) := by
        apply restores_rescan
        intro t e args hCalled
        have hLess := length_visible_of_called hCalled
        exact ih (by omega)
      exact (restores_replace hSearch d name args).bind hSearch

/-- A search takes no more calls inside of each other than macros are visible. -/
theorem restores_search (table : MacroTable) (hidden : List String) (ts : List Token) :
    let clock := (visible table hidden).length
    Restores hidden (rescan table (expandOne table clock) 0 ts)
      (Macro.rescan table (expandWithin table clock) hidden 0 ts) := by
  apply restores_rescan
  intro t d args hCalled
  exact restores_expandOne (length_visible_of_called hCalled)

/-- A call of any macro takes no more calls inside of each other than there are macros. -/
theorem restores_expand (table : MacroTable) (name : Token) (args : Option (List (List Token))) :
    Restores [name.text] (expandOne table table.definitions.length name args)
      (expandWithin table (table.definitions.length + 1) [name.text] name args) := by
  cases hFind : table.find? name.text with
  | none =>
    unfold expandOne expandWithin
    rw [hFind]
    apply restores_ofOutcome
  | some d =>
    have hLess : (visible table [name.text]).length < (visible table []).length :=
      length_visible_cons hFind rfl
    rw [visible_nil] at hLess
    rw [expandWithin_succ hLess]
    exact restores_expandOne hLess

end Hiding

/-- Expansion always ends, in tokens or in a fault. However the macros of a table call each other
and whatever the arguments are, no more calls lie inside of each other than there are macros, each
of them hides one more name that a macro has, and the hidden names are the same behind the
expansion as in front of it. The same holds of each search and each substitution on the way, where
the macros that are not hidden yet are counted. -/
theorem expansion_ends (table : MacroTable) :
    (∀ name args, ∃ outcome,
      (Hiding.expandOne table table.definitions.length name args).runFrom [name.text] =
        some (outcome, [name.text]) ∧
      expand table name args = List.map (placeAt name) <$> outcome) ∧
    ∀ hidden,
      let search := Hiding.rescan table (Hiding.expandOne table (visible table hidden).length) 0
      (∀ ts, ∃ outcome, (search ts).runFrom hidden = some (outcome, hidden)) ∧
      ∀ c out body, ∃ outcome,
        (Hiding.substitute table.lexicon c search out body).runFrom hidden =
          some (outcome, hidden) := by
  refine ⟨fun name args => ?_, fun hidden => ?_⟩
  · exact ⟨_, Hiding.restores_expand table name args, rfl⟩
  · have hSearch := fun ts => Hiding.restores_search table hidden ts
    refine ⟨fun ts => ⟨_, hSearch ts⟩, fun c out body => ?_⟩
    exact ⟨_, Hiding.restores_substitute hSearch out body⟩

/-- Two macros that stand for each other: the one call lies inside of the other, and a name that
is hidden stays. -/
example :
    let a := Token.point .identifier "A" ⟨1, 1⟩ 0
    let b := Token.point .identifier "B" ⟨1, 1⟩ 0
    let table : MacroTable :=
      ⟨({} : Environment).lexicon, [⟨"B", none, "A", [a]⟩, ⟨"A", none, "B", [b]⟩]⟩
    let tokens := fun clock => ((Hiding.expandOne table clock a none).runFrom ["A"]).map fun r =>
      (r.1.toOption, r.2)
    tokens 1 = none ∧ tokens 2 = some (some [a], ["A"]) := by
  decide +kernel

end IdlReader.Macro
