import Mathlib.Logic.Relation
import IdlReader.Proofs.Source.Expansion
import IdlReader.Proofs.Source.Nesting

/-!
# Macros without parameters, and arguments that stand alone

Where no macro has parameters, expansion puts bodies in the places of names, and again in the bodies.
`Unfolds` is this replacement as a relation, which knows of no hidden names. If no body leads back to
the name of its macro, the hidden names never stand in the way: a call is hidden only from the calls
that its own body leads to.

A macro whose body is its one parameter gives back its argument. The argument is searched for calls
with the name of the macro hidden, and what comes out is searched once more in the same way. To hide
a name is to remove its macro from the table. So the call gives what the argument gives where it
stands, if that does not depend on the macro and leaves no call for the second search.

* `Unfolds.unique`, `Unfolds.finished`: names are replaced in one way, and no name is left.
* `unfolds_expandWithin`: a call under its hidden names.
* `expand_objects`: the whole expansion.
* `splitArguments_of_balanced`: the tokens between the parentheses are one argument.
* `search_eraseName`: to hide a name is to remove its macro.
* `search_of_settled`: where no call is left a search changes nothing.
* `expand_argument`: what the call gives.
-/

/-! ## Macros without parameters -/

namespace IdlReader.Macro

open Relation

variable {table : MacroTable}

/-! ## Replacement of names -/

/-- The macro of which a token is the name, whether it is hidden or not. -/
def named? (table : MacroTable) (t : Token) : Option MacroDefinition :=
  if t.isWord then table.find? t.text else none

theorem named?_eq_some {t : Token} {d : MacroDefinition} :
    named? table t = some d ↔ t.isWord = true ∧ table.find? t.text = some d := by
  unfold named?
  split
  · rename_i hWord
    exact ⟨fun h => ⟨hWord, h⟩, And.right⟩
  · rename_i hWord
    exact ⟨nofun, fun h => absurd h.1 hWord⟩

/-- Whether tokens become others when the bodies of macros take the places of their names, and so on
in the bodies, until no name is left. -/
inductive Unfolds (table : MacroTable) : List Token → List Token → Prop where
  | nil : Unfolds table [] []
  | keep {t : Token} {ts us : List Token} (hNone : named? table t = none)
      (h : Unfolds table ts us) : Unfolds table (t :: ts) (t :: us)
  | replace {t : Token} {d : MacroDefinition} {body ts us : List Token}
      (hName : named? table t = some d) (hBody : Unfolds table d.tokens body)
      (h : Unfolds table ts us) : Unfolds table (t :: ts) (body ++ us)

/-- Names are replaced in one way only. -/
theorem Unfolds.unique {ts us vs : List Token} (h : Unfolds table ts us)
    (h' : Unfolds table ts vs) : vs = us := by
  induction h generalizing vs with
  | nil =>
    cases h'
    rfl
  | keep hNone _ ih =>
    cases h' with
    | keep _ h' => rw [ih h']
    | replace hName => cases hNone.symm.trans hName
  | replace hName _ _ ihBody ih =>
    cases h' with
    | keep hNone => cases hNone.symm.trans hName
    | replace hName' hBody' h' =>
      cases hName.symm.trans hName'
      rw [ihBody hBody', ih h']

/-- No name of a macro is left. -/
theorem Unfolds.finished {ts us : List Token} (h : Unfolds table ts us) :
    ∀ t ∈ us, named? table t = none := by
  induction h with
  | nil => exact List.forall_mem_nil _
  | keep hNone _ ih => exact List.forall_mem_cons.mpr ⟨hNone, ih⟩
  | replace _ _ _ ihBody ih => exact List.forall_mem_append.mpr ⟨ihBody, ih⟩

/-! ## Names that are never hidden -/

/-- Whether the body of the macro `m` mentions the macro `n`. -/
def Mentions (table : MacroTable) (m n : String) : Prop :=
  ∃ d, table.find? m = some d ∧ ∃ t ∈ d.tokens, t.isWord = true ∧ t.text = n ∧
    table.isDefined n = true

/-- Whether no macro has parameters. -/
def HoldsObjects (table : MacroTable) : Prop := ∀ d ∈ table.definitions, d.parameters = none

/-- A search finds all names if none of them is hidden, and replaces them as their calls do. -/
theorem unfolds_rescan (hObjects : HoldsObjects table) {expand : Expander} {hidden : List String}
    {ts : List Token} (h : ∀ t ∈ ts, t.expanded = false ∧ ∀ d, named? table t = some d →
      hidden.contains t.text = false ∧
      ∃ us, expand (t.text :: hidden) t none = .ok us ∧ Unfolds table d.tokens us) :
    ∃ us, rescan table expand hidden 0 ts = .ok us ∧ Unfolds table ts us := by
  induction ts with
  | nil => exact ⟨[], rfl, .nil⟩
  | cons t ts ih =>
    obtain ⟨⟨hExpanded, hCalls⟩, hRest⟩ := List.forall_mem_cons.mp h
    obtain ⟨vs, hSearch, hUnfolds⟩ := ih hRest
    have hCalled : called? table hidden t =
        if hidden.contains t.text then none else named? table t := by
      unfold called? named?
      rw [hExpanded]
      cases t.isWord <;> cases hidden.contains t.text <;> rfl
    unfold rescan
    cases hName : named? table t with
    | none =>
      have hNone : called? table hidden t = none := by rw [hCalled, hName, ite_self]
      refine ⟨t :: vs, ?_, .keep hName hUnfolds⟩
      rw [hNone, hSearch]
      rfl
    | some d =>
      obtain ⟨hVisible, us, hExpand, hBody⟩ := hCalls d hName
      have hSome : called? table hidden t = some d := by
        rw [hCalled, hVisible, if_neg Bool.false_ne_true, hName]
      have hObject : d.isFunctionLike = false := by
        have hMem := List.mem_of_find?_eq_some (named?_eq_some.mp hName).2
        rw [MacroDefinition.isFunctionLike, hObjects d hMem]
        rfl
      refine ⟨us ++ vs, ?_, .replace hName hBody hUnfolds⟩
      rw [hSome]
      simp only [hObject, hExpand, hSearch]
      rfl

/-- A call replaces all names if every hidden name leads to that of the call: what a body mentions is
not hidden, as it would lead back to itself. -/
theorem unfolds_expandWithin (hObjects : HoldsObjects table)
    (hFresh : table.Each fun t => t.expanded = false)
    (hAcyclic : ∀ m, ¬ TransGen (Mentions table) m m) {depth : Nat} {hidden : List String}
    {name : Token} {d : MacroDefinition} (args : Option (List (List Token)))
    (hDepth : (visible table hidden).length < depth) (hFind : table.find? name.text = some d)
    (hPath : ∀ n ∈ hidden, ReflTransGen (Mentions table) n name.text) :
    ∃ us, expandWithin table depth hidden name args = .ok us ∧ Unfolds table d.tokens us := by
  induction depth generalizing hidden name d args with
  | zero => cases hDepth
  | succ depth ih =>
    have hReplace : ∀ search, replace table search d name args = .ok d.tokens := by
      intro search
      rw [replace, hObjects d (List.mem_of_find?_eq_some hFind)]
    have hBody : ∃ us, rescan table (expandWithin table depth) hidden 0 d.tokens = .ok us ∧
        Unfolds table d.tokens us := by
      refine unfolds_rescan hObjects fun t ht => ⟨hFresh.find? hFind t ht, fun e hName => ?_⟩
      obtain ⟨hWord, hCallee⟩ := named?_eq_some.mp hName
      have hMentions : Mentions table name.text t.text :=
        ⟨d, hFind, t, ht, hWord, rfl, Option.isSome_of_mem hCallee⟩
      have hVisible : hidden.contains t.text = false := by
        refine Bool.eq_false_iff.mpr fun hHidden => hAcyclic t.text ?_
        exact .tail' (hPath _ (List.contains_iff_mem.mp hHidden)) hMentions
      have hLess := length_visible_cons hCallee hVisible
      refine ⟨hVisible, ih none (by omega) hCallee fun n hn => ?_⟩
      rcases List.mem_cons.mp hn with rfl | hn
      · exact .refl
      · exact (hPath n hn).tail hMentions
    obtain ⟨us, hSearch, hUnfolds⟩ := hBody
    refine ⟨us, ?_, hUnfolds⟩
    rw [expandWithin, hFind]
    dsimp only
    rw [hReplace]
    exact hSearch

/-! ## Expansion -/

/-- Where no macro has parameters and no body leads back to its own macro, the expansion of a call
does not fail. It gives the body in which all names of macros are replaced by their bodies, over and
over; there is exactly one such list of tokens. None of them is the name of a macro, and all are
marked as expanded and stand where the name of the call stands. -/
theorem expand_objects (hTable : table.Reachable) (hObjects : HoldsObjects table)
    (hAcyclic : ∀ m, ¬ TransGen (Mentions table) m m) {name : Token} {d : MacroDefinition}
    (hFind : table.find? name.text = some d) (args : Option (List (List Token))) :
    ∃ us ts, Unfolds table d.tokens us ∧ (∀ vs, Unfolds table d.tokens vs → vs = us) ∧
      expand table name args = .ok ts ∧
      ts.map (fun t => (t.kind, t.text)) = us.map (fun t => (t.kind, t.text)) ∧
      ∀ t ∈ ts, named? table t = none ∧ t.expanded = true ∧ t.position = name.position ∧
        t.source = name.source := by
  have hFresh : table.Each fun t => t.expanded = false := hTable.each expanded_tokenize
  have hDepth : (visible table [name.text]).length < table.definitions.length + 1 :=
    Nat.lt_succ_of_le (List.length_filter_le _ _)
  have hPath : ∀ n ∈ [name.text], ReflTransGen (Mentions table) n name.text := by
    intro n hn
    rw [List.mem_singleton.mp hn]
  obtain ⟨us, hExpand, hUnfolds⟩ :=
    unfolds_expandWithin hObjects hFresh hAcyclic args hDepth hFind hPath
  refine ⟨us, us.map (placeAt name), hUnfolds, fun _ => hUnfolds.unique, ?_, ?_, ?_⟩
  · rw [expand, hExpand]
    rfl
  · rw [List.map_map]
    rfl
  · intro t ht
    obtain ⟨u, hu, rfl⟩ := List.mem_map.mp ht
    exact ⟨hUnfolds.finished u hu, rfl, rfl, rfl⟩

/-- The macro `SIDE 4`. -/
def sideMacro : MacroDefinition :=
  ⟨"SIDE", none, "4", [⟨.literal .decInteger, "4", ⟨⟨1, 1⟩, ⟨1, 2⟩⟩, 0, false⟩]⟩

/-- The macro `AREA SIDE * SIDE`. -/
def areaMacro : MacroDefinition :=
  ⟨"AREA", none, "SIDE * SIDE", [⟨.identifier, "SIDE", ⟨⟨1, 1⟩, ⟨1, 5⟩⟩, 0, false⟩,
    ⟨.operator, "*", ⟨⟨1, 6⟩, ⟨1, 7⟩⟩, 0, false⟩, ⟨.identifier, "SIDE", ⟨⟨1, 8⟩, ⟨1, 12⟩⟩, 0, false⟩]⟩

/-- A macro that is reached along two ways is replaced on both of them. -/
theorem expand_objects_area :
    let table : MacroTable := ⟨({} : Environment).lexicon, [areaMacro, sideMacro]⟩
    let name := Token.point .identifier "AREA" ⟨7, 3⟩ 2
    table.Reachable ∧ HoldsObjects table ∧ (∀ m, ¬ TransGen (Mentions table) m m) ∧
    ∃ ts, expand table name none = .ok ts ∧ ts.map Token.text = ["4", "*", "4"] ∧
      ∀ t ∈ ts, t.expanded = true ∧ t.position = ⟨7, 3⟩ := by
  intro table name
  have hSide : MacroTable.define ⟨table.lexicon, []⟩ "SIDE 4".toList =
      .ok ("SIDE", ⟨table.lexicon, [sideMacro]⟩) := rfl
  have hArea : MacroTable.define ⟨table.lexicon, [sideMacro]⟩ "AREA SIDE * SIDE".toList =
      .ok ("AREA", table) := rfl
  have hTable : table.Reachable := .define (.define (.empty _) hSide) hArea
  have hObjects : HoldsObjects table := by
    intro d hd
    rcases List.mem_pair.mp hd with rfl | rfl <;> rfl
  have hMentions : ∀ m n, Mentions table m n → m = "AREA" ∧ n = "SIDE" := by
    rintro m n ⟨d, hFind, t, ht, hWord, rfl, -⟩
    have hName := List.find?_some (p := fun e : MacroDefinition => e.name == m) hFind
    rw [← beq_iff_eq.mp hName]
    have hWords : ∀ e ∈ [areaMacro, sideMacro], ∀ t ∈ e.tokens, t.isWord = true →
        e.name = "AREA" ∧ t.text = "SIDE" := by decide
    exact hWords d (List.mem_of_find?_eq_some hFind) t ht hWord
  have hAcyclic : ∀ m, ¬ TransGen (Mentions table) m m := by
    intro m hCircle
    obtain ⟨n, hFirst, -⟩ := TransGen.head'_iff.mp hCircle
    obtain ⟨k, -, hLast⟩ := TransGen.tail'_iff.mp hCircle
    exact absurd ((hMentions _ _ hFirst).1.symm.trans (hMentions _ _ hLast).2) (by decide)
  obtain ⟨-, ts, -, -, hExpand, -, hPlaced⟩ :=
    @expand_objects table hTable hObjects hAcyclic name areaMacro rfl none
  have hTexts : (expand table name none).toOption.map (·.map Token.text) =
      some ["4", "*", "4"] := by decide +kernel
  rw [hExpand] at hTexts
  exact ⟨hTable, hObjects, hAcyclic, ts, hExpand, Option.some.inj hTexts, fun t ht =>
    ⟨(hPlaced t ht).2.1, (hPlaced t ht).2.2.1⟩⟩

end IdlReader.Macro

/-! ## Arguments -/

namespace IdlReader.Macro

variable {table : MacroTable}

/-! ## One argument -/

/-- Whether tokens close as many parentheses as they open behind `depth` open ones, none of them too
early, with no comma outside of parentheses. -/
def Balanced : (depth : Nat) → List Token → Prop
  | depth, [] => depth = 0
  | depth, t :: ts =>
    (depth = 0 → t.is ")" = false ∧ t.is "," = false) ∧ Balanced (depthAfter depth t) ts

theorem splitArguments_of_balanced {depth : Nat} {ts : List Token} (h : Balanced depth ts)
    {close : Token} (hClose : close.is ")" = true) (rest : List Token) :
    splitArguments depth (ts ++ close :: rest) = some ([ts], ts.length + 1) := by
  induction ts generalizing depth with
  | nil =>
    cases h
    rw [List.nil_append, splitArguments, hClose]
    rfl
  | cons t ts ih =>
    obtain ⟨hOutside, hRest⟩ := h
    have hPlain : (t.is ")" && depth == 0) = false ∧ (t.is "," && depth == 0) = false := by
      cases depth with
      | zero => exact ⟨by rw [(hOutside rfl).1]; rfl, by rw [(hOutside rfl).2]; rfl⟩
      | succ depth => exact ⟨Bool.and_false _, Bool.and_false _⟩
    rw [List.cons_append, splitArguments, hPlain.1, hPlain.2, ih hRest]
    rfl

/-! ## Searches -/

/-- Tokens with the calls among them expanded, but for those of hidden macros. -/
def search (table : MacroTable) (hidden : List String) (ts : List Token) :
    Except Fault (List Token) :=
  rescan table (expandWithin table (table.definitions.length + 1)) hidden 0 ts

/-- Every bound above the number of visible macros is as good as another one. -/
theorem expandWithin_add {depth : Nat} {hidden : List String} (name : Token)
    (args : Option (List (List Token))) (h : (visible table hidden).length < depth) (k : Nat) :
    expandWithin table (depth + k) hidden name args = expandWithin table depth hidden name args := by
  induction k with
  | zero => rfl
  | succ k ih =>
    rw [← ih]
    exact expandWithin_succ (Nat.lt_of_lt_of_le h (Nat.le_add_right _ _))

/-- The calls in a call are searched for with its name hidden. -/
theorem expand_eq_search {name : Token} {d : MacroDefinition}
    (hFind : table.find? name.text = some d) (args : Option (List (List Token))) :
    expand table name args = (do
      let ts ← replace table (search table [name.text]) d name args
      let ts ← search table [name.text] ts
      return ts.map (placeAt name)) := by
  have hSearch : rescan table (expandWithin table table.definitions.length) [name.text] 0 =
      search table [name.text] := by
    funext ts
    refine rescan_congr (fun t e args hCalled => (expandWithin_succ ?_).symm) 0 ts
    exact Nat.lt_of_lt_of_le (length_visible_of_called hCalled) (List.length_filter_le _ _)
  unfold expand
  rw [expandWithin, hFind]
  dsimp only
  rw [hSearch, bind_assoc]

/-! ## Hidden macros -/

section Erasing

variable {name : String} {hidden : List String}

theorem find?_eraseName_of_ne {other : String} (h : other ≠ name) :
    (table.eraseName name).find? other = table.find? other := by
  unfold MacroTable.find? MacroTable.eraseName
  dsimp only
  rw [List.find?_filter]
  refine congrArg (fun p => List.find? p table.definitions) (funext fun d => ?_)
  by_cases hName : d.name = other
  · simp [hName, h]
  · simp [hName]

/-- What is not in the table is called as little as what is hidden. -/
theorem called?_eraseName (t : Token) :
    called? (table.eraseName name) hidden t = called? table (hidden ++ [name]) t := by
  unfold called?
  by_cases hName : t.text = name
  · rw [hName, MacroTable.find?_eraseName_self, ite_self, if_neg]
    simp
  · have hContains : (hidden ++ [name]).contains t.text = hidden.contains t.text := by
      simp [hName]
    rw [find?_eraseName_of_ne hName, hContains]

theorem text_ne_of_called {t : Token} {d : MacroDefinition}
    (h : called? (table.eraseName name) hidden t = some d) : t.text ≠ name := by
  intro hName
  have hFind := (find?_of_called h).1
  rw [hName, MacroTable.find?_eraseName_self] at hFind
  cases hFind

theorem visible_eraseName :
    visible (table.eraseName name) hidden = visible table (hidden ++ [name]) := by
  unfold visible MacroTable.eraseName
  dsimp only
  rw [List.filter_filter]
  refine List.filter_congr fun d _ => ?_
  simp [bne, Bool.beq_eq_decide_eq]

theorem rescan_eraseName {expand expand' : Expander}
    (h : ∀ t d args, called? (table.eraseName name) hidden t = some d →
      expand (t.text :: hidden) t args = expand' (t.text :: (hidden ++ [name])) t args)
    (skip : Nat) (ts : List Token) :
    rescan (table.eraseName name) expand hidden skip ts =
      rescan table expand' (hidden ++ [name]) skip ts := by
  induction ts generalizing skip with
  | nil => simp only [rescan]
  | cons t ts ih =>
    cases skip with
    | succ skip => exact ih skip
    | zero =>
      unfold rescan
      rw [← called?_eraseName]
      cases hCalled : called? (table.eraseName name) hidden t with
      | none => simp only [ih]
      | some d =>
        have hExpand := fun args => h t d args hCalled
        simp only [ih, hExpand]

theorem expandWithin_eraseName {depth : Nat} {t : Token} (args : Option (List (List Token)))
    (hName : t.text ≠ name) : expandWithin (table.eraseName name) depth hidden t args =
      expandWithin table depth (hidden ++ [name]) t args := by
  induction depth generalizing hidden t args with
  | zero => rfl
  | succ depth ih =>
    have hSearch : rescan (table.eraseName name) (expandWithin (table.eraseName name) depth) hidden 0 =
        rescan table (expandWithin table depth) (hidden ++ [name]) 0 := by
      funext ts
      exact rescan_eraseName (fun u d args hCalled => ih args (text_ne_of_called hCalled)) 0 ts
    unfold expandWithin
    rw [find?_eraseName_of_ne hName, hSearch]
    rfl

/-- A search with a name hidden is one without the macro of this name. -/
theorem search_eraseName (ts : List Token) :
    search (table.eraseName name) hidden ts = search table (hidden ++ [name]) ts := by
  refine rescan_eraseName (fun t d args hCalled => ?_) 0 ts
  have hLess := length_visible_of_called hCalled
  have hErased : (visible (table.eraseName name) hidden).length ≤
      (table.eraseName name).definitions.length := List.length_filter_le _ _
  obtain ⟨k, hk⟩ := Nat.exists_eq_add_of_le
    (List.length_filter_le (fun d : MacroDefinition => d.name != name) table.definitions)
  have hDepth : table.definitions.length + 1 =
      (table.eraseName name).definitions.length + 1 + k := by
    exact (congrArg (· + 1) hk).trans (Nat.add_right_comm _ _ _)
  have hVisible : (visible table (t.text :: (hidden ++ [name]))).length <
      (table.eraseName name).definitions.length + 1 := by
    rw [← List.cons_append, ← visible_eraseName]
    omega
  rw [expandWithin_eraseName args (text_ne_of_called hCalled), List.cons_append, hDepth]
  exact (expandWithin_add t args hVisible k).symm

end Erasing

/-! ## Searches that change nothing -/

/-- Whether no call is among tokens: a name of a macro that is called like a function may stand
there if no parenthesis follows. -/
def Settled (table : MacroTable) : List Token → Prop
  | [] => True
  | t :: ts => (∀ d, called? table [] t = some d →
      d.isFunctionLike = true ∧ (ts.head?.map (·.is "(")).getD false = false) ∧ Settled table ts

theorem search_of_settled {hidden : List String} {ts : List Token} (h : Settled table ts) :
    search table hidden ts = .ok ts := by
  unfold search
  induction ts with
  | nil => rfl
  | cons t ts ih =>
    obtain ⟨hFirst, hRest⟩ := h
    unfold rescan
    cases hCalled : called? table hidden t with
    | none =>
      dsimp only
      rw [ih hRest]
      rfl
    | some d =>
      have hVisible : called? table [] t = some d := by
        unfold called? at hCalled ⊢
        split at hCalled
        · rename_i hCalls
          rw [if_pos]
          · exact hCalled
          · rw [Bool.and_eq_true] at hCalls ⊢
            exact ⟨hCalls.1, rfl⟩
        · cases hCalled
      obtain ⟨hFunction, hOpen⟩ := hFirst d hVisible
      dsimp only
      rw [hFunction, hOpen, ih hRest]
      rfl

theorem settled_of_forall {ts : List Token} (h : ∀ t ∈ ts, called? table [] t = none) :
    Settled table ts := by
  induction ts with
  | nil => exact trivial
  | cons t ts ih =>
    obtain ⟨hFirst, hRest⟩ := List.forall_mem_cons.mp h
    refine ⟨fun d hd => ?_, ih hRest⟩
    cases hFirst.symm.trans hd

/-! ## Calls that give back their argument -/

/-- A call of a macro whose body is its one parameter. The tokens between the parentheses are one
argument. They are expanded as if the macro was not defined, and the result is expanded in the same
way once more. So the call gives the tokens that the argument gives where it stands, or the same
fault, if it does not matter for the argument whether the macro is defined, and if its expansion
leaves no call. -/
theorem expand_argument (hTable : table.Reachable) {name parameter close : Token}
    {d : MacroDefinition} {p : String} (hFind : table.find? name.text = some d) (hParameters : d.parameters = some [p])
    (hBody : d.tokens = [parameter]) (hWord : parameter.isWord = true) (hText : parameter.text = p)
    {ts : List Token} (hBalanced : Balanced 0 ts) (hClose : close.is ")" = true) :
    let alone := search (table.eraseName name.text) []
    arguments (ts ++ [close]) = .ok ([ts], ts.length + 1) ∧
    expand table name (some [ts]) = (do
      let us ← alone ts
      let us ← alone us
      return us.map (placeAt name)) ∧
    (alone ts = search table [] ts → (∀ us, search table [] ts = .ok us → Settled table us) →
      expand table name (some [ts]) = List.map (placeAt name) <$> search table [] ts) := by
  have hAlone : search (table.eraseName name.text) [] = search table [name.text] :=
    funext search_eraseName
  have hName : IsName p := by
    have hLexical := hTable.each lexical_tokenize d (List.mem_of_find?_eq_some hFind) parameter
    rw [hBody] at hLexical
    exact hText ▸ hLexical (List.mem_singleton_self _) hWord
  have hMark : ∀ text, ¬ IsName text → parameter.is text = false := by
    intro text hNoName
    refine Bool.eq_false_iff.mpr fun hIs => hNoName ?_
    rw [Token.is, Bool.and_eq_true, beq_iff_eq] at hIs
    exact hIs.2 ▸ hText ▸ hName
  have hArgument : Call.argument? ⟨d, [ts]⟩ parameter = some ts := by
    unfold Call.argument? parameter?
    rw [hParameters, hWord, hText]
    simp
  have hReplace : ∀ expand, replace table expand d name (some [ts]) = expand ts := by
    intro expand
    have hArguments : matchArguments name [p] (some [ts]) = .ok [ts] := rfl
    rw [replace, hParameters]
    dsimp only
    rw [hArguments, hBody]
    change Call.substitute table.lexicon ⟨d, [ts]⟩ expand [] [parameter] = _
    rw [Call.substitute, hMark "#" (by decide), hMark "##" (by decide), hArgument]
    exact bind_pure _
  have hExpand := expand_eq_search hFind (some [ts])
  rw [hReplace, ← hAlone] at hExpand
  refine ⟨?_, hExpand, fun hSame hSettled => ?_⟩
  · rw [arguments, splitArguments_of_balanced hBalanced hClose]
  · rw [hExpand, hSame]
    cases hResult : search table [] ts with
    | error fault => rfl
    | ok us =>
      have hAgain : search (table.eraseName name.text) [] us = .ok us := by
        rw [hAlone]
        exact search_of_settled (hSettled us hResult)
      change (search (table.eraseName name.text) [] us >>= _) = _
      rw [hAgain]
      rfl

/-- The macro `ID(x) x`. -/
def identityMacro : MacroDefinition :=
  ⟨"ID", some ["x"], "x", [⟨.identifier, "x", ⟨⟨1, 1⟩, ⟨1, 2⟩⟩, 0, false⟩]⟩

/-- The argument `(SIDE, 1)` of `ID`, with parentheses of its own. -/
theorem expand_argument_pair :
    let table : MacroTable := ⟨({} : Environment).lexicon, [identityMacro, sideMacro]⟩
    let name := Token.point .identifier "ID" ⟨5, 1⟩ 0
    let ts := [Token.point .separator "(" ⟨5, 4⟩ 0, Token.point .identifier "SIDE" ⟨5, 5⟩ 0,
      Token.point .separator "," ⟨5, 9⟩ 0, Token.point (.literal .decInteger) "1" ⟨5, 11⟩ 0,
      Token.point .separator ")" ⟨5, 12⟩ 0]
    table.Reachable ∧ Balanced 0 ts ∧ ∃ us, search table [] ts = .ok us ∧
      us.map Token.text = ["(", "4", ",", "1", ")"] ∧
      expand table name (some [ts]) = .ok (us.map (placeAt name)) := by
  intro table name ts
  have hSide : MacroTable.define ⟨table.lexicon, []⟩ "SIDE 4".toList =
      .ok ("SIDE", ⟨table.lexicon, [sideMacro]⟩) := rfl
  have hIdentity : MacroTable.define ⟨table.lexicon, [sideMacro]⟩ "ID(x) x".toList =
      .ok ("ID", table) := rfl
  have hTable : table.Reachable := .define (.define (.empty _) hSide) hIdentity
  have hBalanced : Balanced 0 ts := ⟨by decide, by decide, by decide, by decide, by decide, rfl⟩
  let us := ts.set 1 (sideMacro.tokens.head (by decide))
  have hAlone : search (table.eraseName name.text) [] ts = .ok us := rfl
  have hSearch : search table [] ts = .ok us := rfl
  have hSettled : Settled table us := settled_of_forall (by decide)
  let close := Token.point .separator ")" ⟨5, 13⟩ 0
  obtain ⟨-, -, hExpand⟩ := @expand_argument table hTable name (identityMacro.tokens.head (by decide))
    close identityMacro "x" rfl rfl rfl rfl rfl ts hBalanced rfl
  refine ⟨hTable, hBalanced, us, hSearch, rfl, ?_⟩
  have hResult := hExpand (hAlone.trans hSearch.symm) fun vs hvs => by
    cases hSearch.symm.trans hvs
    exact hSettled
  rwa [hSearch] at hResult

/-- With `N N + 1` the call `ID(N)` replaces `N` twice, and the call in `ID(ID(1))` stays, though
the arguments alone give other tokens. -/
theorem expand_argument_differs :
    let number : MacroDefinition := ⟨"N", none, "N + 1",
      [⟨.identifier, "N", ⟨⟨1, 1⟩, ⟨1, 2⟩⟩, 0, false⟩, ⟨.operator, "+", ⟨⟨1, 3⟩, ⟨1, 4⟩⟩, 0, false⟩,
        ⟨.literal .decInteger, "1", ⟨⟨1, 5⟩, ⟨1, 6⟩⟩, 0, false⟩]⟩
    let table : MacroTable := ⟨({} : Environment).lexicon, [identityMacro, number]⟩
    let name := Token.point .identifier "ID" ⟨1, 1⟩ 0
    let one := [Token.point .identifier "N" ⟨1, 4⟩ 0]
    let two := [Token.point .identifier "ID" ⟨1, 4⟩ 0, Token.point .separator "(" ⟨1, 6⟩ 0,
      Token.point (.literal .decInteger) "1" ⟨1, 7⟩ 0, Token.point .separator ")" ⟨1, 8⟩ 0]
    let texts := fun r : Except Fault (List Token) => r.toOption.map (·.map Token.text)
    table.Reachable ∧ Balanced 0 one ∧ Balanced 0 two ∧
    texts (search table [] one) = some ["N", "+", "1"] ∧
    texts (expand table name (some [one])) = some ["N", "+", "1", "+", "1"] ∧
    texts (search table [] two) = some ["1"] ∧
    texts (expand table name (some [two])) = some ["ID", "(", "1", ")"] := by
  intro number table name one two texts
  have hNumber : MacroTable.define ⟨table.lexicon, []⟩ "N N + 1".toList =
      .ok ("N", ⟨table.lexicon, [number]⟩) := rfl
  have hIdentity : MacroTable.define ⟨table.lexicon, [number]⟩ "ID(x) x".toList =
      .ok ("ID", table) := rfl
  exact ⟨.define (.define (.empty _) hNumber) hIdentity, ⟨by decide, rfl⟩,
    ⟨by decide, by decide, by decide, by decide, rfl⟩, rfl, rfl, rfl, rfl⟩

end IdlReader.Macro
