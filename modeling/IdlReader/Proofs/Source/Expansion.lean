import IdlReader.Proofs.Source.Words
import IdlReader.Proofs.Token.Line

/-!
# Properties of expanded tokens

Replacing calls of macros keeps every property of tokens that holds of what texts are split into and
does not depend on where a token stands: an argument is a part of the tokens of the call, and what
two tokens are joined to is split into tokens anew. So the words among the tokens stay names, and
what is no part of the text stays away.

* `MacroTable.each_define`: a definition keeps the property in the bodies of the macros.
* `Call.each_substitute`, `each_rescan`: the two halves of an expansion.
* `each_expand`: the tokens in place of a call.
* `kept_proper`, `kept_solid`: properties that are kept.
-/

namespace IdlReader

/-- Whether all tokens of a list have a property. -/
def Each (P : Token → Prop) (ts : List Token) : Prop := ∀ t ∈ ts, P t

/-- Whether a property holds of the tokens of all texts and of the texts of all arguments, wherever
they stand. -/
structure Kept (P : Token → Prop) : Prop where
  tokenize : ∀ {l source text}, Ok (tokenize l false source text) (Each P)
  stringize : ∀ argument place, P (Macro.stringize argument place)
  placeAt : ∀ name {t}, P t → P (Macro.placeAt name t)

variable {P : Token → Prop}

theorem each_nil : Each P [] := nofun

theorem each_cons {t : Token} {ts : List Token} : Each P (t :: ts) ↔ P t ∧ Each P ts :=
  List.forall_mem_cons

theorem each_append {ts us : List Token} : Each P (ts ++ us) ↔ Each P ts ∧ Each P us :=
  List.forall_mem_append

theorem Each.mono {ts us : List Token} (h : Each P ts) (hSubset : ∀ t ∈ us, t ∈ ts) : Each P us :=
  fun t ht => h t (hSubset t ht)

/-! ## Tables -/

/-- Whether all tokens in the bodies of macros have a property. -/
def MacroTable.Each (P : Token → Prop) (m : MacroTable) : Prop :=
  ∀ d ∈ m.definitions, IdlReader.Each P d.tokens

theorem each_read (hP : ∀ {l source text}, Ok (tokenize l false source text) (Each P))
    {l : Lexicon} {text : List Char} :
    Ok (MacroDefinition.read l text) fun d => Each P d.tokens := by
  unfold MacroDefinition.read
  dsimp only
  split
  · exact ok_error _ _
  · have hRest : ∀ r : Option (List String) × List Char,
        Ok (do
          let tokens ← tokenize l false 0 (Text.trim r.2)
          return (⟨String.ofList ((Text.trimLeft text).takeWhile Text.isWord), r.1,
            String.ofList (Text.trim r.2), tokens⟩ : MacroDefinition))
          fun d => Each P d.tokens :=
      fun r => ok_bind hP fun _ hTokens => ok_ok hTokens
    split
    · exact ok_bind (P := fun _ => True) (fun _ _ => trivial) fun parameters _ => hRest _
    · exact hRest _

namespace MacroTable

variable {m : MacroTable}

theorem Each.find? (h : m.Each P) {name : String} {d : MacroDefinition}
    (hFind : m.find? name = some d) : IdlReader.Each P d.tokens :=
  h d (List.mem_of_find?_eq_some hFind)

theorem Each.eraseName (h : m.Each P) (name : String) : (m.eraseName name).Each P :=
  fun d hd => h d (List.mem_filter.mp hd).1

theorem each_define (hP : ∀ {l source text}, Ok (tokenize l false source text) (IdlReader.Each P))
    (h : m.Each P) (text : List Char) :
    Ok (m.define text) fun r => r.2.Each P := by
  unfold define
  refine ok_bind (each_read hP) ?_
  intro d hd
  split
  · split
    · exact ok_ok h
    · exact ok_error _ _
  · refine ok_ok ?_
    intro e he
    rcases List.mem_cons.mp he with rfl | hOld
    · exact hd
    · exact h e hOld

/-- Whether definitions and removals of macros lead to a table. -/
inductive Reachable : MacroTable → Prop where
  | empty (l : Lexicon) : Reachable ⟨l, []⟩
  | define {m m' : MacroTable} {text : List Char} {name : String} (h : Reachable m)
      (hDefine : m.define text = .ok (name, m')) : Reachable m'
  | eraseName {m : MacroTable} (h : Reachable m) (name : String) : Reachable (m.eraseName name)

/-- What holds of the tokens of all texts holds of the bodies of macros. -/
theorem Reachable.each (hP : ∀ {l source text}, Ok (tokenize l false source text) (IdlReader.Each P))
    (h : m.Reachable) : m.Each P := by
  induction h with
  | empty => exact nofun
  | define _ hDefine ih => exact each_define hP ih _ _ hDefine
  | eraseName _ name ih => exact ih.eraseName name

/-- What every definition of a macro preserves holds of the predefined macros. -/
theorem ok_ofEnvironment {Q : MacroTable → Prop} (env : Environment) (h : Q ⟨env.lexicon, []⟩)
    (hDefine : ∀ m text, Q m → Ok (m.define text) fun r => Q r.2) : Ok (ofEnvironment env) Q := by
  unfold ofEnvironment
  generalize (⟨env.lexicon, []⟩ : MacroTable) = m at h
  induction env.defines generalizing m with
  | nil => exact ok_ok h
  | cons text texts ih =>
    rw [List.foldlM_cons]
    refine ok_bind (P := Q) ?_ fun m hm => ih m hm
    have hPredefine : Ok (m.predefine text.toList) fun r => Q r.2 := by
      unfold predefine
      dsimp only
      split <;> exact hDefine _ _ h
    intro t ht
    cases hText : m.predefine text.toList with
    | error fault =>
      rw [hText] at ht
      cases ht
    | ok r =>
      rw [hText] at ht
      cases ht
      exact hPredefine r hText

theorem each_ofEnvironment (hP : Kept P) (env : Environment) : Ok (ofEnvironment env) (Each P) :=
  ok_ofEnvironment env nofun fun _ text h => each_define hP.tokenize h text

theorem lexicon_ofEnvironment (env : Environment) :
    Ok (ofEnvironment env) fun m => m.lexicon = env.lexicon := by
  refine ok_ofEnvironment env rfl fun m text h => ?_
  unfold define
  refine ok_bind (P := fun _ => True) (fun _ _ => trivial) fun d _ => ?_
  split
  · split
    · exact ok_ok h
    · exact ok_error _ _
  · exact ok_ok h

end MacroTable

namespace Macro

/-! ## Arguments -/

theorem each_consFirst {t : Token} {as : List (List Token)} (ht : P t)
    (h : ∀ a ∈ as, Each P a) : ∀ a ∈ consFirst t as, Each P a := by
  cases as with
  | nil => simpa [consFirst, each_cons, each_nil] using ht
  | cons a as =>
    rw [List.forall_mem_cons] at h
    simpa [consFirst, each_cons, ht] using h

theorem each_splitArguments {depth : Nat} {ts : List Token} {r : List (List Token) × Nat}
    (h : Each P ts) (hSplit : splitArguments depth ts = some r) :
    ∀ a ∈ r.1, Each P a := by
  induction ts generalizing depth r with
  | nil => cases hSplit
  | cons t ts ih =>
    obtain ⟨ht, hRest⟩ := each_cons.mp h
    unfold splitArguments at hSplit
    split at hSplit
    · cases hSplit
      simp [each_nil]
    · split at hSplit
      · obtain ⟨x, hx, rfl⟩ := Option.map_eq_some_iff.mp hSplit
        simpa [each_nil] using ih hRest hx
      · obtain ⟨x, hx, rfl⟩ := Option.map_eq_some_iff.mp hSplit
        exact each_consFirst ht (ih hRest hx)

theorem each_arguments {ts : List Token} (h : Each P ts) :
    Ok (arguments ts) fun r => ∀ a ∈ r.1, Each P a := by
  unfold arguments
  split
  · rename_i r hSplit
    exact ok_ok (each_splitArguments h hSplit)
  · exact ok_error _ _

theorem each_matchArguments {name : Token} {parameters : List String}
    {args : Option (List (List Token))} (h : ∀ as ∈ args, ∀ a ∈ as, Each P a) :
    Ok (matchArguments name parameters args) fun as => ∀ a ∈ as, Each P a := by
  have hGiven : ∀ a ∈ args.getD [], Each P a := by
    cases args with
    | none => nofun
    | some as => exact h as rfl
  have hAll : ∀ as : List (List Token), (∀ a ∈ as, Each P a) →
      Ok (if as.length < parameters.length then failAt .argumentsMissing name.position
        else if parameters.length < as.length then failAt .argumentsTooMany name.position
        else .ok as : Except Fault (List (List Token))) fun as => ∀ a ∈ as, Each P a := by
    intro as hAs
    split
    · exact ok_error _ _
    · split
      · exact ok_error _ _
      · exact ok_ok hAs
  refine hAll _ ?_
  split
  · nofun
  · exact hGiven

/-! ## Substitution -/

namespace Call

variable {l : Lexicon} {c : Call} {expand : List Token → Except Fault (List Token)}

theorem each_argument? (h : ∀ a ∈ c.arguments, Each P a) {t : Token} {a : List Token}
    (hArgument : c.argument? t = some a) : Each P a := by
  unfold argument? at hArgument
  obtain ⟨i, _, hi⟩ := Option.bind_eq_some_iff.mp hArgument
  exact h a (List.mem_of_getElem? hi)

theorem each_paste (hP : Kept P) (h : ∀ a ∈ c.arguments, Each P a) {left sign next : Token}
    (hNext : P next) : Ok (paste l c left sign next) (Each P) := by
  have hRight : Each P ((c.argument? next).getD [next]) := by
    cases hArgument : c.argument? next with
    | none => exact each_cons.mpr ⟨hNext, each_nil⟩
    | some a => exact each_argument? h hArgument
  unfold paste
  dsimp only
  refine ok_bind hP.tokenize ?_
  intro tokens hTokens
  exact ok_ok (each_append.mpr ⟨hTokens, hRight.mono fun t ht => List.mem_of_mem_tail ht⟩)

theorem each_reverse {ts : List Token} (h : Each P ts) : Each P ts.reverse :=
  h.mono fun _ ht => List.mem_reverse.mp ht

theorem each_substitute (hP : Kept P) (h : ∀ a ∈ c.arguments, Each P a)
    (hExpand : ∀ ts, Each P ts → Ok (expand ts) (Each P)) (out body : List Token)
    (hOut : Each P out) (hBody : Each P body) :
    Ok (substitute l c expand out body) (Each P) := by
  fun_induction substitute l c expand out body with
  | case1 out => exact ok_ok (each_reverse hOut)
  | case2 out t => exact ok_error _ _
  | case3 out t => exact ok_error _ _
  | case4 out t _ _ a hArgument =>
    refine ok_bind (hExpand a (each_argument? h hArgument)) ?_
    intro b hb
    exact ok_ok (each_append.mpr ⟨each_reverse hOut, hb⟩)
  | case5 out t =>
    exact ok_ok (each_reverse (each_cons.mpr ⟨(each_cons.mp hBody).1, hOut⟩))
  | case6 out t next body _ a hArgument ih =>
    refine ih (each_cons.mpr ⟨hP.stringize a t, hOut⟩) ?_
    exact (each_cons.mp (each_cons.mp hBody).2).2
  | case7 out t next body => exact ok_error _ _
  | case8 t next body _ _ left out ih =>
    obtain ⟨_, hRest⟩ := each_cons.mp hBody
    obtain ⟨hNext, hRest⟩ := each_cons.mp hRest
    refine ok_bind (each_paste hP h hNext) ?_
    intro joined hJoined
    refine ih joined (each_append.mpr ⟨each_reverse hJoined, ?_⟩) hRest
    exact (each_cons.mp hOut).2
  | case9 t next body => exact ok_error _ _
  | case10 out t next body _ _ a hArgument _ ih =>
    have hNew := each_reverse (each_argument? h hArgument)
    exact ih (each_append.mpr ⟨hNew, hOut⟩) (each_cons.mp hBody).2
  | case11 out t next body _ _ a hArgument _ ih =>
    refine ok_bind (hExpand a (each_argument? h hArgument)) ?_
    intro b hb
    exact ih b (each_append.mpr ⟨each_reverse hb, hOut⟩) (each_cons.mp hBody).2
  | case12 out t next body _ _ _ ih =>
    obtain ⟨ht, hRest⟩ := each_cons.mp hBody
    exact ih (each_cons.mpr ⟨ht, hOut⟩) hRest

end Call

/-! ## Calls -/

theorem each_rescan {table : MacroTable} {expand : Expander}
    (hExpand : ∀ hidden name args, P name → (∀ as ∈ args, ∀ a ∈ as, Each P a) →
      Ok (expand hidden name args) (Each P))
    (hidden : List String) (skip : Nat) (ts : List Token) (h : Each P ts) :
    Ok (rescan table expand hidden skip ts) (Each P) := by
  fun_induction rescan table expand hidden skip ts with
  | case1 => exact ok_ok each_nil
  | case2 skip t ts ih => exact ih (each_cons.mp h).2
  | case3 t ts _ ih =>
    obtain ⟨ht, hRest⟩ := each_cons.mp h
    exact ok_bind (ih hRest) fun rest hr => ok_ok (each_cons.mpr ⟨ht, hr⟩)
  | case4 t ts d _ _ _ ih =>
    obtain ⟨ht, hRest⟩ := each_cons.mp h
    refine ok_bind (each_arguments (hRest.mono fun _ => List.mem_of_mem_drop)) ?_
    rintro ⟨args, taken⟩ hArgs
    refine ok_bind (hExpand _ t _ ht ?_) ?_
    · intro as hAs
      cases hAs
      exact hArgs
    · intro replaced hReplaced
      exact ok_bind (ih taken hRest) fun rest hr => ok_ok (each_append.mpr ⟨hReplaced, hr⟩)
  | case5 t ts d _ _ _ ih =>
    obtain ⟨ht, hRest⟩ := each_cons.mp h
    exact ok_bind (ih hRest) fun rest hr => ok_ok (each_cons.mpr ⟨ht, hr⟩)
  | case6 t ts d _ _ ih =>
    obtain ⟨ht, hRest⟩ := each_cons.mp h
    refine ok_bind (hExpand _ t none ht nofun) ?_
    intro replaced hReplaced
    exact ok_bind (ih hRest) fun rest hr => ok_ok (each_append.mpr ⟨hReplaced, hr⟩)

variable {table : MacroTable}

theorem each_replace (hP : Kept P) {expand : List Token → Except Fault (List Token)}
    (hExpand : ∀ ts, Each P ts → Ok (expand ts) (Each P)) {d : MacroDefinition}
    (hBody : Each P d.tokens) {name : Token} {args : Option (List (List Token))}
    (hArgs : ∀ as ∈ args, ∀ a ∈ as, Each P a) :
    Ok (replace table expand d name args) (Each P) := by
  unfold replace
  split
  · exact ok_ok hBody
  · refine ok_bind (each_matchArguments hArgs) ?_
    intro given hGiven
    exact Call.each_substitute hP hGiven hExpand _ _ each_nil hBody

theorem each_expandWithin (hP : Kept P) (h : table.Each P) (depth : Nat) (hidden : List String)
    (name : Token) (args : Option (List (List Token))) (hName : P name)
    (hArgs : ∀ as ∈ args, ∀ a ∈ as, Each P a) :
    Ok (expandWithin table depth hidden name args) (Each P) := by
  induction depth generalizing hidden name args with
  | zero => exact ok_ok (each_cons.mpr ⟨hName, each_nil⟩)
  | succ depth ih =>
    have hSearch : ∀ ts, Each P ts →
        Ok (rescan table (expandWithin table depth) hidden 0 ts) (Each P) :=
      fun ts hts => each_rescan ih hidden 0 ts hts
    unfold expandWithin
    split
    · exact ok_error _ _
    · rename_i d hFind
      dsimp only
      exact ok_bind (each_replace hP hSearch (h.find? hFind) hArgs) hSearch

theorem each_expand (hP : Kept P) (h : table.Each P) {name : Token} (hName : P name)
    {args : Option (List (List Token))} (hArgs : ∀ as ∈ args, ∀ a ∈ as, Each P a) :
    Ok (expand table name args) (Each P) := by
  unfold expand
  refine ok_bind (each_expandWithin hP h _ _ name args hName hArgs) ?_
  intro tokens hTokens
  refine ok_ok ?_
  intro t ht
  obtain ⟨u, hu, rfl⟩ := List.mem_map.mp ht
  exact hP.placeAt name (hTokens u hu)

end Macro

/-! ## Properties that are kept -/

theorem kept_proper : Kept Token.Proper where
  tokenize := proper_tokenize
  stringize _ _ := proper_of_not_isWord rfl
  placeAt _ _ h := ⟨h.lexical, h.unreserved⟩

/-- Whether a token is a part of a text that is read: no comment, no directive and not the end. -/
structure Token.Solid (t : Token) : Prop where
  comment : t.kind ≠ .comment
  finish : t.kind ≠ .finish
  directive : t.kind ≠ .directive

theorem kind_readAll {l : Lexicon} {source : SourceId} (n : Nat) (c : Cursor) :
    Each (fun t => t.kind ≠ .directive) (Token.readAll l false source n c).1 := by
  induction n generalizing c with
  | zero => exact each_nil
  | succ n ih =>
    rw [Token.readAll]
    split
    · exact each_nil
    · rename_i t after hNext
      have ht := Token.kind_next _ hNext
      split
      · exact each_cons.mpr ⟨ht, each_nil⟩
      · exact each_cons.mpr ⟨ht, ih after⟩

theorem kept_solid : Kept Token.Solid where
  tokenize {l source text} := by
    have hAll : Each (fun t => t.kind ≠ .directive) (Token.readAll l false source (text.length + 1)
        (Cursor.ofText text)).1 := kind_readAll _ _
    unfold tokenize Token.ofText
    split
    · exact ok_error _ _
    · rename_i tokens hTokens
      rw [hTokens] at hAll
      refine ok_ok fun t ht => ?_
      obtain ⟨hMem, hKind⟩ := List.mem_filter.mp ht
      simp only [ne_eq, decide_eq_true_eq] at hKind
      exact ⟨hKind.1, hKind.2, hAll t hMem⟩
  stringize _ _ := ⟨nofun, nofun, nofun⟩
  placeAt _ _ h := ⟨h.comment, h.finish, h.directive⟩

end IdlReader
