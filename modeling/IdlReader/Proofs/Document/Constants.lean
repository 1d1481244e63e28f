import IdlReader.Proofs.Document.Reachable
import IdlReader.Proofs.Grammar.ReadModule

/-!
# Documents of constants

A document that is a module of constants is read if the constants can be evaluated one after the
other in an order, and then each of them has the value that it gets so, wherever it is declared.

* `outcome_of_module`: reading ends with the values of a solution or shows that there is none.
* `constants_in_order`: the outcome of reading, and that of other arrangements of the constants.
-/

namespace IdlReader

open IdlReader.Tree

/-- Whether a constant in a tree has its name and a value. -/
structure WrittenConstant.Stores {env : Environment} (c : WrittenConstant env) (t : Tree)
    (values : List (String × Constant)) (id : EntityId) : Prop where
  kind : (t.get id).kind = .const
  name : (t.get id).name = c.name.text
  value : ∃ d v, (t.get id).declaration? = some d ∧ d.value = .ofConstant v ∧
    values.lookup c.assigned.key = some v

/-- Whether a tree holds a module and its constants with certain values by their keys. -/
structure WrittenModule.Stores {env : Environment} (m : WrittenModule env) (t : Tree)
    (values : List (String × Constant)) : Prop where
  module : ∃ owner, (t.get root).children = [owner] ∧ (t.get owner).kind = .module ∧
    (t.get owner).name = m.name.text ∧
    List.Forall₂ (fun c id => c.Stores t values id) m.constants (t.get owner).children

namespace Document

open Assigned

variable {env : Environment} {m : WrittenModule env}

/-- What was evaluated is stored. -/
theorem stores_of_completes {s : Session} {p : PlacedModule env} {ts : List Token} {a : Agenda}
    (hPlaces : p.Places m) (h : s.Completes p ts a) {values : List (String × Constant)}
    (hValues : ∀ c ∈ m.body, values.lookup c.key = some (a.values c.key)) :
    m.Stores s.tree values := by
  have hTree := h.awaits.tree
  refine ⟨p.owner, hTree.rootChildren, hTree.kind, hTree.name.trans hPlaces.name, ?_⟩
  have hChildren : (s.tree.get p.owner).children = p.placed.map PlacedConstant.id := by
    rw [hTree.children, List.map_map]
    rfl
  rw [hChildren, ← hPlaces.constants, List.forall₂_map_left_iff, List.forall₂_map_right_iff,
    List.forall₂_same]
  intro x hx
  have hStands := h.stands hx
  have hStarted : x.key ∉ a.started := by
    rw [h.started]
    exact List.not_mem_nil
  have hDeclaration : (s.tree.get x.id).declaration? = some (x.declaration a) :=
    hStands.declaration
  rw [PlacedConstant.declaration_done hStarted (h.all x hx)] at hDeclaration
  refine ⟨hStands.kind, hStands.name, _, a.values x.key, hDeclaration, rfl, ?_⟩
  exact hValues x.constant.assigned (hPlaces.body ▸ PlacedModule.assigned_mem hx)

section Reading

variable {files : FileTree} {input : Input} {r : Reader} {g : Gathered}

/-- Reading a module of constants ends with the values of a solution, or shows that there is
none. -/
theorem outcome_of_module (hReader : reader env files input = .ok r)
    (hEnding : r.stream.ending = .ok g) (hTokens : r.stream.tokens = m.tokens) :
    (∃ d order v, read env files input = .ok d ∧ Topological env.fold m.body order ∧
      Solves env.fold m.body v ∧ ∀ values : List (String × Constant),
        (∀ c ∈ m.body, values.lookup c.key = some (v c.key)) → m.Stores d.tree values) ∨
      ∃ f, read env files input = .error f ∧ Refuted env.fold m.body f := by
  have hLexical : r.stream.Lexical := lexical_reader env files input r hReader
  have hNames : ∀ c ∈ m.constants, ∀ t ∈ c.expression.operands, IsName t.text := by
    intro c hc t ht
    refine hLexical t ?_ (c.hOperands t ht)
    rw [hTokens]
    exact m.operand_mem hc ht
  have hAwaits : (session env r.stream).Awaits env m.tokens
      fun t => t.Blank (env.enables .caseSensitiveNames) #[{}] :=
    ⟨rfl, hTokens, m.unfinished, ⟨g, hEnding⟩, Nat.one_pos, blank_initial _⟩
  have hEnds := Parsing.ends_readRoot hNames hAwaits
  rw [read_eq_ofStream hReader]
  unfold Parsing.Ends at hEnds
  cases hRun : Parsing.readRoot (session env r.stream) with
  | ok u s =>
    left
    rw [hRun] at hEnds
    obtain ⟨p, a, hPlaces, hCompletes⟩ := hEnds
    have hSound := hCompletes.sound
    rw [hPlaces.body] at hSound
    have hAll : ∀ c ∈ m.body, c.key ∈ a.keys := by
      intro c hc
      rw [← hPlaces.body] at hc
      obtain ⟨x, hx, rfl⟩ := List.mem_map.mp hc
      exact hCompletes.all x hx
    have hOrder := hSound.topological m.nodup_body hAll
    refine ⟨⟨s.tree, r.stream.sources⟩, a.done, a.values, ofStream_eq_ok.mpr ⟨s, hRun, rfl⟩, hOrder,
      hSound.solves.perm hOrder.perm.symm, fun values hValues => ?_⟩
    exact stores_of_completes hPlaces hCompletes hValues
  | error f s =>
    right
    rw [hRun] at hEnds
    refine ⟨Parsing.complete s f, ofStream_eq_error.mpr ⟨f, s, hRun, rfl⟩, ?_, hEnds.2⟩
    rw [Parsing.cause_complete]
    exact hEnds.1

/-- A module of constants is read exactly if they can be evaluated in an order. -/
theorem exists_read_iff (hReader : reader env files input = .ok r)
    (hEnding : r.stream.ending = .ok g) (hTokens : r.stream.tokens = m.tokens) :
    (∃ d, read env files input = .ok d) ↔ Solvable env.fold m.body := by
  rcases outcome_of_module hReader hEnding hTokens with
    ⟨d, order, v, hRead, hOrder, hSolves, -⟩ | ⟨f, hRead, -, hUnsolvable⟩
  · exact ⟨fun _ => ⟨order, v, hOrder, hSolves⟩, fun _ => ⟨d, hRead⟩⟩
  · refine ⟨?_, fun hSolvable => absurd hSolvable hUnsolvable⟩
    rintro ⟨d, hOk⟩
    rw [hRead] at hOk
    cases hOk

/-- The constants of a module that was read have the values of the evaluation in any order. -/
theorem stores_of_order (hReader : reader env files input = .ok r)
    (hEnding : r.stream.ending = .ok g) (hTokens : r.stream.tokens = m.tokens) {d : Document}
    (hRead : read env files input = .ok d) {order : List Assigned}
    {values : List (String × Constant)} (hOrder : Topological env.fold m.body order)
    (hValues : evaluateInOrder env.fold order [] = some values) : m.Stores d.tree values := by
  rcases outcome_of_module hReader hEnding hTokens with
    ⟨d', -, v, hRead', -, hSolves, hStores⟩ | ⟨f, hFault, -⟩
  · rw [hRead] at hRead'
    cases hRead'
    have hKeys : (order.map Assigned.key).Nodup := (hOrder.perm.map _).nodup_iff.mpr m.nodup_body
    obtain ⟨w, hOther, rfl⟩ := (evaluateInOrder_eq_some_iff hOrder.sorted hKeys).mp hValues
    have hSame := hOrder.sorted.unique hOther (hSolves.perm hOrder.perm)
    refine hStores _ fun c hc => ?_
    have hMem : c ∈ order := hOrder.perm.mem_iff.mpr hc
    rw [lookup_table hMem, hSame c hMem]
  · rw [hRead] at hFault
    cases hFault

/-- A module of constants is read exactly if no assignment leads back to its constant and the
constants can be evaluated in every order in which they stand behind those that they mention; then
each of them holds the value of that evaluation. So reading does not depend on the arrangement of
the constants, and neither do their values. It never runs out of steps. -/
theorem constants_in_order (hReader : reader env files input = .ok r)
    (hEnding : r.stream.ending = .ok g) (hTokens : r.stream.tokens = m.tokens) :
    (∀ f, read env files input = .error f → f.cause ≠ .inputExhausted) ∧
    ((∃ d, read env files input = .ok d) ↔ Acyclic env.fold m.body ∧
      ∀ order, Topological env.fold m.body order →
        ∃ values, evaluateInOrder env.fold order [] = some values) ∧
    (∀ d, read env files input = .ok d → ∀ order values, Topological env.fold m.body order →
      evaluateInOrder env.fold order [] = some values → m.Stores d.tree values) ∧
    ∀ (m' : WrittenModule env) (files' : FileTree) (input' : Input) (r' : Reader) (g' : Gathered),
      m'.body.Perm m.body → reader env files' input' = .ok r' → r'.stream.ending = .ok g' →
      r'.stream.tokens = m'.tokens →
      ((∃ d, read env files' input' = .ok d) ↔ ∃ d, read env files input = .ok d) ∧
      ∀ d d', read env files input = .ok d → read env files' input' = .ok d' →
        ∃ values, m.Stores d.tree values ∧ m'.Stores d'.tree values := by
  have hSolvable := exists_read_iff hReader hEnding hTokens
  have hInOrder := solvable_iff m.nodup_body m.closed_body
  refine ⟨fun f hFault => ?_, hSolvable.trans hInOrder, ?_, ?_⟩
  · rcases outcome_of_module hReader hEnding hTokens with
      ⟨d, -, -, hRead, -⟩ | ⟨f', hRead, hRefuted⟩
    · rw [hFault] at hRead
      cases hRead
    · rw [hFault] at hRead
      cases hRead
      exact hRefuted.1
  · exact fun d hRead order values => stores_of_order hReader hEnding hTokens hRead
  · intro m' files' input' r' g' hPerm hReader' hEnding' hTokens'
    have hSolvable' := exists_read_iff hReader' hEnding' hTokens'
    have hBoth : Solvable env.fold m'.body ↔ Solvable env.fold m.body := by
      constructor
      · rintro ⟨order, v, hOrder, hSolves⟩
        exact ⟨order, v, hOrder.congr hPerm, hSolves.perm hPerm.symm⟩
      · rintro ⟨order, v, hOrder, hSolves⟩
        exact ⟨order, v, hOrder.congr hPerm.symm, hSolves.perm hPerm⟩
    refine ⟨hSolvable'.trans (hBoth.trans hSolvable.symm), fun d d' hRead hRead' => ?_⟩
    obtain ⟨order, -, hOrder, -⟩ := hSolvable.mp ⟨d, hRead⟩
    obtain ⟨values, hValues⟩ := (hInOrder.mp (hSolvable.mp ⟨d, hRead⟩)).2 order hOrder
    exact ⟨values, stores_of_order hReader hEnding hTokens hRead hOrder hValues,
      stores_of_order hReader' hEnding' hTokens' hRead' (hOrder.congr hPerm.symm) hValues⟩

end Reading

/-! ## A constant that refers to one behind it -/

/-- A token of the first line of a text, between two columns. -/
def inLine (kind : TokenKind) (text : String) (first last : Nat) : Token :=
  { kind, text, span := ⟨⟨1, first⟩, ⟨1, last⟩⟩, source := 0 }

theorem ofText?_long : BaseType.ofText? {} "long" = some .long := rfl

theorem kind?_long : BaseType.long.kind? = some (.integer .int32) := rfl

theorem long_ne_enum : BaseType.long ≠ .enum := by decide

/-- The constant `const long a = b + 1;` from a column on. -/
def writtenSum (col : Nat) : WrittenConstant {} where
  keyword := inLine .keyword "const" col (col + 5)
  type := [inLine .keyword "long" (col + 6) (col + 10)]
  typeText := "long"
  base := .long
  kind := .int32
  name := inLine .identifier "a" (col + 11) (col + 12)
  sign := inLine .operator "=" (col + 13) (col + 14)
  assignment := [inLine .identifier "b" (col + 15) (col + 16),
    inLine .operator "+" (col + 17) (col + 18), inLine (.literal .decInteger) "1" (col + 19) (col + 20)]
  expression := .binary .add ⟨1, col + 17⟩ (.operand (inLine .identifier "b" (col + 15) (col + 16)))
    (.literal (inLine (.literal .decInteger) "1" (col + 19) (col + 20)))
  terminator := inLine .separator ";" (col + 20) (col + 21)
  hKeyword := rfl
  hType := .long rfl rfl
  hBase := ofText?_long
  hKind := kind?_long
  hPlain := long_ne_enum
  hName := .inl rfl
  hSeparate := ⟨fun _ => rfl, fun _ => rfl⟩
  hSign := rfl
  hAssignment := by
    have hName : Expression.StartsOperand (inLine .identifier "b" (col + 15) (col + 16)) :=
      ⟨nofun, .inl rfl⟩
    have hPlus : Expression.WritesBinary 1 (inLine .operator "+" (col + 17) (col + 18)) .add :=
      ⟨rfl, List.mem_cons_self⟩
    exact .binary hPlus (by decide) (.operand hName) (.literal rfl)
  hOperands := fun t ht => by
    rw [List.mem_singleton.mp ht]
    rfl
  hTerminator := rfl

/-- The constant `const long b = 2;` from a column on. -/
def writtenTwo (col : Nat) : WrittenConstant {} where
  keyword := inLine .keyword "const" col (col + 5)
  type := [inLine .keyword "long" (col + 6) (col + 10)]
  typeText := "long"
  base := .long
  kind := .int32
  name := inLine .identifier "b" (col + 11) (col + 12)
  sign := inLine .operator "=" (col + 13) (col + 14)
  assignment := [inLine (.literal .decInteger) "2" (col + 15) (col + 16)]
  expression := .literal (inLine (.literal .decInteger) "2" (col + 15) (col + 16))
  terminator := inLine .separator ";" (col + 16) (col + 17)
  hKeyword := rfl
  hType := .long rfl rfl
  hBase := ofText?_long
  hKind := kind?_long
  hPlain := long_ne_enum
  hName := .inl rfl
  hSeparate := ⟨fun _ => rfl, fun _ => rfl⟩
  hSign := rfl
  hAssignment := .literal rfl
  hOperands := nofun
  hTerminator := rfl

/-- The module of both constants in a line, where they stand in one order or in the other. -/
def writtenModule (forward : Bool) : WrittenModule {} where
  keyword := inLine .keyword "module" 1 7
  name := inLine .identifier "M" 8 9
  opening := inLine .separator "\x7b" 10 11
  constants := if forward then [writtenSum 12, writtenTwo 34] else [writtenTwo 12, writtenSum 30]
  closing := inLine .separator "\x7d" 52 53
  terminator := inLine .separator ";" 53 54
  hKeyword := ⟨rfl, rfl⟩
  hName := rfl
  hOpening := ⟨rfl, rfl⟩
  hClosing := rfl
  hTerminator := rfl
  distinct := by cases forward <;> decide +kernel
  closed := by cases forward <;> decide +kernel

/-- A constant has the same value whether the one that it refers to stands in front of it or
behind it. -/
theorem constants_in_order_forward :
    ∃ (r r' : Reader) (d d' : Document) (values : List (String × Constant)),
      reader {} ⟨[], []⟩ (.text "module M { const long a = b + 1; const long b = 2; };") = .ok r ∧
      r.stream.tokens = (writtenModule true).tokens ∧
      reader {} ⟨[], []⟩ (.text "module M { const long b = 2; const long a = b + 1; };") = .ok r' ∧
      r'.stream.tokens = (writtenModule false).tokens ∧
      read {} ⟨[], []⟩ (.text "module M { const long a = b + 1; const long b = 2; };") = .ok d ∧
      read {} ⟨[], []⟩ (.text "module M { const long b = 2; const long a = b + 1; };") = .ok d' ∧
      values.map (fun v => (v.1, v.2.display)) = [("a", "3"), ("b", "2")] ∧
      (writtenModule true).Stores d.tree values ∧ (writtenModule false).Stores d'.tree values := by
  have hRead : (match reader {} ⟨[], []⟩
        (.text "module M { const long a = b + 1; const long b = 2; };"),
      reader {} ⟨[], []⟩ (.text "module M { const long b = 2; const long a = b + 1; };") with
    | .ok r, .ok r' =>
      r.stream.tokens == (writtenModule true).tokens &&
      r'.stream.tokens == (writtenModule false).tokens &&
      match r.stream.ending, r'.stream.ending,
        read {} ⟨[], []⟩ (.text "module M { const long a = b + 1; const long b = 2; };") with
      | .ok _, .ok _, .ok _ => true
      | _, _, _ => false
    | _, _ => false) = true := by decide +kernel
  have hEvaluate : (match evaluateInOrder ({} : Environment).fold
        [(writtenTwo 34).assigned, (writtenSum 12).assigned] [] with
      | some values => values.map (fun v => (v.1, v.2.display)) == [("a", "3"), ("b", "2")]
      | none => false) = true := by decide +kernel
  have hSorted : Sorted ({} : Environment).fold
      [(writtenTwo 34).assigned, (writtenSum 12).assigned] := by
    have hFirst : Sorted ({} : Environment).fold ([] ++ [(writtenTwo 34).assigned]) :=
      Sorted.nil.snoc nofun
    refine hFirst.snoc fun t ht => ?_
    rw [List.mem_singleton.mp ht]
    exact ⟨_, List.mem_cons_self, rfl⟩
  have hOrder : Topological ({} : Environment).fold (writtenModule true).body
      [(writtenTwo 34).assigned, (writtenSum 12).assigned] := ⟨.swap _ _ _, hSorted⟩
  split at hRead
  · rename_i r r' hReader hReader'
    simp only [Bool.and_eq_true, beq_iff_eq] at hRead
    obtain ⟨⟨hTokens, hTokens'⟩, hRead⟩ := hRead
    split at hRead
    · rename_i g g' d hEnding hEnding' hd
      split at hEvaluate
      · rename_i values hValues
        obtain ⟨-, -, hStores, hArranged⟩ := constants_in_order hReader hEnding hTokens
        have hPerm : (writtenModule false).body.Perm (writtenModule true).body := .swap _ _ _
        obtain ⟨hBoth, -⟩ :=
          hArranged (writtenModule false) _ _ r' g' hPerm hReader' hEnding' hTokens'
        obtain ⟨d', hd'⟩ := hBoth.mpr ⟨d, hd⟩
        obtain ⟨-, -, hStores', -⟩ := constants_in_order hReader' hEnding' hTokens'
        exact ⟨r, r', d, d', values, hReader, hTokens, hReader', hTokens', hd, hd',
          beq_iff_eq.mp hEvaluate, hStores d hd _ values hOrder hValues,
          hStores' d' hd' _ values (hOrder.congr hPerm.symm) hValues⟩
      · cases hEvaluate
    · cases hRead
  · cases hRead

end Document

end IdlReader
