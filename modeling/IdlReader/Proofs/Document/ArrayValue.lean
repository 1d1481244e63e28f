import IdlReader.Proofs.Document.Constants
import IdlReader.Proofs.Grammar.Initializer
import IdlReader.Proofs.Grammar.ReadConstant
import IdlReader.Proofs.Source.Delivery
import IdlReader.Proofs.Stage.Part
import IdlReader.Proofs.Tree.MemberPath

/-!
# Documents of an array of constants

A document that is a constant with dimensions is read if the environment allows that many dimensions
and no list of the initializer has more elements than it may. Then the constant has the nested array
as its value, and indices lead to the elements.

* `ends_evaluateArray`: the evaluation of the constant.
* `ends_readRoot_array`: everything that is read.
* `array_values`: when such a document is read, and what its paths lead to.
-/

namespace IdlReader

open IdlReader.Tree

namespace WrittenArray

variable {env : Environment} (a : WrittenArray env)

/-- What is known about the constant when it was evaluated. -/
def evaluated : Declaration :=
  a.statement.declaration.finished (a.sizes.map fun w => some w.size) a.value []

/-- Whether the statement is read and evaluated. -/
def Accepted : Prop := a.statement.Allowed ∧ a.Fits

end WrittenArray

namespace Parsing

variable {env : Environment} {a : WrittenArray env} {s : Session} {ts : List Token} {id : EntityId}

/-- A constant that stands outside of modules. -/
abbrev Alone (a : WrittenArray env) (id : EntityId) (d : Declaration) (t : Tree) : Prop :=
  t.Outside (env.enables .caseSensitiveNames) ⟨id, a.name.text, d⟩

/-- A constant with dimensions is evaluated exactly if no list has more elements than it may. -/
theorem ends_evaluateArray (h : s.Awaits env ts (Alone a id a.statement.declaration)) :
    Ends (evaluateDeclaration id) s (fun _ s' => a.Fits ∧ s'.Awaits env ts (Alone a id a.evaluated))
      fun _ => ¬ a.Fits := by
  have hAccepts := Outside.accepts (env.enables .caseSensitiveNames) a.name.text
  have hStands := h.tree.stands _ List.mem_cons_self
  have hModify : ∀ {s : Session} {d : Declaration} (f : Declaration → Declaration),
      s.Awaits env ts (Alone a id d) → Ends (modifyDeclaration id f) s
        (fun _ s' => s'.Awaits env ts (Alone a id (f d))) fun _ => ¬ a.Fits :=
    fun {_ d} f h => ends_modifyEntity h fun hTree => hAccepts.modify id d _ hTree f
  have hDeclaration : (s.tree.get id).declaration? = some a.statement.declaration :=
    hStands.declaration
  have hParent : (s.tree.get id).parent = some root := hStands.parent
  have hKind : (s.tree.get id).kind = .const := hStands.kind
  unfold evaluateDeclaration
  refine Ends.tree ?_
  unfold evaluateWithin
  refine Ends.entity ?_
  rw [hDeclaration, hParent, hKind]
  dsimp only [Option.getD_some]
  refine (hModify Declaration.started h).bind fun _ s₁ h₁ => ?_
  have hSizes : a.statement.declaration.dimensions = a.sizes.map fun w => w.tokens := rfl
  rw [hSizes, mapM_arraySize, pure_bind]
  have hType : a.statement.declaration.type.kind? = some (.integer a.kind) := a.hKind
  have hValue : Ends (buildValue (evaluateWithin s.tree.size) root true (a.assignment.length + 1)
      a.statement.declaredType (a.sizes.map fun w => some w.size) a.assignment) s₁
      (fun w s' => s' = s₁ ∧ a.Fits ∧ w = a.value) fun _ => ¬ a.Fits := by
    have hBuild : Ends (buildValue (evaluateWithin s.tree.size) root true (a.assignment.length + 1)
        a.statement.declaredType ((a.sizes.map WrittenSize.size).map some) a.assignment) s₁
        (fun w s' => s' = s₁ ∧ a.Fits ∧ w = a.value) fun _ => ¬ a.Fits :=
      ends_buildValue hType rfl a.hElements (Nat.lt_succ_self _)
    rw [List.map_map] at hBuild
    exact hBuild
  unfold declaredValue
  dsimp only
  simp only [bind_assoc, pure_bind]
  refine hValue.bind ?_
  rintro w s₂ ⟨rfl, hFits, rfl⟩
  refine (hModify (Declaration.finished (a.sizes.map fun w => some w.size) a.value []) h₁).mono ?_
  exact fun _ _ h₂ => ⟨hFits, h₂⟩

/-- The constant is the only member that is evaluated. -/
theorem ends_evaluateMembers_array (h : s.Awaits env ts (Alone a id a.statement.declaration)) :
    Ends (evaluateMembers root) s
      (fun _ s' => a.Fits ∧ s'.Awaits env ts (Alone a id a.evaluated)) fun _ => ¬ a.Fits := by
  have hKinds : ∀ {s : Session} {d : Declaration} (kinds : List EntityKind),
      s.Awaits env ts (Alone a id d) → Ends (childrenOfKinds kinds [id]) s
        (fun ids s' => s' = s ∧ ids = if kinds.contains .const then [id] else [])
        fun _ => ¬ a.Fits := by
    intro s d kinds h
    have hKind : (s.tree.get id).kind = .const := (h.tree.stands _ List.mem_cons_self).kind
    unfold childrenOfKinds
    refine Ends.tree (Ends.pure ⟨rfl, ?_⟩)
    rw [List.filter_cons, hKind]
    rfl
  have hChildren : (s.tree.get root).children = [id] := h.tree.children
  unfold evaluateMembers
  refine Ends.entity ?_
  rw [hChildren]
  refine (hKinds _ h).bind ?_
  rintro types s₁ ⟨hSame, rfl⟩
  rw [if_neg (by decide), List.forM, pure_bind]
  subst hSame
  refine (hKinds _ h).bind ?_
  rintro consts s₁ ⟨hSame, rfl⟩
  rw [if_pos (by decide)]
  subst hSame
  have hOne : [id].forM evaluateDeclaration = evaluateDeclaration id := by
    simp [List.forM]
  rw [hOne]
  refine (ends_evaluateArray h).bind ?_
  rintro _ s₂ ⟨hFits, h₂⟩
  refine (hKinds _ h₂).bind ?_
  rintro operations s₃ ⟨hSame, rfl⟩
  rw [if_neg (by decide), List.forM, pure_bind]
  subst hSame
  refine (hKinds _ h₂).bind ?_
  rintro fields s₃ ⟨hSame, rfl⟩
  rw [if_neg (by decide), List.forM]
  subst hSame
  exact Ends.pure ⟨hFits, h₂⟩

/-- All of the statement of a constant with dimensions is read and evaluated, or it is not accepted. -/
theorem ends_readRoot_array
    (h : s.Awaits env a.tokens fun t => t.Blank (env.enables .caseSensitiveNames) #[{}]) :
    Ends readRoot s (fun _ s' => a.Accepted ∧ ∃ id, Alone a id a.evaluated s'.tree)
      fun _ => ¬ a.Accepted := by
  have hKeyword : a.keyword.is "\x7d" = false := Token.not_is_of_is a.hKeyword (by decide)
  have hFinish : a.keyword.isFinish = false := Token.not_isFinish_of_is a.hKeyword
  have hTokens : a.tokens = a.statement.tokens ++ [] := (List.append_nil _).symm
  unfold readRoot
  refine Ends.tokensLeft h ?_
  unfold contentWithin
  refine (ends_peek (t := a.keyword) h Blank.lasting rfl).bind ?_
  rintro t s₁ ⟨rfl, h₁⟩
  rw [hFinish, hKeyword]
  rw [hTokens] at h₁
  refine (ends_readConstant a.statement (fun _ hNot hAll => hNot hAll.1)
    (Outside.accepts _ a.name.text) h₁).bind ?_
  rintro _ s₂ ⟨hAllowed, id, h₂⟩
  unfold contentWithin
  refine (ends_peek_finish h₂ Outside.lasting).bind ?_
  rintro u s₃ ⟨hEnd, h₃⟩
  rw [hEnd, if_pos rfl]
  refine ((ends_evaluateMembers_array h₃).faults fun _ hNot hAll => hNot hAll.2).mono ?_
  rintro _ s₄ ⟨hFits, h₄⟩
  exact ⟨⟨hAllowed, hFits⟩, id, h₄.tree⟩

end Parsing

theorem WrittenSize.lt (w : WrittenSize) : w.size < Nat.pow 2 64 := by
  obtain ⟨v, -, -, hGreatest, hSize⟩ := Constant.castInt_uint64 w.hSize
  change w.size < 2 ^ 64
  split at hSize <;> omega

namespace Document

variable {env : Environment} {a : WrittenArray env} {files : FileTree} {input : Input} {r : Reader}
  {g : Gathered}

/-- A document of an array of constants is read and evaluated, or it is not accepted. -/
theorem outcome_of_array (hReader : reader env files input = .ok r)
    (hEnding : r.stream.ending = .ok g) (hTokens : r.stream.tokens = a.tokens) :
    (∃ d id, read env files input = .ok d ∧ a.Accepted ∧
      Parsing.Alone a id a.evaluated d.tree) ∨
      ∃ f, read env files input = .error f ∧ ¬ a.Accepted := by
  have hAwaits : (session env r.stream).Awaits env a.tokens
      fun t => t.Blank (env.enables .caseSensitiveNames) #[{}] :=
    ⟨rfl, hTokens, a.statement.unfinished, ⟨g, hEnding⟩, Nat.one_pos, blank_initial _⟩
  have hEnds := Parsing.ends_readRoot_array hAwaits
  rw [read_eq_ofStream hReader]
  unfold Parsing.Ends at hEnds
  cases hRun : Parsing.readRoot (session env r.stream) with
  | ok u s =>
    rw [hRun] at hEnds
    obtain ⟨hAccepted, id, hAlone⟩ := hEnds
    exact Or.inl ⟨_, id, ofStream_eq_ok.mpr ⟨s, hRun, rfl⟩, hAccepted, hAlone⟩
  | error f s =>
    rw [hRun] at hEnds
    exact Or.inr ⟨_, ofStream_eq_error.mpr ⟨f, s, hRun, rfl⟩, hEnds⟩

/-- Indices lead to what stands there in the initializer of an array. -/
theorem findValue_array {t : Tree} {id : EntityId} (h : Parsing.Alone a id a.evaluated t)
    (hFits : a.Fits) (hFind : t.find root a.name.text true = some id) (hName : IsName a.name.text)
    {indices : List Nat} (hLength : indices.length = (a.sizes.map WrittenSize.size).length) :
    t.findValue root (a.name.text ++ Accessor.texts (indices.map .index)) =
      (a.elements.at? _ indices).map fun leaf => .ofConstant leaf.value := by
  have hPlain : ∀ c ∈ a.name.text.toList, Accessor.endsName c = false := fun c hc =>
    Bool.not_eq_true' _ ▸ Accessor.not_endsName_of_isWord (hName.isWord c hc)
  by_cases hSmall : ∀ i ∈ indices, i < Nat.pow 2 64
  · have hWritable : ∀ b ∈ indices.map Accessor.index, b.Writable := by
      intro b hb
      obtain ⟨i, hi, rfl⟩ := List.mem_map.mp hb
      exact hSmall i hi
    have hDeclaration : (t.get id).declaration? = some a.evaluated :=
      (h.stands _ List.mem_cons_self).declaration
    rw [findValue_path hPlain hWritable, hFind, Option.bind_some, hDeclaration, Option.bind_some]
    exact NestedList.navigate?_node WrittenLeaf.value t.caseSensitive a.elements hLength
  · have hLarge : ∃ i ∈ indices, Nat.pow 2 64 ≤ i := by
      obtain ⟨i, hi⟩ := not_forall.mp hSmall
      obtain ⟨hMem, hNot⟩ := Classical.not_imp.mp hi
      exact ⟨i, hMem, Nat.le_of_not_lt hNot⟩
    have hSizes : ∀ size ∈ a.sizes.map WrittenSize.size, size ≤ Nat.pow 2 64 := by
      intro size hSize
      obtain ⟨w, -, rfl⟩ := List.mem_map.mp hSize
      exact Nat.le_of_lt w.lt
    have hNone := NestedList.at?_eq_none hFits hSizes hLength hLarge
    unfold findValue
    rw [Accessor.readPath?_append hPlain, Accessor.readAll?_indices_eq_none hLarge (Nat.le_refl _),
      hNone]
    rfl

/-- A document that is the statement of an array of constants is read exactly if the environment
allows as many dimensions and each list of the initializer has at most as many elements as its
level allows. Then the constant has the nested array of the cast elements as its value, and a path of
indices leads to the element that stands there, or to nothing if there is none. -/
theorem array_values (hReader : reader env files input = .ok r)
    (hEnding : r.stream.ending = .ok g) (hTokens : r.stream.tokens = a.tokens) :
    ((∃ d, read env files input = .ok d) ↔
      (a.sizes.length ≤ 1 ∨ env.enables .multiDimArray = true) ∧
        a.elements.Fits (a.sizes.map WrittenSize.size)) ∧
    ∀ d, read env files input = .ok d →
      (∃ id e, (d.tree.get root).children = [id] ∧
        d.tree.find root a.name.text true = some id ∧
        (d.tree.get id).declaration? = some e ∧ e.value = a.value) ∧
      ∀ indices : List Nat, indices.length = (a.sizes.map WrittenSize.size).length →
        d.tree.findValue root (a.name.text ++ Accessor.texts (indices.map .index)) =
          (a.elements.at? _ indices).map fun leaf => .ofConstant leaf.value := by
  have hName : IsName a.name.text := by
    refine lexical_reader env files input r hReader a.name ?_ ?_
    · rw [hTokens]
      exact List.mem_cons_of_mem _ (List.mem_append_right _ List.mem_cons_self)
    · unfold Token.isWord
      rcases a.hName with hIdentifier | ⟨hKeyword, -⟩
      · rw [hIdentifier, Bool.true_or]
      · rw [hKeyword, Bool.or_true]
  rcases outcome_of_array hReader hEnding hTokens with
    ⟨d, id, hRead, hAccepted, hAlone⟩ | ⟨f, hRead, hRefused⟩
  · refine ⟨⟨fun _ => hAccepted, fun _ => ⟨d, hRead⟩⟩, fun d' hRead' => ?_⟩
    rw [hRead] at hRead'
    cases hRead'
    have hFind : d.tree.find root a.name.text true = some id :=
      hAlone.find (List.nodup_singleton _) List.mem_cons_self hName rfl
    refine ⟨⟨id, a.evaluated, hAlone.children, hFind, ?_, rfl⟩, fun indices hLength => ?_⟩
    · exact (hAlone.stands _ List.mem_cons_self).declaration
    · exact findValue_array hAlone hAccepted.2 hFind hName hLength
  · refine ⟨⟨?_, fun hAccepted => absurd hAccepted hRefused⟩, ?_⟩
    · rintro ⟨d, hOk⟩
      rw [hRead] at hOk
      cases hOk
    · intro d hOk
      rw [hRead] at hOk
      cases hOk

/-- A digit in a line. -/
def digitAt (text : String) (col : Nat) : Token :=
  inLine (.literal .decInteger) text col (col + 1)

/-- A mark in a line. -/
def markAt (text : String) (col : Nat) : Token := inLine .separator text col (col + 1)

/-- A digit as an expression. -/
def digitExpression (text : String) (col : Nat) (value : Int)
    (h : Constant.ofLiteral (digitAt text col) = .ok (.ofInt .int8 value)) : LiteralExpression where
  tokens := [digitAt text col]
  expression := .literal (digitAt text col)
  constant := .ofInt .int8 value
  hTokens := .literal rfl
  hLiteral := rfl
  hValue := by
    rw [Expression.Tree.value, h]
    rfl

/-- A digit as an element of an array of the type `long`. -/
def digitLeaf (text : String) (col : Nat) (value : Int)
    (h : Constant.ofLiteral (digitAt text col) = .ok (.ofInt .int8 value))
    (hCast : (Constant.ofInt .int8 value).cast (.integer .int32) = .ok (.ofInt .int32 value)) :
    WrittenLeaf .int32 where
  toLiteralExpression := digitExpression text col value h
  value := .ofInt .int32 value
  hCast := hCast

/-- The rows of a matrix. -/
def matrixRows : List (List (WrittenLeaf .int32)) :=
  [[digitLeaf "1" 25 1 rfl rfl, digitLeaf "2" 28 2 rfl rfl], [digitLeaf "3" 34 3 rfl rfl]]

/-- The constant `const long A[2][3] = \x7b \x7b1, 2,\x7d, \x7b3\x7d \x7d;`. -/
def writtenMatrix : WrittenArray {} where
  keyword := inLine .keyword "const" 1 6
  type := [inLine .keyword "long" 7 11]
  typeText := "long"
  base := .long
  kind := .int32
  name := inLine .identifier "A" 12 13
  sizes := [
    { toLiteralExpression := digitExpression "2" 14 2 rfl, opening := markAt "[" 13
      closing := markAt "]" 15, size := 2, hOpening := rfl, hClosing := rfl, hSize := rfl
      hPositive := by decide },
    { toLiteralExpression := digitExpression "3" 17 3 rfl, opening := markAt "[" 16
      closing := markAt "]" 18, size := 3, hOpening := rfl, hClosing := rfl, hSize := rfl
      hPositive := by decide }]
  sign := inLine .operator "=" 20 21
  elements := matrixRows
  assignment := [markAt "\x7b" 22, markAt "\x7b" 24, digitAt "1" 25, markAt "," 26, digitAt "2" 28,
    markAt "," 29, markAt "\x7d" 30, markAt "," 31, markAt "\x7b" 33, digitAt "3" 34,
    markAt "\x7d" 35, markAt "\x7d" 37]
  terminator := markAt ";" 38
  hKeyword := rfl
  hType := .long rfl rfl
  hBase := ofText?_long
  hKind := kind?_long
  hPlain := long_ne_enum
  hName := .inl rfl
  hSeparate := ⟨fun _ => rfl, fun _ => rfl⟩
  hSign := rfl
  hElements := by
    have hDigit : ∀ leaf : WrittenLeaf .int32, WritesNested 0 leaf leaf.tokens := fun _ => rfl
    -- The first row has a comma behind its last element.
    have hFirst : WritesElements (WritesNested 0)
        [digitLeaf "1" 25 1 rfl rfl, digitLeaf "2" 28 2 rfl rfl]
        [digitAt "1" 25, markAt "," 26, digitAt "2" 28, markAt "," 29] :=
      .cons (hDigit _) rfl (.cons (hDigit _) rfl .nil)
    have hSecond : WritesElements (WritesNested 0) [digitLeaf "3" 34 3 rfl rfl] [digitAt "3" 34] :=
      .last (hDigit _)
    have hRows : WritesElements (WritesNested 1) matrixRows [markAt "\x7b" 24, digitAt "1" 25,
        markAt "," 26, digitAt "2" 28, markAt "," 29, markAt "\x7d" 30, markAt "," 31,
        markAt "\x7b" 33, digitAt "3" 34, markAt "\x7d" 35] :=
      .cons (WritesNested.braces rfl rfl hFirst) rfl (.last (WritesNested.braces rfl rfl hSecond))
    exact .braces rfl rfl hRows
  hTerminator := rfl

/-- In the document of a matrix with rows of different lengths, there is a second element in the
first row and none in the second. -/
theorem array_values_matrix :
    ∃ (r : Reader) (d : Document),
      reader {} ⟨[], []⟩ (.text "const long A[2][3] = \x7b \x7b1, 2,\x7d, \x7b3\x7d \x7d;") =
        .ok r ∧
      r.stream.tokens = writtenMatrix.tokens ∧
      read {} ⟨[], []⟩ (.text "const long A[2][3] = \x7b \x7b1, 2,\x7d, \x7b3\x7d \x7d;") =
        .ok d ∧
      d.tree.findValue root "A[0][1]" = some (.ofConstant (.ofInt .int32 2)) ∧
      d.tree.findValue root "A[1][1]" = none := by
  have hRead : (match reader {} ⟨[], []⟩
        (.text "const long A[2][3] = \x7b \x7b1, 2,\x7d, \x7b3\x7d \x7d;") with
      | .ok r => r.stream.tokens == writtenMatrix.tokens && r.stream.ending.toOption.isSome
      | .error _ => false) = true := by decide +kernel
  split at hRead
  · rename_i r hReader
    rw [Bool.and_eq_true, beq_iff_eq] at hRead
    obtain ⟨hTokens, hSome⟩ := hRead
    cases hEnding : r.stream.ending with
    | error f =>
      rw [hEnding] at hSome
      cases hSome
    | ok g =>
      obtain ⟨hAccepted, hValues⟩ := array_values hReader hEnding hTokens
      have hRow : ∀ row ∈ matrixRows, row.length ≤ 3 ∧ ∀ leaf ∈ row, True :=
        List.forall_mem_cons.mpr ⟨⟨by decide, fun _ _ => trivial⟩,
          List.forall_mem_singleton.mpr ⟨by decide, fun _ _ => trivial⟩⟩
      have hFits : writtenMatrix.elements.Fits (writtenMatrix.sizes.map WrittenSize.size) :=
        And.intro (by decide : matrixRows.length ≤ 2) hRow
      obtain ⟨d, hd⟩ := hAccepted.mpr ⟨Or.inr rfl, hFits⟩
      obtain ⟨-, hPaths⟩ := hValues d hd
      exact ⟨r, d, hReader, hTokens, hd, hPaths [0, 1] rfl, hPaths [1, 1] rfl⟩
  · cases hRead

end Document

end IdlReader
