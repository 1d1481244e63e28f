import IdlReader.Proofs.Document.Reachable
import IdlReader.Proofs.Grammar.Evaluation
import IdlReader.Proofs.Grammar.OperandPath
import IdlReader.Proofs.Stage.Sibling
import IdlReader.Proofs.Tree.MemberPath

/-!
# Paths in expressions and in queries

A path that may be written as an operand stands for the same in an expression and in a query: the
operand has the scalar that the path leads to, and fails if there is none. A query also takes words
that no operand may have: a declaration may have a keyword for its name, which a query finds behind a
mark.

* `operandValue_done`: the operand of a declaration that was evaluated.
* `operand_values`: paths in documents.
* `operand_values_keyword`: a path that is no operand.
-/

namespace IdlReader

open IdlReader.Tree Parsing

namespace Parsing

variable {u : Session} {id : EntityId} {e : Declaration}

/-- What was evaluated is not evaluated again. -/
theorem evaluateDeclaration_done (he : (u.tree.get id).declaration? = some e)
    (hDone : e.progress = .done) : evaluateDeclaration id u = .ok () u := by
  have hEntity : ∀ {α : Type} (f : Entity → Parsing α), (entity id >>= f) u = f (u.tree.get id) u :=
    fun f => rfl
  change evaluateWithin (u.tree.size + 1) id u = _
  rw [evaluateWithin, hEntity, he]
  dsimp only
  rw [hDone]
  rfl

/-- An operand that stands for an evaluated constant has the scalar that its accessors lead to. -/
theorem operandValue_done (he : (u.tree.get id).declaration? = some e) (hDone : e.progress = .done)
    (hKind : (u.tree.get id).kind = .const ∨ (u.tree.get id).kind = .enumEntry) (place : Position)
    (name : String) (as : List Accessor) :
    (∀ v, e.value.navigate? u.tree.caseSensitive as = some (.simple v) →
      operandValue evaluateDeclaration place name id as false u = .ok v u) ∧
    (∀ w, e.value.navigate? u.tree.caseSensitive as = some w → (∀ v, w ≠ .simple v) →
      operandValue evaluateDeclaration place name id as false u =
        .error ((Fault.of (.valueUnusable name)).placed place) u) ∧
    (e.value.navigate? u.tree.caseSensitive as = none →
      operandValue evaluateDeclaration place name id as false u =
        .error ((Fault.of (.undefinedName name)).placed place) u) := by
  have hEntity : ∀ {α : Type} (f : Entity → Parsing α), (entity id >>= f) u = f (u.tree.get id) u :=
    fun f => rfl
  have hAt : ∀ {α : Type} (f : Unit → Parsing α),
      (orAt place (evaluateDeclaration id) >>= f) u = f () u := by
    intro α f
    have hRun : orAt place (evaluateDeclaration id) u = .ok () u := by
      change (tryCatchThe Fault (evaluateDeclaration id) _) u = _
      unfold tryCatchThe
      change EStateM.tryCatch _ _ u = _
      unfold EStateM.tryCatch
      rw [evaluateDeclaration_done he hDone]
    change EStateM.bind _ f u = _
    unfold EStateM.bind
    rw [hRun]
  have hTree : ∀ {α : Type} (f : Tree → Parsing α), (tree >>= f) u = f u.tree u := fun f => rfl
  refine ⟨fun v hPart => ?_, fun w hPart hNot => ?_, fun hPart => ?_⟩
  · unfold operandValue
    rw [hEntity]
    rcases hKind with hKind | hKind <;>
    · simp only [hKind, Bool.false_eq_true, if_false, hAt, hTree, he, Option.bind_some, hPart]
      rfl
  · unfold operandValue
    rw [hEntity]
    cases w with
    | simple v => exact absurd rfl (hNot v)
    | _ =>
      rcases hKind with hKind | hKind <;>
      · simp only [hKind, Bool.false_eq_true, if_false, hAt, hTree, he, Option.bind_some, hPart]
        rfl
  · unfold operandValue
    rw [hEntity]
    rcases hKind with hKind | hKind <;>
    · simp only [hKind, Bool.false_eq_true, if_false, hAt, hTree, he, Option.bind_some, hPart]
      rfl

end Parsing

namespace OperandPath

variable {l : Lexicon}

/-- The name of a path ends where its accessors start. -/
theorem not_endsName_name (p : OperandPath l) : ∀ c ∈ p.name.toList, Accessor.endsName c = false := by
  intro c hc
  unfold name at hc
  rw [String.toList_append] at hc
  rcases List.mem_append.mp hc with hMark | hJoined
  · have hColon : c = ':' := by
      cases hAbsolute : p.absolute with
      | true => simpa [hAbsolute] using hMark
      | false => simp [hAbsolute] at hMark
    rw [hColon]
    rfl
  · exact not_endsName_join p.isName c hJoined

/-- A query for a path looks its name up and goes on with its accessors. -/
theorem findValue_text (p : OperandPath l) (t : Tree) (start : EntityId) :
    t.findValue start p.text = (t.find start p.name true).bind fun id =>
      (t.get id).declaration?.bind fun d => d.value.navigate? t.caseSensitive p.accessors :=
  findValue_path p.not_endsName_name fun a ha => (p.spoken a ha).writable

end OperandPath

namespace Document

/-- **Paths.** Let the name of a path lead to a constant or an entry of an enumeration, and the path
be one that may be written as an operand. Then its text splits into tokens that are an operand, all
of them. The operand has the scalar that a query for the path finds; it fails with a cause of
constants if the query finds a value that is no scalar, and with one of names that stand for nothing
if it finds none. -/
theorem operand_values {env : Environment} {files : FileTree} {input : Input} {d : Document}
    (h : read env files input = .ok d) (p : OperandPath env.lexicon) {scope id : EntityId}
    (hFind : d.tree.find scope p.name true = some id)
    (hKind : (d.tree.get id).kind = .const ∨ (d.tree.get id).kind = .enumEntry)
    (directives : Bool) (source : SourceId) :
    ∃ ts, tokenize env.lexicon directives source p.text.toList = .ok ts ∧
      ∀ (u : Session) (last : Position) (n : Nat), u.tree = d.tree →
        (∀ a, Expression.operand (resolver evaluateDeclaration scope) (n + 3) ⟨ts, last⟩ u =
            .ok (.known a, ⟨[], last⟩) u ↔
          d.tree.findValue scope p.text = some (.simple (.known a))) ∧
        (Expression.operand (resolver evaluateDeclaration scope) (n + 3) ⟨ts, last⟩ u =
            .ok (.dynamic, ⟨[], last⟩) u ↔
          d.tree.findValue scope p.text = some (.simple .dynamic)) ∧
        ((∃ f, Expression.operand (resolver evaluateDeclaration scope) (n + 3) ⟨ts, last⟩ u =
            .error f u ∧ f.cause.category = .constant) ↔
          ∃ w, d.tree.findValue scope p.text = some w ∧ ∀ v, w ≠ .simple v) ∧
        ((∃ f, Expression.operand (resolver evaluateDeclaration scope) (n + 3) ⟨ts, last⟩ u =
            .error f u ∧ f.cause.category = .resolution) ↔
          d.tree.findValue scope p.text = none) := by
  have hReachable := reachable_of_read h
  obtain ⟨ts, hTokens, hSpelling⟩ := tokenize_of_scans p.scans directives source
  refine ⟨ts, hTokens, fun u last n hu => ?_⟩
  have hLt : id < d.tree.size :=
    ((wellFormed_of_reachable hReachable).findWithin_found hFind).1.1
  have hSome : (d.tree.get id).declaration?.isSome = true := by
    rw [hReachable.isDeclaration hLt]
    rcases hKind with hKind | hKind <;> rw [hKind] <;> rfl
  obtain ⟨e, he⟩ := Option.isSome_iff_exists.mp hSome
  have hDone := ((Stage.sound_start _).advances (stages_of_read h)).finished id e he
  obtain ⟨place, hOperand⟩ := operand_path evaluateDeclaration scope n last p hSpelling
  have hQuery : d.tree.findValue scope p.text =
      e.value.navigate? d.tree.caseSensitive p.accessors := by
    rw [p.findValue_text, hFind, Option.bind_some, he, Option.bind_some]
  rw [← hu] at he hKind hFind hQuery
  obtain ⟨hScalar, hOther, hNone⟩ :=
    operandValue_done he hDone hKind place p.name p.accessors
  have hRead : Expression.operand (resolver evaluateDeclaration scope) (n + 3) ⟨ts, last⟩ u =
      (operandValue evaluateDeclaration place p.name id p.accessors false >>= fun v =>
        pure (v, ⟨[], last⟩)) u := by
    rw [hOperand]
    have hTree : ∀ {α : Type} (f : Tree → Parsing α), (Parsing.tree >>= f) u = f u.tree u :=
      fun f => rfl
    unfold readOperand
    rw [hTree, hFind]
  have hOk : ∀ v, operandValue evaluateDeclaration place p.name id p.accessors false u = .ok v u →
      Expression.operand (resolver evaluateDeclaration scope) (n + 3) ⟨ts, last⟩ u =
        .ok (v, ⟨[], last⟩) u := by
    intro v hv
    rw [hRead]
    exact Parsing.bind_eq_ok.mpr ⟨v, u, hv, rfl⟩
  have hError : ∀ f, operandValue evaluateDeclaration place p.name id p.accessors false u =
      .error f u → Expression.operand (resolver evaluateDeclaration scope) (n + 3) ⟨ts, last⟩ u =
        .error f u := by
    intro f hf
    rw [hRead]
    change EStateM.bind _ _ u = _
    unfold EStateM.bind
    rw [hf]
  rw [← hu, hQuery]
  cases hValue : e.value.navigate? u.tree.caseSensitive p.accessors with
  | none =>
    rw [hError _ (hNone hValue)]
    refine ⟨fun a => ⟨nofun, nofun⟩, ⟨nofun, nofun⟩, ⟨?_, ?_⟩, ⟨fun _ => rfl, fun _ => ⟨_, rfl, rfl⟩⟩⟩
    · rintro ⟨_, ⟨⟩, hCategory⟩
      cases hCategory
    · rintro ⟨w, hw, -⟩
      cases hw
  | some w =>
    by_cases hSimple : ∃ v, w = .simple v
    · obtain ⟨v, rfl⟩ := hSimple
      rw [hOk v (hScalar v hValue)]
      refine ⟨fun a => ⟨?_, ?_⟩, ⟨?_, ?_⟩, ⟨?_, ?_⟩, ⟨?_, nofun⟩⟩
      · rintro ⟨⟩
        rfl
      · rintro ⟨⟩
        rfl
      · rintro ⟨⟩
        rfl
      · rintro ⟨⟩
        rfl
      · rintro ⟨f, hf, -⟩
        cases hf
      · rintro ⟨_, ⟨⟩, hNot⟩
        exact absurd rfl (hNot v)
      · rintro ⟨f, hf, -⟩
        cases hf
    · have hNot : ∀ v, w ≠ .simple v := fun v hv => hSimple ⟨v, hv⟩
      rw [hError _ (hOther w hValue hNot)]
      refine ⟨fun a => ⟨nofun, ?_⟩, ⟨nofun, ?_⟩, ⟨fun _ => ⟨w, rfl, hNot⟩, fun _ => ⟨_, rfl, rfl⟩⟩,
        ⟨?_, nofun⟩⟩
      · rintro ⟨⟩
        exact absurd rfl (hNot _)
      · rintro ⟨⟩
        exact absurd rfl (hNot _)
      · rintro ⟨_, ⟨⟩, hCategory⟩
        cases hCategory

/-- The path `M::V[1].a`. -/
def elementPath : OperandPath (Environment.lexicon {}) where
  absolute := false
  first := "M"
  rest := ["V"]
  accessors := [.index 1, .member "a"]
  isName := by decide
  first_kind := by decide
  rest_kind := by decide
  spoken := by decide

/-- In this document the path leads to a member of an element, in an expression as in a query. -/
theorem operand_values_element :
    ∃ d ts a, read {} ⟨[], []⟩ (.text
        "struct S { long a; };\nmodule M { const S V[2] = { {3}, {4} }; };") = .ok d ∧
      tokenize (Environment.lexicon {}) true 0 elementPath.text.toList = .ok ts ∧
      a.display = "4" ∧ d.tree.findValue root elementPath.text = some (.simple (.known a)) ∧
      ∀ (u : Session) (last : Position), u.tree = d.tree →
        Expression.operand (resolver evaluateDeclaration root) 3 ⟨ts, last⟩ u =
          .ok (.known a, ⟨[], last⟩) u := by
  have hRead : (match read {} ⟨[], []⟩ (.text
        "struct S { long a; };\nmodule M { const S V[2] = { {3}, {4} }; };") with
      | .ok d => d.tree.find root elementPath.name true == some 4 && (d.tree.get 4).kind == .const &&
        ((d.tree.findValue root elementPath.text).bind ValueNode.constant?).map Constant.display ==
          some "4"
      | .error _ => false) = true := by decide +kernel
  split at hRead
  · rename_i d hd
    simp only [Bool.and_eq_true, beq_iff_eq] at hRead
    obtain ⟨⟨hFind, hKind⟩, hValue⟩ := hRead
    obtain ⟨ts, hTokens, hOperand⟩ := operand_values hd elementPath hFind (Or.inl hKind) true 0
    obtain ⟨a, ha, hDisplay⟩ := Option.map_eq_some_iff.mp hValue
    obtain ⟨v, hv, hConstant⟩ := Option.bind_eq_some_iff.mp ha
    rw [ValueNode.eq_ofConstant hConstant] at hv
    exact ⟨d, ts, a, hd, hTokens, hDisplay, hv, fun u last hu =>
      ((hOperand u last 0 hu).1 a).mpr hv⟩
  · cases hRead

/-- A query takes a keyword for a name behind a mark, and an operand does not: in this document the
path `M::in` leads to a constant, but its text is no operand. -/
theorem operand_values_keyword :
    ¬ ∀ (env : Environment) (files : FileTree) (input : Input) (d : Document),
      read env files input = .ok d → ∀ (names : List String) (scope id : EntityId),
        (∀ name ∈ names, IsName name) →
        d.tree.find scope ("::".intercalate names) true = some id →
        (d.tree.get id).kind = .const ∨ (d.tree.get id).kind = .enumEntry →
        ∀ a, d.tree.findValue scope ("::".intercalate names) = some (.simple (.known a)) →
        ∃ ts, tokenize env.lexicon true 0 ("::".intercalate names).toList = .ok ts ∧
          ∀ (u : Session) (last : Position) (n : Nat), u.tree = d.tree →
            Expression.operand (resolver evaluateDeclaration scope) (n + 3) ⟨ts, last⟩ u =
              .ok (.known a, ⟨[], last⟩) u := by
  intro hClaim
  have hRead : (read {} ⟨[], []⟩ (.text "module M { const long in = 1; };")).toOption.any
      (fun d => d.tree.find root "M::in" true == some 2 && (d.tree.get 2).kind == .const &&
        ((d.tree.findValue root "M::in").bind ValueNode.constant?).isSome &&
        (tokenize (Environment.lexicon {}) true 0 "M::in".toList).toOption.any fun ts =>
          (EStateM.run' (Expression.operand (resolver evaluateDeclaration root) 3 ⟨ts, ⟨0, 0⟩⟩)
            (sessionOf d.tree)).isNone) = true := by decide +kernel
  obtain ⟨d, hd, hRead⟩ := any_toOption hRead
  simp only [Bool.and_eq_true, beq_iff_eq] at hRead
  obtain ⟨⟨⟨hFind, hKind⟩, hValue⟩, hRead⟩ := hRead
  obtain ⟨a, ha⟩ := Option.isSome_iff_exists.mp hValue
  obtain ⟨v, hv, hConstant⟩ := Option.bind_eq_some_iff.mp ha
  rw [ValueNode.eq_ofConstant hConstant] at hv
  obtain ⟨ts, hTokens, hOperand⟩ := hClaim _ _ _ d hd ["M", "in"] root 2 (by decide) hFind
    (Or.inl hKind) a hv
  obtain ⟨ts', hTokens', hFails⟩ := any_toOption hRead
  cases hTokens.symm.trans hTokens'
  have hRun := hOperand (sessionOf d.tree) ⟨0, 0⟩ 0 rfl
  rw [Nat.zero_add] at hRun
  delta EStateM.run' EStateM.run at hFails
  rw [hRun] at hFails
  cases hFails

end Document

end IdlReader
