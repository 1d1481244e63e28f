import IdlReader.Proofs.Grammar.Operand
import IdlReader.Proofs.Stage.Conformance
import IdlReader.Proofs.Tree.TypeName

/-!
# Constants that stand beside each other

A name in the assignment of a constant may stand for a constant beside it. If that one was read
when the assignment was evaluated, then the value that it holds in the end may be written for its
name (`Parsing.substitute`), and the evaluation gives the same.

* `WellFormed.find_sibling_iff`: the name of a sibling leads to it.
* `replaysOperands_substitute`: evaluation with known operands.
* `Evaluated.substituted`: the evaluation of a constant.
-/

namespace IdlReader

open IdlReader.Tree

namespace Tree

variable {t : Tree} {p x : EntityId} {name : String}

theorem IsSegment.of_isName (h : IsName name) : IsSegment name :=
  ⟨h.ne_nil, congrArg Prod.snd (splitSegment_word h.isWord).1⟩

/-- In the scope of an entity the name of a declaration there leads to it. -/
theorem WellFormed.find_sibling_iff (h : t.WellFormed) (hName : IsName name) (hNamed : t.Named x)
    (hKind : isDeclarationName (t.get x).kind = true) (hParent : (t.get x).parent = some p) :
    t.find p name true = some x ↔ t.key name = t.key (t.get x).name := by
  have hDeclaration : (t.get x).kind.isDeclaration = true := by
    unfold isDeclarationName at hKind
    exact (Bool.and_eq_true _ _ ▸ hKind).2
  have hFound : t.Found x := ⟨hNamed, Or.inr hDeclaration⟩
  rw [find_segment (.of_isName hName)]
  constructor
  · intro hFind
    obtain ⟨s, hs, hGet⟩ := List.exists_of_findSome?_eq_some hFind
    obtain ⟨owner, -, hs⟩ := List.mem_flatMap.mp hs
    obtain ⟨i, hi⟩ := mem_scopesWithin hs
    obtain ⟨d, hGet⟩ := lookup?_eq_some hGet
    exact (h.entry s d _ x (h.scope_lt i s (lt_size_of_scope hi) hi) hGet).2.2.2.1
  · intro hKey
    obtain ⟨q, hq, hLt, -, hSupports, -⟩ := h.parent x (h.toFramed.ne_root_of_parent hParent) hNamed.1
    rw [hParent] at hq
    cases hq
    have hHasScope := h.hasScope p (Nat.lt_trans hLt hNamed.1)
    rw [hSupports] at hHasScope
    obtain ⟨s, hs⟩ := Option.isSome_iff_exists.mp hHasScope
    obtain ⟨y, hy, -, hSame⟩ :=
      h.get?_full hFound (h.forward_of_isDeclarationName hNamed.1 hKind) hParent hs
    have hEq : y = x := by
      refine hSame.resolve_right fun hModule => ?_
      rw [hModule.1] at hDeclaration
      cases hDeclaration
    rw [hKind, ← hKey, hEq] at hy
    have hLookup : (t.scope s).lookup? false (t.key name) = some x := by
      have hDeclarations : (t.scope s).declarations.lookup (t.key name) = some x := hy
      unfold Scope.lookup?
      rw [if_neg (by decide), hDeclarations]
      rfl
    unfold searchPath enclosing
    rw [enclosingWithin, List.flatMap_cons, List.findSome?_append, scopesWithin, hs]
    dsimp only
    rw [List.findSome?_cons, hLookup]
    rfl

end Tree

theorem ValueNode.eq_ofConstant {v : ValueNode} {a : Constant} (h : v.constant? = some a) :
    v = .ofConstant a := by
  unfold ValueNode.constant? at h
  split at h
  · cases h
    rfl
  · cases h

namespace Parsing

instance (rest : List Token) : Decidable (Closes rest) :=
  inferInstanceAs (Decidable (∀ t ∈ rest.head?, _ ∧ _ ∧ ¬ (_ ∧ _)))

/-- Finds the values of operands that are single names among known values. All others are
resolved. -/
def substitute (values : String → Option Constant) (resolve : Expression.Resolver Parsing) :
    Expression.Resolver Parsing := fun index ts =>
  match ts.rest with
  | [] => resolve index ts
  | first :: rest =>
    if first.isIdentifier = true ∧ Closes rest then
      match values first.text with
      | some a => return (.known a, ts.advance)
      | none => resolve index ts
    else resolve index ts

variable {u : Session} {scope x : EntityId} {a : Constant} {d : Declaration}

/-- A name that stands for a constant has its value. -/
theorem operandOf_const {place : Position} {name : String} {rest : Expression.Tokens}
    {r : Evaluated × Expression.Tokens} {u' : Session} (hKind : (u.tree.get x).kind = .const)
    (hd : (u.tree.get x).declaration? = some d) (hValue : u.tree.Finished x → d.value = .ofConstant a)
    (hRun : operandOf consult place name x rest u = .ok r u') : r = (.known a, rest) := by
  have hGives : Gives u (operandOf consult place name x rest) fun r => r = (.known a, rest) := by
    unfold operandOf operandValue
    rw [bind_assoc]
    refine Gives.entity ?_
    rw [hKind]
    dsimp only
    rw [if_neg (by decide), bind_assoc]
    refine Gives.bind (P := fun _ => u.tree.Finished x) ?_ fun _ hFinished => ?_
    · exact fun b u₁ hAt => consult_eq_ok (orAt_eq_ok.mp hAt)
    · rw [bind_assoc]
      refine Gives.tree ?_
      rw [hd]
      simp only [Option.bind_some, ValueNode.navigate?, hValue hFinished]
      exact Gives.bind (P := fun v => v = .known a) (.pure rfl) fun v hv => .pure (by rw [hv])
  exact (hGives r u' hRun).2

/-- Known operands can be substituted if the names lead to constants with these values. -/
theorem replaysOperands_substitute {values : String → Option Constant}
    (h : ∀ name a, values name = some a → IsName name ∧ ∃ x d,
      u.tree.find scope name true = some x ∧ (u.tree.get x).kind = .const ∧
        (u.tree.get x).declaration? = some d ∧ (u.tree.Finished x → d.value = .ofConstant a)) :
    ReplaysOperands Eq u (resolver consult scope) (substitute values (resolver consult scope)) := by
  intro index index' hIndex ts s r s' hRun
  obtain ⟨hSession, hTree, hReplay⟩ :=
    replaysOperands_resolver asks_consult consult_idle scope index index' hIndex ts s r s' hRun
  refine ⟨hSession, hTree, fun hRefines => ?_⟩
  have hRun := hReplay hRefines
  obtain ⟨tokens, last⟩ := ts
  cases tokens with
  | nil => exact hRun
  | cons first rest =>
    dsimp only [substitute]
    by_cases hSingle : first.isIdentifier = true ∧ Closes rest
    · rw [if_pos hSingle]
      cases hValue : values first.text with
      | none => exact hRun
      | some a =>
        obtain ⟨hName, x, d, hFind, hKind, hd, hHolds⟩ := h first.text a hValue
        have hLast := getLast?_append_name hName ""
        rw [String.empty_append] at hLast
        have hOperand : resolver consult scope index' ⟨first :: rest, last⟩ u =
            operandOf consult first.position first.text x ⟨rest, last⟩ u :=
          resolver_of_name hSingle.2 (scopedNameTail_closes hSingle.2.unmarked hLast _) hFind
        rw [operandOf_const hKind hd hHolds (hOperand.symm.trans hRun)]
        rfl
    · rw [if_neg hSingle]
      exact hRun

/-- A constant of a scalar type has the value of its expression. -/
theorem scalarValue_eq_ok {type : DeclaredType} {first : Token} {tokens : List Token}
    {v : ValueNode} {u' : Session} (h : scalarValue consult scope type true first tokens u = .ok v u') :
    ∃ w k b, evaluateIn consult scope tokens u = .ok (.known w) u ∧ type.kind? = some k ∧
      w.cast k = .ok b ∧ v = .ofConstant b := by
  unfold scalarValue at h
  obtain ⟨w, u₁, hw, hRest⟩ := bind_eq_ok.mp h
  have hIdle : u₁ = u := (gives_evaluateIn scope tokens w u₁ hw).1
  rw [hIdle] at hw hRest
  cases w with
  | dynamic => cases hRest
  | known w =>
    dsimp only at hRest
    cases hKind : type.kind? with
    | none =>
      rw [hKind] at hRest
      cases hRest
    | some k =>
      rw [hKind] at hRest
      obtain ⟨b, u₂, hb, hLast⟩ := bind_eq_ok.mp hRest
      have hCast := (Gives.orFailAt _ _ b u₂ hb).2
      cases hLast
      exact ⟨w, k, b, hw, rfl, hCast, rfl⟩

end Parsing

namespace Stage

variable {σ : Stage} {t : Tree} {c p : EntityId} {d : Declaration}

/-- The name of a sibling leads to it from when it was read on. -/
theorem Evaluated.find_sibling_iff (h : Evaluated t c σ) {name : String} {x : EntityId}
    (hName : IsName name) (hParent : (t.get x).parent = some p)
    (hKind : (t.get x).kind = .const) (hFind : t.find p name true = some x) :
    σ.tree.find p name true = some x ↔ x < σ.tree.size := by
  have hWellFormed := wellFormed_of_reachable h.sound.reachable
  refine ⟨fun hFound => (hWellFormed.findWithin_found hFound).1.1, fun hLt => ?_⟩
  have hWellFormed' := wellFormed_of_reachable (h.sound.reachable.steps h.steps)
  have hExtends := h.steps.extends h.sound.reachable.size_pos
  have hSame := hExtends.kind x hLt
  have hPlace := (hExtends.parent x hLt).symm.trans hParent
  have hNamed : σ.tree.Named x :=
    ⟨hLt, h.sound.calm x (hWellFormed.toFramed.ne_root_of_parent hPlace) hLt⟩
  have hDeclared : isDeclarationName (t.get x).kind = true := by
    rw [hKind]
    rfl
  rw [hWellFormed.find_sibling_iff hName hNamed (hSame ▸ hDeclared) hPlace]
  rw [hWellFormed'.find_sibling_iff hName (hExtends.named hNamed) hDeclared hParent,
    (hExtends.settled x hLt (Or.inr hNamed.2)).1] at hFind
  have hKey := key_eq_of_caseSensitive hExtends.caseSensitive
  rw [hKey, hKey] at hFind
  exact hFind

/-- The evaluation of a constant of a scalar type gives the same if the values of siblings that
were read before are written for their names. -/
theorem Evaluated.substituted (h : Evaluated t c σ) (hd : (t.get c).declaration? = some d)
    (hKind : (t.get c).kind = .const) (hDimensions : d.dimensions = [])
    (hScalar : Parsing.compoundDefinition? t d.type = none) (hAssigned : d.assignment ≠ [])
    (hParent : (t.get c).parent = some p) {values : String → Option Constant}
    (hValues : ∀ name a, values name = some a → IsName name ∧ ∃ x e,
      t.find p name true = some x ∧ (t.get x).parent = some p ∧ (t.get x).kind = .const ∧
        (t.get x).declaration? = some e ∧ e.value = .ofConstant a ∧ x < σ.tree.size)
    {u : Session} (hu : u.tree = σ.tree) :
    ∃ w k b, Expression.evaluate (Parsing.substitute values (Parsing.resolver Parsing.consult p))
        d.assignment u = .ok (.known w) u ∧
      d.type.kind? = some k ∧ w.cast k = .ok b ∧ d.value = .ofConstant b := by
  obtain ⟨first, rest, hAssignment⟩ := List.exists_cons_of_ne_nil hAssigned
  have hRefines : Refines σ.tree u.tree := hu ▸ Refines.refl _
  have hValue := h.scalarValue hd hKind hDimensions hScalar hAssignment hRefines
  rw [hParent] at hValue
  obtain ⟨w, k, b, hRun, hRest⟩ := Parsing.scalarValue_eq_ok hValue
  refine ⟨w, k, b, ?_, hRest⟩
  refine (Parsing.replays_evaluate (Parsing.replaysOperands_substitute ?_) d.assignment u _ u
    hRun).2.2 (Refines.refl u.tree)
  intro name a hSome
  obtain ⟨hName, x, e, hFind, hPlace, hConst, he, hHolds, hLt⟩ := hValues name a hSome
  have hSome := h.sound.reachable.isDeclaration hLt
  have hSame := (h.steps.extends h.sound.reachable.size_pos).kind x hLt
  rw [← hSame, hConst] at hSome
  obtain ⟨e₀, he₀⟩ := Option.isSome_iff_exists.mp hSome
  have hFound := (h.find_sibling_iff hName hPlace hConst hFind).mpr hLt
  rw [hu]
  refine ⟨hName, x, e₀, hFound, hSame ▸ hConst, he₀, ?_⟩
  intro hFinished
  have hKept := h.after.kept he₀ (hFinished e₀ he₀)
  rw [he] at hKept
  cases hKept
  exact hHolds

end Stage

end IdlReader
