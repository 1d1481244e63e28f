import IdlReader.Proofs.Document.Reachable
import IdlReader.Proofs.Grammar.OperandPath
import IdlReader.Proofs.Stage.Sibling
import IdlReader.Proofs.Tree.TypeName

/-!
# Names in documents

When the scoped name of a declaration in a document leads to it, looked up from the root on or
written in an expression. What the name of a type with one segment leads to in every tree that
reading can build, and what the declaration of a member does to the names of types in the body that
it belongs to.

A constant is evaluated when the definition that it stands in was read, or before, when an
expression in a definition between its siblings refers to it. A name in its assignment that stands
for a sibling in the end does so by then exactly if the sibling was read.

* `scoped_names`, `Tree.type_names`: the exact conditions.
* `scoped_names_shadowed`: a declaration that its scoped name does not lead to.
* `Tree.type_names_hidden`: a member that hides a type.
* `sibling_constants`: the values of siblings in the assignment of a constant.
* `sibling_constants_early`: a constant that does not see a sibling.
-/

/-! ## Names of declarations and types -/

namespace IdlReader.Document

open IdlReader.Tree Parsing

/-- The scoped name of a declaration leads to it exactly if no definition that encloses it
shares its name with a declaration of the same scope. Then an operand that is spelled with
that name stands for the declaration, with the mark of the root in front in every scope, and
without it in the scope of the root, if the lexer takes the words behind marks for identifiers.
An operand with a keyword behind a mark is refused. -/
theorem scoped_names {env : Environment} {files : FileTree} {input : Input} {d : Document}
    (h : read env files input = .ok d) {e : EntityId} (hNamed : d.tree.Named e)
    (hKind : isDeclarationName (d.tree.get e).kind = true) :
    (d.tree.find root (d.tree.scopedName e) false = some e ↔ d.tree.Clear e) ∧
    ∀ (absolute directives : Bool) (source : SourceId),
      (∀ name ∈ d.tree.names e, Lexeme.wordKind env.lexicon name = .identifier ∨
        Lexeme.wordKind env.lexicon name = .keyword) →
      ∃ ts, tokenize env.lexicon directives source
          ((if absolute then "::" else "") ++ d.tree.scopedName e).toList = .ok ts ∧
        ∀ (s : Session) (evaluate : EntityId → Parsing Unit) (scope : EntityId) (n : Nat)
          (rest : List Token) (last : Position), s.tree = d.tree →
          (d.tree.Clear e → absolute = true ∨ scope = root → Closes rest →
            (∀ name ∈ OperandPath.behindMarks absolute (d.tree.names e),
              Lexeme.wordKind env.lexicon name = .identifier) →
            ∃ first ∈ ts.head?,
              Expression.operand (resolver evaluate scope) (n + 1) ⟨ts ++ rest, last⟩ s =
                operandOf evaluate first.position
                  ((if absolute then "::" else "") ++ d.tree.scopedName e) e ⟨rest, last⟩ s) ∧
          ((∃ name ∈ OperandPath.behindMarks absolute (d.tree.names e),
              Lexeme.wordKind env.lexicon name ≠ .identifier) →
            ∃ t ∈ ts, Expression.operand (resolver evaluate scope) (n + 1) ⟨ts ++ rest, last⟩ s =
              failAtToken .identifierExpected t s) := by
  have hWellFormed := wellFormed_of_reachable (reachable_of_read h)
  have hRoot : e ≠ root := by
    rintro rfl
    rw [hWellFormed.rootKind] at hKind
    cases hKind
  have hNames : ∀ name ∈ d.tree.names e, IsName name :=
    fun name => hWellFormed.isName_of_mem_names hNamed
  have hNe : d.tree.names e ≠ [] := hWellFormed.names_ne_nil hNamed hRoot
  have hFind := hWellFormed.find_scopedName_iff hNamed hKind
  refine ⟨hFind, fun absolute directives source hWords => ?_⟩
  rw [scopedName_eq] at hFind ⊢
  obtain ⟨ts, hTokens, hSpelling⟩ := tokenize_of_scans
    (OperandPath.scans_nameTokens absolute hNe hNames hWords) directives source
  refine ⟨ts, hTokens, fun s evaluate scope n rest last hTree => ⟨?_, fun hOther =>
    operand_names_refused hNames hNe hWords hOther hSpelling⟩⟩
  intro hClear hScope hRest hIdentifiers
  refine operand_names hNames hNe hWords hIdentifiers hSpelling hRest ?_
  rw [hTree]
  cases absolute with
  | true =>
    have hWalk := (hWellFormed.walk_names_iff hNamed hKind).mpr hClear
    exact (find_absolute hNames hNe scope true).trans hWalk
  | false =>
    obtain rfl : scope = root := hScope.resolve_left nofun
    have hFound := hFind.mpr hClear
    rw [← hWellFormed.find_root] at hFound
    simpa [OperandPath.nameText] using hFound

/-- The constants of this document are not hidden. The one in the module is referred to as `A::x`. The
name of the other one is a keyword: the constant is referred to as `in`, but not as `::in`. -/
theorem scoped_names_of_module :
    ∃ d ts us vs,
      read {} ⟨[], []⟩ (.text "module A { const long x = 1; };\nconst long in = 2;") = .ok d ∧
      d.tree.find root "A::x" false = some 2 ∧ d.tree.find root "in" false = some 3 ∧
      d.tree.Clear 2 ∧ d.tree.Clear 3 ∧
      tokenize (Environment.lexicon {}) true 0 "A::x".toList = .ok ts ∧
      tokenize (Environment.lexicon {}) true 0 "in".toList = .ok us ∧
      tokenize (Environment.lexicon {}) true 0 "::in".toList = .ok vs ∧
      ∀ (s : Session) (evaluate : EntityId → Parsing Unit) (p : Position), s.tree = d.tree →
        (∃ first ∈ ts.head?, Expression.operand (resolver evaluate root) 1 ⟨ts ++ [], p⟩ s =
          operandOf evaluate first.position "A::x" 2 ⟨[], p⟩ s) ∧
        (∃ first ∈ us.head?, Expression.operand (resolver evaluate root) 1 ⟨us ++ [], p⟩ s =
          operandOf evaluate first.position "in" 3 ⟨[], p⟩ s) ∧
        ∃ t ∈ vs, Expression.operand (resolver evaluate root) 1 ⟨vs ++ [], p⟩ s =
          failAtToken .identifierExpected t s := by
  have hRead : (match read {} ⟨[], []⟩
        (.text "module A { const long x = 1; };\nconst long in = 2;") with
      | .ok d => decide (3 < d.tree.size) && (d.tree.get 2).name != "" &&
          (d.tree.get 3).name != "" && isDeclarationName (d.tree.get 2).kind &&
          isDeclarationName (d.tree.get 3).kind && d.tree.names 2 == ["A", "x"] &&
          d.tree.names 3 == ["in"] && d.tree.find root "A::x" false == some 2 &&
          d.tree.find root "in" false == some 3
      | .error _ => false) = true := by decide +kernel
  split at hRead
  · rename_i d hd
    simp only [Bool.and_eq_true, beq_iff_eq, bne_iff_ne, decide_eq_true_eq] at hRead
    obtain ⟨⟨⟨⟨⟨⟨⟨⟨hLt, hName⟩, hName'⟩, hKind⟩, hKind'⟩, hNames⟩, hNames'⟩, hFind⟩, hFind'⟩ := hRead
    have hScoped : d.tree.scopedName 2 = "A::x" := by
      rw [scopedName_eq, hNames]
      rfl
    have hScoped' : d.tree.scopedName 3 = "in" := by
      rw [scopedName_eq, hNames']
      rfl
    obtain ⟨hIff, hModule⟩ := scoped_names hd ⟨Nat.lt_of_succ_lt hLt, hName⟩ hKind
    obtain ⟨hIff', hKeyword⟩ := scoped_names hd ⟨hLt, hName'⟩ hKind'
    have hClear := hIff.mp (by rw [hScoped]; exact hFind)
    have hClear' := hIff'.mp (by rw [hScoped']; exact hFind')
    rw [hNames, hScoped] at hModule
    rw [hNames', hScoped'] at hKeyword
    obtain ⟨ts, hts, hRelative⟩ := hModule false true 0 (by decide)
    obtain ⟨us, hus, hPlain⟩ := hKeyword false true 0 (by decide)
    obtain ⟨vs, hvs, hMarked⟩ := hKeyword true true 0 (by decide)
    simp only [Bool.false_eq_true, if_false, if_true, String.empty_append]
      at hts hus hvs hRelative hPlain
    refine ⟨d, ts, us, vs, hd, hFind, hFind', hClear, hClear', hts, hus, hvs, fun s evaluate p hTree =>
      ⟨?_, ?_, ?_⟩⟩
    · exact (hRelative s evaluate root 0 [] p hTree).1 hClear (.inr rfl) nofun (by decide)
    · exact (hPlain s evaluate root 0 [] p hTree).1 hClear' (.inr rfl) nofun nofun
    · have hNot : Lexeme.wordKind (Environment.lexicon {}) "in" ≠ .identifier := by decide
      exact (hMarked s evaluate root 0 [] p hTree).2 ⟨"in", List.mem_cons_self, hNot⟩
  · cases hRead

/-- A declaration may hide a definition: the scoped name of the constant in this module leads
to nothing, since `A` is taken for the constant behind the module. And a name that leads to a
constant may be no operand: in another document `M::in` does, but `in` is a keyword. -/
theorem scoped_names_shadowed :
    (¬ ∀ (env : Environment) (files : FileTree) (input : Input) (d : Document),
      read env files input = .ok d → ∀ e : EntityId, d.tree.Named e →
      isDeclarationName (d.tree.get e).kind = true →
      d.tree.find root (d.tree.scopedName e) false = some e) ∧
    ¬ ∀ (env : Environment) (files : FileTree) (input : Input) (d : Document),
      read env files input = .ok d → ∀ e : EntityId, d.tree.Named e →
      (d.tree.get e).kind = .const → d.tree.find root (d.tree.scopedName e) false = some e →
      ∀ ts, tokenize env.lexicon true 0 (d.tree.scopedName e).toList = .ok ts →
      ∀ (s : Session) (last : Position), s.tree = d.tree →
        ∃ v s', Expression.operand (resolver evaluateDeclaration root) 1 ⟨ts, last⟩ s =
          .ok (v, ⟨[], last⟩) s' := by
  constructor
  · intro hClaim
    have hRead : (read {} ⟨[], []⟩
        (.text "module A { const long x = 1; };\nconst long A = 2;")).toOption.any (fun d =>
          decide (2 < d.tree.size) && (d.tree.get 2).name != "" &&
            isDeclarationName (d.tree.get 2).kind &&
            d.tree.find root (d.tree.scopedName 2) false == none) = true := by decide +kernel
    obtain ⟨d, hd, hRead⟩ := any_toOption hRead
    simp only [Bool.and_eq_true, beq_iff_eq, bne_iff_ne, decide_eq_true_eq] at hRead
    obtain ⟨⟨⟨hLt, hName⟩, hKind⟩, hFind⟩ := hRead
    have hFound := hClaim {} ⟨[], []⟩ _ d hd 2 ⟨hLt, hName⟩ hKind
    rw [hFind] at hFound
    cases hFound
  · intro hClaim
    have hRead : (read {} ⟨[], []⟩ (.text "module M { const long in = 1; };")).toOption.any (fun d =>
        decide (2 < d.tree.size) && (d.tree.get 2).name != "" && (d.tree.get 2).kind == .const &&
          d.tree.scopedName 2 == "M::in" && d.tree.find root "M::in" false == some 2) = true := by
      decide +kernel
    obtain ⟨d, hd, hRead⟩ := any_toOption hRead
    simp only [Bool.and_eq_true, beq_iff_eq, bne_iff_ne, decide_eq_true_eq] at hRead
    obtain ⟨⟨⟨⟨hLt, hName⟩, hKind⟩, hScoped⟩, hFind⟩ := hRead
    have hNames : ∀ name ∈ ["M", "in"], IsName name := by decide
    have hWords : ∀ name ∈ ["M", "in"],
        Lexeme.wordKind (Environment.lexicon {}) name = .identifier ∨
          Lexeme.wordKind (Environment.lexicon {}) name = .keyword := by decide
    have hKeyword : Lexeme.wordKind (Environment.lexicon {}) "in" ≠ .identifier := by decide
    obtain ⟨ts, hTokens, hSpelling⟩ := tokenize_of_scans
      (OperandPath.scans_nameTokens false (List.cons_ne_nil _ _) hNames hWords) true 0
    obtain ⟨v, s', hOperand⟩ := hClaim {} ⟨[], []⟩ _ d hd 2 ⟨hLt, hName⟩ hKind
      (by rw [hScoped]; exact hFind) ts (by rw [hScoped]; exact hTokens) (sessionOf d.tree) ⟨0, 0⟩ rfl
    rw [← List.append_nil ts] at hOperand
    obtain ⟨t, -, hRefused⟩ := operand_names_refused hNames (List.cons_ne_nil _ _) hWords
      ⟨"in", List.mem_cons_self, hKeyword⟩ hSpelling
    cases hOperand.symm.trans hRefused

end IdlReader.Document

namespace IdlReader.Tree

open Document

/-- A name of one segment leads to a type exactly if a type of that name is visible. The
declaration of a member keeps a type visible for the members behind it unless it takes its
name and the type does not belong to the body itself; and from then on only a type of the body
itself is found by that name. -/
theorem type_names {t : Tree} (h : t.Reachable) :
    (∀ (start : EntityId) (type : String), IsSegment type →
      ((∃ x, t.findType start type = some x ∧ isTypeName (t.get x).kind = true) ↔
        t.Visible start type)) ∧
    (∀ (t' : Tree) (id found parent : EntityId) (name type : String) (listed : Bool),
      isDeclarationName (t.get id).kind = true → (t.get id).parent = some parent →
      t.setName id name false listed = .ok (found, t') → IsSegment type →
      (∃ x, t.findType parent type = some x ∧ isTypeName (t.get x).kind = true) →
      ((∃ x, t'.findType parent type = some x ∧ isTypeName (t'.get x).kind = true) ↔
        t.key type ≠ t.key name ∨
          ∃ s x, (t.get parent).scope = some s ∧
            (t.scope s).get? false (t.key type) = some x)) ∧
    (∀ (t' : Tree) (owner : EntityId) (s : ScopeId) (type : String), Steps t t' →
      (owner = root ∨ (t.get owner).name ≠ "") → (t.get owner).scope = some s →
      ((t.scope s).get? true (t.key type)).isSome = true → IsSegment type →
      ((∃ x, t'.findType owner type = some x ∧ isTypeName (t'.get x).kind = true) ↔
        ∃ x, (t'.scope s).get? false (t'.key type) = some x)) := by
  have hWellFormed := wellFormed_of_reachable h
  refine ⟨?_, ?_, ?_⟩
  · intro start type hSegment
    exact hWellFormed.findType_isType_iff hSegment start
  · intro t' id found parent name type listed hKind hParent hSet hSegment hBefore
    exact hWellFormed.findType_declared_iff hKind hParent
      (naming_of_setName (lt_size_of_parent hParent) hSet) hSegment hBefore
  · intro t' owner s type hSteps hSettled hScope hDeclared hSegment
    exact h.findType_hidden_iff hSteps hSettled hScope hDeclared hSegment

/-- The type `S` is visible in the struct `T`, the fourth entity of this document, but not if
its field got the name `S`. The name `b` of the field leads to no type that is not defined in
`T`, whatever is added to the document. -/
theorem type_names_of_structs :
    ∃ d, read {} ⟨[], []⟩ (.text "struct S { long a; };\nstruct T { long b; };") = .ok d ∧
      d.tree.Reachable ∧ d.tree.Visible 3 "S" ∧
      (∃ found t', d.tree.setName 4 "S" false true = .ok (found, t') ∧
        ¬ ∃ x, t'.findType 3 "S" = some x ∧ isTypeName (t'.get x).kind = true) ∧
      ∀ t', Steps d.tree t' →
        ((∃ x, t'.findType 3 "b" = some x ∧ isTypeName (t'.get x).kind = true) ↔
          ∃ x, (t'.scope 2).get? false (t'.key "b") = some x) := by
  have hRead : (match read {} ⟨[], []⟩
        (.text "struct S { long a; };\nstruct T { long b; };") with
      | .ok d => d.tree.findType 3 "S" == some 1 && isTypeName (d.tree.get 1).kind &&
          isDeclarationName (d.tree.get 4).kind && (d.tree.get 4).parent == some 3 &&
          (d.tree.setName 4 "S" false true).isOk && (d.tree.get 3).scope == some 2 &&
          (d.tree.scope 2).get? false (d.tree.key "S") == none && (d.tree.get 3).name != "" &&
          ((d.tree.scope 2).get? true (d.tree.key "b")).isSome
      | .error _ => false) = true := by decide +kernel
  split at hRead
  · rename_i d hd
    simp only [Bool.and_eq_true, beq_iff_eq, bne_iff_ne] at hRead
    obtain ⟨⟨⟨⟨⟨⟨⟨⟨hFind, hType⟩, hKind⟩, hParent⟩, hSet⟩, hScope⟩, hFree⟩, hNamed⟩, hDeclared⟩ :=
      hRead
    have hReachable := reachable_of_read hd
    obtain ⟨hVisible, hNaming, hStays⟩ := type_names hReachable
    refine ⟨d, hd, hReachable, (hVisible 3 "S" (by decide)).mp ⟨1, hFind, hType⟩, ?_, ?_⟩
    · cases hResult : d.tree.setName 4 "S" false true with
      | error e =>
        rw [hResult] at hSet
        cases hSet
      | ok r =>
        refine ⟨r.1, r.2, rfl, ?_⟩
        intro hFound
        rcases (hNaming r.2 4 r.1 3 "S" "S" true hKind hParent hResult (by decide)
          ⟨1, hFind, hType⟩).mp hFound with hNe | ⟨s, x, hs, hGet⟩
        · exact hNe rfl
        · rw [hScope] at hs
          cases hs
          rw [hFree] at hGet
          cases hGet
    · intro t' hSteps
      exact hStays t' 3 2 "b" hSteps (Or.inr hNamed) hScope hDeclared (by decide)
  · cases hRead

/-- A declaration may hide a type: in this document the name `S` leads to a type from the root,
which encloses the struct `T`, but to the field from `T` itself. -/
theorem type_names_hidden :
    ¬ ∀ t : Tree, t.Reachable → ∀ (start : EntityId) (name : String), IsSegment name →
      (∃ owner ∈ t.enclosing start, ∃ s x, (t.get owner).scope = some s ∧
        (t.scope s).get? false (t.key name) = some x) →
      ∃ x, t.findType start name = some x ∧ isTypeName (t.get x).kind = true := by
  intro hClaim
  have hRead : (match read {} ⟨[], []⟩
        (.text "struct S { long a; };\nstruct T { long S; };") with
      | .ok d => (d.tree.enclosing 3).contains root && (d.tree.get root).scope == some 0 &&
          (d.tree.scope 0).get? false (d.tree.key "S") == some 1 &&
          d.tree.findType 3 "S" == some 4 && !isTypeName (d.tree.get 4).kind
      | .error _ => false) = true := by decide +kernel
  split at hRead
  · rename_i d hd
    simp only [Bool.and_eq_true, beq_iff_eq, List.contains_iff_mem, Bool.not_eq_true'] at hRead
    obtain ⟨⟨⟨⟨hEnclosing, hScope⟩, hEntry⟩, hFind⟩, hKind⟩ := hRead
    obtain ⟨x, hx, hType⟩ := hClaim d.tree (reachable_of_read hd) 3 "S" (by decide)
      ⟨root, hEnclosing, 0, 1, hScope, hEntry⟩
    rw [hFind] at hx
    cases hx
    rw [hKind] at hType
    cases hType
  · cases hRead

end IdlReader.Tree

/-! ## Names of siblings -/

namespace IdlReader.Document

open IdlReader.Tree Parsing

/-- When a constant is evaluated, the name of a constant beside it leads to that one exactly if it
was read before, which it was unless a definition stands between the two. The values that such
siblings have in the end may be written for their names without a change of what the evaluation
gives, which is what the constant holds. -/
theorem sibling_constants {env : Environment} {files : FileTree} {input : Input} {d : Document}
    (h : read env files input = .ok d) {c p : EntityId} {e : Declaration}
    (he : (d.tree.get c).declaration? = some e) (hKind : (d.tree.get c).kind = .const)
    (hDimensions : e.dimensions = []) (hScalar : compoundDefinition? d.tree e.type = none)
    (hAssigned : e.assignment ≠ []) (hParent : (d.tree.get c).parent = some p) :
    (∃ σ, Stage.Evaluated d.tree c σ) ∧ ∀ σ, Stage.Evaluated d.tree c σ →
      (∀ x, (d.tree.get x).parent = some p → (d.tree.get x).kind = .const →
        (∀ name, IsName name → d.tree.find p name true = some x →
          (σ.tree.find p name true = some x ↔ x < σ.tree.size)) ∧
        ((∀ D, (d.tree.get D).parent = some p → (d.tree.get D).kind.isDefinition = true →
          (d.tree.get D).forward = false → c < D → ¬ D < x) → x < σ.tree.size)) ∧
      ∀ values : String → Option Constant,
        (∀ name a, values name = some a → IsName name ∧ ∃ x v,
          d.tree.find p name true = some x ∧ (d.tree.get x).parent = some p ∧
            (d.tree.get x).kind = .const ∧ (d.tree.get x).declaration? = some v ∧
            v.value = .ofConstant a ∧ x < σ.tree.size) →
        ∀ u : Session, u.tree = σ.tree →
          ∃ w k b, Expression.evaluate (substitute values (resolver consult p)) e.assignment u =
              .ok (.known w) u ∧
            e.type.kind? = some k ∧ w.cast k = .ok b ∧ e.value = .ofConstant b := by
  have hStages := stages_of_read h
  refine ⟨Stage.exists_evaluated hStages (he ▸ rfl), fun σ hEvaluated => ⟨fun x hx hConst => ?_, ?_⟩⟩
  · refine ⟨fun name hName hFind => hEvaluated.find_sibling_iff hName hx hConst hFind, ?_⟩
    have hReachable := reachable_of_read h
    have hWellFormed := wellFormed_of_reachable hReachable
    have hLt := lt_size_of_parent hx
    have hDeclared : isDeclarationName (d.tree.get x).kind = true := by
      rw [hConst]
      rfl
    have hNamed : d.tree.Named x := ⟨hLt, hEvaluated.calm x (hWellFormed.ne_root_of_parent hx) hLt⟩
    refine hEvaluated.sibling_lt hParent (hKind ▸ by decide) (hReachable.listed ?_ hx)
    exact ⟨hNamed, hWellFormed.forward_of_isDeclarationName hLt hDeclared, hConst ▸ by decide,
      hConst ▸ by decide⟩
  · intro values hValues u hu
    exact hEvaluated.substituted he hKind hDimensions hScalar hAssigned hParent hValues hu

/-- In this document a constant refers to one that is read behind it, and sees its value. -/
theorem sibling_constants_behind :
    ∃ (d : Document) (σ : Stage) (values : String → Option Constant) (e : Declaration)
      (w b : Constant), read {} ⟨[], []⟩ (.text "const long c = X + 1;\nconst long X = 2;") = .ok d ∧
      Stage.Evaluated d.tree 1 σ ∧ (values "X").map Constant.display = some "2" ∧
      (d.tree.get 1).declaration? = some e ∧ e.value.display = "3" ∧
      Expression.evaluate (substitute values (resolver consult root)) e.assignment
        (sessionOf σ.tree) = .ok (.known w) (sessionOf σ.tree) ∧
      w.cast (.integer .int32) = .ok b ∧ e.value = .ofConstant b := by
  have hRead : (match read {} ⟨[], []⟩ (.text "const long c = X + 1;\nconst long X = 2;") with
      | .ok d => (d.tree.get 1).kind == .const && (d.tree.get 1).parent == some root &&
          (d.tree.get 2).kind == .const && (d.tree.get 2).parent == some root &&
          d.tree.find root "X" true == some 2 && d.tree.size == 3 &&
        match (d.tree.get 1).declaration? with
        | some e => e.dimensions.isEmpty && e.type.definition.isNone &&
            e.type.kind? == some (.integer .int32) && !e.assignment.isEmpty &&
            e.value.display == "3" &&
          match (d.tree.get 2).declaration? with
          | some v => v.value.constant?.map Constant.display == some "2"
          | none => false
        | none => false
      | .error _ => false) = true := by decide +kernel
  split at hRead
  · rename_i d hd
    simp only [Bool.and_eq_true, beq_iff_eq] at hRead
    obtain ⟨⟨⟨⟨⟨⟨hKind, hParent⟩, hKind'⟩, hParent'⟩, hFind⟩, hSize⟩, hRead⟩ := hRead
    split at hRead
    · rename_i e he
      simp only [Bool.and_eq_true, List.isEmpty_iff, Option.isNone_iff_eq_none, beq_iff_eq,
        Bool.not_eq_true', List.isEmpty_eq_false_iff] at hRead
      obtain ⟨⟨⟨⟨⟨hDimensions, hDefinition⟩, hType⟩, hAssigned⟩, hDisplay⟩, hRead⟩ := hRead
      obtain ⟨v, hv, hValue⟩ : ∃ v, (d.tree.get 2).declaration? = some v ∧
          v.value.constant?.map Constant.display = some "2" := by
        split at hRead
        · exact ⟨_, ‹_›, beq_iff_eq.mp hRead⟩
        · cases hRead
      have hScalar : compoundDefinition? d.tree e.type = none := by
        unfold compoundDefinition?
        rw [hDefinition]
        rfl
      obtain ⟨⟨σ, hEvaluated⟩, hAll⟩ :=
        sibling_constants hd he hKind hDimensions hScalar hAssigned hParent
      obtain ⟨hSiblings, hSubstituted⟩ := hAll σ hEvaluated
      have hLt : 2 < σ.tree.size := by
        refine (hSiblings 2 hParent' hKind').2 fun D _ _ _ hBehind hBefore => ?_
        exact absurd hBefore (Nat.not_lt_of_le hBehind)
      have hName : ∀ name a, (if name = "X" then v.value.constant? else none) = some a →
          IsName name ∧ ∃ x u, d.tree.find root name true = some x ∧
            (d.tree.get x).parent = some root ∧ (d.tree.get x).kind = .const ∧
            (d.tree.get x).declaration? = some u ∧ u.value = .ofConstant a ∧
            x < σ.tree.size := by
        intro name a hSome
        split at hSome
        · rename_i hX
          rw [hX]
          exact ⟨by decide, 2, v, hFind, hParent', hKind', hv, ValueNode.eq_ofConstant hSome, hLt⟩
        · cases hSome
      obtain ⟨w, k, b, hRun, hKindOf, hCast, hHolds⟩ :=
        hSubstituted _ hName (sessionOf σ.tree) rfl
      rw [hType] at hKindOf
      cases hKindOf
      exact ⟨d, σ, _, e, w, b, hd, hEvaluated, hValue, he, hDisplay, hRun, hCast, hHolds⟩
    · cases hRead
  · cases hRead

/-- A constant may not see a constant beside it: in this document `c` is evaluated for the
enumeration, when `X` was not read yet in the module, and has the value of the `X` of the root. -/
theorem sibling_constants_early :
    ¬ ∀ d, read {} ⟨[], []⟩ (.text
        "const long X = 1; module M { const long c = X; enum E { A = c }; const long X = 2; };") =
          .ok d →
      ∀ c p e, (d.tree.get c).declaration? = some e → (d.tree.get c).kind = .const →
        e.dimensions = [] → compoundDefinition? d.tree e.type = none → e.assignment ≠ [] →
        (d.tree.get c).parent = some p →
        ∀ values : String → Option Constant,
          (∀ name a, values name = some a → IsName name ∧ ∃ x v,
            d.tree.find p name true = some x ∧ (d.tree.get x).parent = some p ∧
              (d.tree.get x).kind = .const ∧ (d.tree.get x).declaration? = some v ∧
              v.value = .ofConstant a) →
          ∀ u : Session, u.tree = d.tree →
            ∃ w k b, Expression.evaluate (substitute values (resolver consult p)) e.assignment u =
                .ok (.known w) u ∧
              e.type.kind? = some k ∧ w.cast k = .ok b ∧ e.value = .ofConstant b := by
  intro hClaim
  have hRead : (match read {} ⟨[], []⟩ (.text
        "const long X = 1; module M { const long c = X; enum E { A = c }; const long X = 2; };") with
      | .ok d => (d.tree.get 3).kind == .const && (d.tree.get 3).parent == some 2 &&
          (d.tree.get 6).kind == .const && (d.tree.get 6).parent == some 2 &&
          d.tree.find 2 "X" true == some 6 &&
        match (d.tree.get 3).declaration? with
        | some e => e.dimensions.isEmpty && e.type.definition.isNone &&
            e.type.kind? == some (.integer .int32) && !e.assignment.isEmpty &&
            e.value.display == "1" &&
          match (d.tree.get 6).declaration? with
          | some v =>
            match Expression.evaluate (substitute
                (fun name => if name = "X" then v.value.constant? else none) (resolver consult 2))
                e.assignment (sessionOf d.tree) with
            | .ok (.known w) _ =>
              (w.cast (.integer .int32)).toOption.map Constant.display == some "2"
            | .ok .dynamic _ | .error _ _ => false
          | none => false
        | none => false
      | .error _ => false) = true := by decide +kernel
  split at hRead
  · rename_i d hd
    simp only [Bool.and_eq_true, beq_iff_eq] at hRead
    obtain ⟨⟨⟨⟨⟨hKind, hParent⟩, hKind'⟩, hParent'⟩, hFind⟩, hRead⟩ := hRead
    split at hRead
    · rename_i e he
      simp only [Bool.and_eq_true, List.isEmpty_iff, Option.isNone_iff_eq_none, beq_iff_eq,
        Bool.not_eq_true', List.isEmpty_eq_false_iff] at hRead
      obtain ⟨⟨⟨⟨⟨hDimensions, hDefinition⟩, hType⟩, hAssigned⟩, hDisplay⟩, hResult⟩ := hRead
      obtain ⟨v, hv⟩ : ∃ v, (d.tree.get 6).declaration? = some v := by
        refine Option.ne_none_iff_exists'.mp fun hNone => ?_
        rw [hNone] at hResult
        cases hResult
      rw [hv] at hResult
      have hScalar : compoundDefinition? d.tree e.type = none := by
        unfold compoundDefinition?
        rw [hDefinition]
        rfl
      obtain ⟨w, k, b, hRun, hKindOf, hCast, hHolds⟩ := hClaim d hd 3 2 e he hKind hDimensions
        hScalar hAssigned hParent (fun name => if name = "X" then v.value.constant? else none)
        (fun name a hSome => by
          split at hSome
          · rename_i hX
            rw [hX]
            exact ⟨by decide, 6, v, hFind, hParent', hKind', hv, ValueNode.eq_ofConstant hSome⟩
          · cases hSome)
        (sessionOf d.tree) rfl
      rw [hType] at hKindOf
      cases hKindOf
      have hTwo : b.display = "2" := by
        dsimp only at hResult
        rw [hRun] at hResult
        dsimp only at hResult
        rw [hCast] at hResult
        exact Option.some.inj (beq_iff_eq.mp hResult)
      rw [hHolds] at hDisplay
      exact absurd (hTwo.symm.trans hDisplay) (by decide)
    · cases hRead
  · cases hRead

end IdlReader.Document
