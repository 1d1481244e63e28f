import IdlReader.Proofs.Document.Reachable
import IdlReader.Proofs.Stage.Preorder
import IdlReader.Proofs.Tree.Inheritance

/-!
# Inherited names in documents

A member may have the name of an inherited entity only if this entity was read later, which a
base makes possible that encloses what inherits from it.

* `inherited_names`: where names can meet.
* `inherited_names_enclosing`: a document in which they do.
-/

namespace IdlReader.Document

open IdlReader.Tree

/-- If a member of a definition has the name of an entity that the definition inherits, the
member was read before, and the definition stands inside of the one that it inherits the entity
from. So no member of a definition has an inherited name if nothing that the definition inherits
from encloses it. -/
theorem inherited_names {env : Environment} {files : FileTree} {input : Input} {doc : Document}
    (h : read env files input = .ok doc) :
    (∀ d b x y first, doc.tree.Base d b → doc.tree.Found x → (doc.tree.get x).parent = some d →
      doc.tree.lookupKey first (doc.tree.key (doc.tree.get x).name) b = some y →
      x < y ∧ ∃ a, doc.tree.Inherits b a ∧ (doc.tree.get y).parent = some a ∧
        a ∈ doc.tree.enclosing d) ∧
    (∀ d, (∀ b a, doc.tree.Base d b → doc.tree.Inherits b a → a ∉ doc.tree.enclosing d) →
      ∀ x b first, doc.tree.Found x → (doc.tree.get x).parent = some d → doc.tree.Base d b →
        doc.tree.lookupKey first (doc.tree.key (doc.tree.get x).name) b = none) := by
  have hReachable := reachable_of_read h
  have hWellFormed := wellFormed_of_reachable hReachable
  have hOrdered := Stage.Ordered.of_advances _ (stages_of_read h)
  have hClash : ∀ d b x y first, doc.tree.Base d b → doc.tree.Found x →
      (doc.tree.get x).parent = some d →
      doc.tree.lookupKey first (doc.tree.key (doc.tree.get x).name) b = some y →
      x < y ∧ ∃ a, doc.tree.Inherits b a ∧ (doc.tree.get y).parent = some a ∧
        a ∈ doc.tree.enclosing d := by
    intro d b x y first hBase hx hParent hLookup
    obtain ⟨hLater, a, hInherits, hyParent⟩ :=
      hReachable.inherited_later hBase hx hParent hLookup
    obtain ⟨haLt, haNamed, haKind⟩ := hReachable.inherits_named hBase hInherits
    have hdLt := hWellFormed.parent_lt hx.1.1 hParent
    have hdSize := Nat.lt_trans hdLt hx.1.1
    refine ⟨hLater, a, hInherits, hyParent, hWellFormed.mem_enclosing_of_inside ?_⟩
    -- `d` was read between `a` and its member `y`.
    have hyKind := (hWellFormed.lookupWithin_found hLookup).2
    have hyDirective : (doc.tree.get y).kind ≠ .directive := by
      intro hKind
      rw [hKind] at hyKind
      exact hyKind.elim (fun hFalse => by cases hFalse) (fun hFalse => by cases hFalse)
    have hyParameter : (doc.tree.get y).kind ≠ .parameter := by
      intro hKind
      obtain ⟨-, -, -, hOperation⟩ := hWellFormed.parent_place (lt_size_of_parent hyParent) hyParent
      rw [hOperation.mp hKind] at haKind
      cases haKind
    have hdDirective : (doc.tree.get d).kind ≠ .directive := by
      obtain ⟨definition, hd, -⟩ := hBase
      have hDefinition := hWellFormed.definition d hdSize (Option.isSome_of_eq_some hd)
      intro hKind
      rw [hKind] at hDefinition
      cases hDefinition
    exact hOrdered.between y a d hyParent hyDirective hyParameter haLt
      (Nat.lt_trans hdLt hLater) hdDirective
  refine ⟨hClash, ?_⟩
  intro d hOutside x b first hx hParent hBase
  refine Option.eq_none_iff_forall_ne_some.mpr fun y hLookup => ?_
  obtain ⟨-, a, hInherits, -, hEncloses⟩ := hClash d b x y first hBase hx hParent hLookup
  exact hOutside b a hBase hInherits hEncloses

/-- The struct `B` of this document stands inside of its base `A`, whose second field was read
after the field of `B`; the struct `C` has the same base and stands elsewhere. -/
theorem inherited_names_structs :
    ∃ doc, read {} ⟨[], []⟩ (.text ("struct A \x7b struct B : A \x7b long y; \x7d; long y; \x7d;\n" ++
        "struct C : A \x7b long z; \x7d;")) = .ok doc ∧
      (∃ a, doc.tree.Inherits 1 a ∧ (doc.tree.get 4).parent = some a ∧
        a ∈ doc.tree.enclosing 2) ∧
      doc.tree.lookupKey false (doc.tree.key (doc.tree.get 6).name) 1 = none := by
  have hRead : (match read {} ⟨[], []⟩ (.text
        ("struct A \x7b struct B : A \x7b long y; \x7d; long y; \x7d;\n" ++
          "struct C : A \x7b long z; \x7d;")) with
      | .ok doc => doc.tree.size == 7 &&
          (doc.tree.get 2).definition?.any (fun d => d.bases.contains 1) &&
          (doc.tree.get 5).definition?.any (fun d => d.bases.contains 1) &&
          (doc.tree.get 3).parent == some 2 && (doc.tree.get 6).parent == some 5 &&
          (doc.tree.get 3).kind == .field && (doc.tree.get 6).kind == .field &&
          (doc.tree.get 3).name == "y" && (doc.tree.get 6).name == "z" &&
          doc.tree.lookupKey false "y" 1 == some 4 && doc.tree.key "y" == "y" &&
          doc.tree.enclosing 5 == [5, 0]
      | .error _ => false) = true := by decide +kernel
  split at hRead
  · rename_i doc hd
    simp only [Bool.and_eq_true, beq_iff_eq, Option.any_eq_true, List.contains_iff_mem] at hRead
    obtain ⟨⟨⟨⟨⟨⟨⟨⟨⟨⟨⟨hSize, hB⟩, hC⟩, hY⟩, hZ⟩, hYKind⟩, hZKind⟩, hYName⟩, hZName⟩, hLookup⟩, hKey⟩,
      hEnclosing⟩ := hRead
    obtain ⟨hClash, hFree⟩ := inherited_names hd
    have hFound : ∀ x, x < 7 → (doc.tree.get x).name ≠ "" → (doc.tree.get x).kind = .field →
        doc.tree.Found x :=
      fun x hx hName hKind => ⟨⟨hSize ▸ hx, hName⟩, Or.inr (by rw [hKind]; rfl)⟩
    refine ⟨doc, hd, ?_, ?_⟩
    · refine (hClash 2 1 3 4 false hB (hFound 3 (by decide) ?_ hYKind) hY ?_).2
      · rw [hYName]
        decide
      · rw [hYName, hKey]
        exact hLookup
    · refine hFree 5 ?_ 6 1 false (hFound 6 (by decide) ?_ hZKind) hZ hC
      · intro b a hBase hInherits hMem
        have hReachable := reachable_of_read hd
        obtain ⟨hLt, -, hKind⟩ := hReachable.inherits_named hBase hInherits
        rw [hEnclosing] at hMem
        rcases List.mem_cons.mp hMem with rfl | hMem
        · exact absurd hLt (by decide)
        · have hRoot : (doc.tree.get 0).kind = .root := (wellFormed_of_reachable hReachable).rootKind
          rw [List.mem_singleton.mp hMem, hRoot] at hKind
          cases hKind
      · rw [hZName]
        decide
  · exact absurd hRead (by decide)

/-- A member may have an inherited name: the field of the struct `B` in this document has the
name of a field of `A`, from which `B` inherits. -/
theorem inherited_names_enclosing :
    ¬ ∀ (env : Environment) (files : FileTree) (input : Input) (doc : Document),
      read env files input = .ok doc → ∀ d b x first, doc.tree.Base d b → doc.tree.Found x →
        (doc.tree.get x).parent = some d →
        doc.tree.lookupKey first (doc.tree.key (doc.tree.get x).name) b = none := by
  intro hClaim
  have hRead : (match read {} ⟨[], []⟩ (.text
        "struct A \x7b struct B : A \x7b long y; \x7d; long y; \x7d;") with
      | .ok doc => (doc.tree.get 2).definition?.any (fun d => d.bases.contains 1) &&
          (doc.tree.get 3).parent == some 2 && (doc.tree.get 3).kind == .field &&
          doc.tree.size == 5 && (doc.tree.get 3).name != "" &&
          doc.tree.lookupKey false (doc.tree.key (doc.tree.get 3).name) 1 == some 4
      | .error _ => false) = true := by decide +kernel
  split at hRead
  · rename_i doc hd
    simp only [Bool.and_eq_true, beq_iff_eq, bne_iff_ne, Option.any_eq_true,
      List.contains_iff_mem] at hRead
    obtain ⟨⟨⟨⟨⟨hBase, hParent⟩, hKind⟩, hSize⟩, hName⟩, hLookup⟩ := hRead
    have hFound : doc.tree.Found 3 :=
      ⟨⟨by rw [hSize]; decide, hName⟩, Or.inr (by rw [hKind]; rfl)⟩
    rw [hClaim _ _ _ doc hd 2 1 3 false hBase hFound hParent] at hLookup
    cases hLookup
  · exact absurd hRead (by decide)

end IdlReader.Document
