import Mathlib.Data.List.Pairwise
import IdlReader.Proofs.Grammar.Content
import IdlReader.Proofs.Grammar.Definition
import IdlReader.Proofs.Grammar.Evaluation
import IdlReader.Proofs.Stage.Part

/-!
# Definitions with distinct values

The values of the entries of an enumeration are compared with those of the entries before them, and
so are the labels of the cases of a union. What was compared was evaluated and stays as it is.

The values of an enumeration are compared when its own content ends, the labels of a union when the
content of the definition that it stands in does. A definition that is not open any more gets no
members, and those that it has were evaluated, so what was found to differ differs ever after.

* `differ_checkEntries`: the entries of an enumeration.
* `differ_checkCases`: the cases of a union.
* `differ_evaluateMembers`: the unions in a definition that is read to its end.
* `Stage.Audited.grow`, `Stage.Audited.enter`, `Stage.Audited.evaluations`, `Stage.Audited.close`:
  one case for each way from a stage to the next one.
* `reading_audits`, `entries_audits`, `members_audits`: what the content of definitions does.
-/

/-! ## Comparisons -/

namespace IdlReader

open IdlReader.Tree

/-! ## Values that differ -/

namespace Constant

/-- Whether two constants were found to differ, in one order or in the other. -/
def Differs (a b : Constant) : Prop := a.equals b = false ∨ b.equals a = false

theorem Differs.symm {a b : Constant} (h : a.Differs b) : b.Differs a := Or.symm h

/-- Integers of one kind that differ are not the same. -/
theorem Differs.integer {a b : Constant} {k : IntegerKind} (h : a.Differs b)
    (ha : a.kind = .integer k) (hb : b.kind = .integer k) : a.integer? ≠ b.integer? := by
  cases a with
  | integer _ v hv =>
    cases b with
    | integer _ w hw =>
      cases ha
      cases hb
      intro hSame
      cases hSame
      simp [Differs, equals] at h
    | real _ y => cases hb
    | text _ s => cases hb
  | real _ x => cases ha
  | text _ s => cases ha

end Constant

namespace Declaration

variable {d e : Declaration}

/-- Whether the values of two entries of an enumeration differ. -/
def ValuesDiffer (d e : Declaration) : Prop :=
  ∀ a b, d.value.constant? = some a → e.value.constant? = some b → a.Differs b

/-- Whether the labels of two cases of a union differ, one of which at most is the default. -/
structure LabelsDiffer (d e : Declaration) : Prop where
  labels : ∀ a ∈ d.caseValues, ∀ b ∈ e.caseValues, a.Differs b
  default : d.defaultCase = true → e.defaultCase = false

instance : Std.Symm ValuesDiffer := ⟨fun _ _ h a b ha hb => (h b a hb ha).symm⟩

theorem LabelsDiffer.symm (h : d.LabelsDiffer e) : e.LabelsDiffer d where
  labels := fun a ha b hb => (h.labels b hb a ha).symm
  default := fun he => by
    cases hd : d.defaultCase with
    | false => rfl
    | true => exact absurd he (Bool.eq_false_iff.mp (h.default hd))

instance : Std.Symm LabelsDiffer := ⟨fun _ _ => LabelsDiffer.symm⟩

end Declaration

namespace Tree

variable {t t' : Tree} {P : Declaration → Declaration → Prop} {b c : EntityId}

/-- Whether two declarations have a relation. -/
def Related (t : Tree) (P : Declaration → Declaration → Prop) (b c : EntityId) : Prop :=
  ∀ d e, (t.get b).declaration? = some d → (t.get c).declaration? = some e → P d e

instance [Std.Symm P] : Std.Symm (t.Related P) :=
  ⟨fun _ _ h d e hd he => Std.Symm.symm e d (h e d he hd)⟩

theorem Related.refines (h : t.Related P b c) (hb : t.Finished b) (hc : t.Finished c)
    (hRefines : Refines t t') : t'.Related P b c := by
  intro d e hd he
  rw [hRefines.declaration? hb] at hd
  rw [hRefines.declaration? hc] at he
  exact h d e hd he

/-- The cases of a union. -/
def cases (t : Tree) (U : EntityId) : List EntityId :=
  (t.get U).children.filter fun c => [EntityKind.caseEntry].contains (t.get c).kind

theorem cases_congr (h : t'.outline = t.outline) (U : EntityId) : t'.cases U = t.cases U := by
  unfold cases
  rw [children_congr h]
  exact List.filter_congr fun c _ => by rw [kind_congr h]

/-- Whether all labels of cases were found to differ, and one default at most. -/
structure Checked (t : Tree) (ids : List EntityId) : Prop where
  finished : ∀ i ∈ ids, t.Finished i
  labels : ∀ i ∈ ids, ∀ d, (t.get i).declaration? = some d →
    d.caseValues.Pairwise Constant.Differs
  apart : ids.Pairwise (t.Related Declaration.LabelsDiffer)

theorem Checked.refines {ids : List EntityId} (h : t.Checked ids) (hRefines : Refines t t') :
    t'.Checked ids where
  finished := fun i hi => hRefines.finished (h.finished i hi)
  labels := fun i hi d hd => by
    rw [hRefines.declaration? (h.finished i hi)] at hd
    exact h.labels i hi d hd
  apart := h.apart.imp_of_mem fun hb hc hRelated =>
    hRelated.refines (h.finished _ hb) (h.finished _ hc) hRefines

end Tree

namespace Parsing

variable {s : Session}

/-! ## Enumerations -/

/-- The values of entries differ from each other and from those that were seen. -/
theorem differ_checkEntries (seen : List Constant) (ids : List EntityId) (hs : s.Sound) :
    Grows Evaluations (checkEntries seen ids) s fun _ s' =>
      (∀ i ∈ ids, s'.tree.Finished i) ∧ ids.Pairwise (s'.tree.Related Declaration.ValuesDiffer) ∧
      ∀ i ∈ ids, ∀ d a, (s'.tree.get i).declaration? = some d → d.value.constant? = some a →
        ∀ b ∈ seen, b.Differs a := by
  induction ids generalizing s seen with
  | nil => exact Grows.pure hs ⟨nofun, .nil, nofun⟩
  | cons id ids ih =>
    unfold checkEntries
    refine (grows_evaluateDeclaration hs id).bind ?_
    intro _ s₁ hs₁ _ hFinished
    refine Grows.entity ?_
    split
    · exact grows_fail _
    · rename_i c hValue
      split
      · exact grows_failAt _ _
      · rename_i hNone
        rw [Bool.not_eq_true, List.any_eq_false] at hNone
        refine (ih (c :: seen) hs₁).mono ?_
        rintro _ s₂ _ hR₂ ⟨hAll, hPairwise, hSeen⟩
        -- The entry keeps its value while those behind it are evaluated.
        have hKept : ∀ d a, (s₂.tree.get id).declaration? = some d → d.value.constant? = some a →
            a = c := by
          intro d a hd ha
          rw [hR₂.settles.refines.declaration? hFinished] at hd
          rw [hd, Option.bind_some, ha] at hValue
          exact Option.some.inj hValue
        refine ⟨?_, List.pairwise_cons.mpr ⟨?_, hPairwise⟩, ?_⟩
        · exact List.forall_mem_cons.mpr ⟨hR₂.finished hFinished, hAll⟩
        · intro i hi d e hd he a b ha hb
          rw [hKept d a hd ha]
          exact hSeen i hi e b he hb c List.mem_cons_self
        · intro i hi d a hd ha b hb
          rcases List.mem_cons.mp hi with rfl | hi
          · rw [hKept d a hd ha]
            exact Or.inl (Bool.eq_false_iff.mpr (hNone b hb))
          · exact hSeen i hi d a hd ha b (List.mem_cons_of_mem c hb)

/-! ## Unions -/

/-- The labels of a case differ from each other and from those that were seen. -/
theorem gives_checkLabels (p : Position) (seen cs : List Constant) :
    Gives s (checkCases.checkLabels p seen cs) fun seen' => seen' = cs.reverse ++ seen ∧
      cs.Pairwise Constant.Differs ∧ ∀ b ∈ seen, ∀ a ∈ cs, b.Differs a := by
  induction cs generalizing seen with
  | nil => exact .pure ⟨rfl, .nil, fun _ _ _ ha => absurd ha List.not_mem_nil⟩
  | cons c cs ih =>
    unfold checkCases.checkLabels
    split
    · exact .failAt _ _
    · rename_i hNone
      rw [Bool.not_eq_true, List.any_eq_false] at hNone
      refine (ih (c :: seen)).mono ?_
      rintro _ ⟨rfl, hPairwise, hSeen⟩
      refine ⟨by simp, List.pairwise_cons.mpr ⟨hSeen c List.mem_cons_self, hPairwise⟩, ?_⟩
      intro b hb a ha
      rcases List.mem_cons.mp ha with rfl | ha
      · exact Or.inl (Bool.eq_false_iff.mpr (hNone b hb))
      · exact hSeen b (List.mem_cons_of_mem c hb) a ha

/-- The labels of cases differ from each other and from those that were seen, and there is one
default at most. -/
theorem differ_checkCases (hasDefault : Bool) (seen : List Constant) (ids : List EntityId)
    (hs : s.Sound) :
    Grows Evaluations (checkCases hasDefault seen ids) s fun _ s' =>
      (∀ i ∈ ids, s'.tree.Finished i) ∧ ids.Pairwise (s'.tree.Related Declaration.LabelsDiffer) ∧
      ∀ i ∈ ids, ∀ d, (s'.tree.get i).declaration? = some d →
        d.caseValues.Pairwise Constant.Differs ∧ (hasDefault = true → d.defaultCase = false) ∧
        ∀ b ∈ seen, ∀ a ∈ d.caseValues, b.Differs a := by
  induction ids generalizing s hasDefault seen with
  | nil => exact Grows.pure hs ⟨nofun, .nil, nofun⟩
  | cons id ids ih =>
    unfold checkCases
    refine (grows_evaluateDeclaration hs id).bind ?_
    intro _ s₁ hs₁ _ hFinished
    have hKept : ∀ s₂ : Session, Evaluations s₁.tree s₂.tree →
        (s₂.tree.get id).declaration? = (s₁.tree.get id).declaration? :=
      fun s₂ hR₂ => hR₂.settles.refines.declaration? hFinished
    refine Grows.entity ?_
    cases hd : (s₁.tree.get id).declaration? with
    | none =>
      refine (ih hasDefault seen hs₁).mono ?_
      rintro _ s₂ _ hR₂ ⟨hAll, hPairwise, hEach⟩
      have hNone := (hKept s₂ hR₂).trans hd
      refine ⟨List.forall_mem_cons.mpr ⟨hR₂.finished hFinished, hAll⟩,
        List.pairwise_cons.mpr ⟨fun i _ d e hd' => ?_, hPairwise⟩,
        List.forall_mem_cons.mpr ⟨fun d hd' => ?_, hEach⟩⟩
      · rw [hNone] at hd'
        cases hd'
      · rw [hNone] at hd'
        cases hd'
    | some d =>
      dsimp only
      split
      · exact grows_failAt_bind _ _
      · rename_i hDefault
        have hDefault : hasDefault = true → d.defaultCase = false := by
          intro hTrue
          simpa [hTrue] using hDefault
        refine Grows.bind (P := fun seen' s' => s' = s₁ ∧ seen' = d.caseValues.reverse ++ seen ∧
          d.caseValues.Pairwise Constant.Differs ∧
          ∀ b ∈ seen, ∀ a ∈ d.caseValues, b.Differs a) ?_ ?_
        · intro seen' s' hRun
          obtain ⟨rfl, hLabels⟩ := gives_checkLabels _ _ _ _ _ hRun
          exact ⟨hs₁, Course.refl _, rfl, hLabels⟩
        rintro _ _ - - ⟨rfl, rfl, hLabels, hSeen⟩
        refine (ih _ _ hs₁).mono ?_
        rintro _ s₂ _ hR₂ ⟨hAll, hPairwise, hEach⟩
        have hSome := (hKept s₂ hR₂).trans hd
        refine ⟨List.forall_mem_cons.mpr ⟨hR₂.finished hFinished, hAll⟩,
          List.pairwise_cons.mpr ⟨?_, hPairwise⟩, List.forall_mem_cons.mpr ⟨?_, ?_⟩⟩
        · intro i hi d' e hd' he
          cases hSome.symm.trans hd'
          obtain ⟨-, hNext, hBefore⟩ := hEach i hi e he
          refine ⟨fun a ha b hb => hBefore a ?_ b hb, fun hTrue => hNext ?_⟩
          · exact List.mem_append_left _ (List.mem_reverse.mpr ha)
          · rw [hTrue, Bool.or_true]
        · intro d' hd'
          cases hSome.symm.trans hd'
          exact ⟨hLabels, hDefault, hSeen⟩
        · intro i hi e he
          obtain ⟨hPairwise', hNext, hBefore⟩ := hEach i hi e he
          refine ⟨hPairwise', fun hTrue => hNext ?_, fun b hb => hBefore b ?_⟩
          · rw [hTrue, Bool.true_or]
          · exact List.mem_append_right _ hb

/-- The cases of a union that is not only declared are checked. -/
theorem differ_evaluateType (hs : s.Sound) (id : EntityId) :
    Grows Evaluations (evaluateType id) s fun _ s' => (s'.tree.get id).kind = .union →
      (s'.tree.get id).forward = false → s'.tree.Checked (s'.tree.cases id) := by
  unfold evaluateType
  refine Grows.entity ?_
  split
  · split
    · rename_i hForward
      refine Grows.pure hs fun _ hFull => ?_
      rw [hForward] at hFull
      cases hFull
    · have hCases : Grows Evaluations (childrenOfKinds [.caseEntry] (s.tree.get id).children) s
          fun ids s' => s' = s ∧ ids = s.tree.cases id := Grows.tree (Grows.pure hs ⟨rfl, rfl⟩)
      refine hCases.bind ?_
      rintro _ _ - - ⟨rfl, rfl⟩
      refine (differ_checkCases false [] _ hs).mono ?_
      rintro _ s₂ _ hR ⟨hFinished, hApart, hEach⟩ _ _
      rw [cases_congr hR.settles.outline]
      exact ⟨hFinished, fun i hi d hd => (hEach i hi d hd).1, hApart⟩
  · rename_i hNot
    refine (grows_evaluateDeclaration hs id).mono fun _ s' _ hR _ hUnion => ?_
    rw [hR.kind] at hUnion
    exact absurd hUnion hNot

/-- When the members of a definition are evaluated the cases of all unions among them are checked. -/
theorem differ_evaluateMembers (hs : s.Sound) (owner : EntityId) :
    Grows Evaluations (evaluateMembers owner) s fun _ s' => ∀ U ∈ (s'.tree.get owner).children,
      (s'.tree.get U).kind = .union → (s'.tree.get U).forward = false →
        s'.tree.Checked (s'.tree.cases U) := by
  have hEach : ∀ {f : EntityId → Parsing Unit} {s : Session} (ids : List EntityId), s.Sound →
      (∀ (s : Session) (c : EntityId), s.Sound → Grows Evaluations (f c) s fun _ _ => True) →
      Grows Evaluations (ids.forM f) s fun _ _ => True := fun ids hs hf =>
    (Grows.forM (P := fun _ _ => True) (fun _ _ _ _ _ => trivial) ids (fun c _ s hs => hf s c hs)
      hs).mono fun _ _ _ _ _ => trivial
  have hEvaluate : ∀ (s : Session) (c : EntityId), s.Sound →
      Grows Evaluations (evaluateDeclaration c) s fun _ _ => True := fun s c hs =>
    (grows_evaluateDeclaration hs c).mono fun _ _ _ _ _ => trivial
  unfold evaluateMembers
  refine Grows.entity ?_
  refine (grows_childrenOfKinds hs _ _).bind ?_
  intro types s₁ hs₁ hR₁ hTypes
  refine (Grows.forM (P := fun U t => (t.get U).kind = .union → (t.get U).forward = false →
    t.Checked (t.cases U)) ?_ types (fun c _ s hs => differ_evaluateType hs c) hs₁).bind ?_
  · intro U t t' hR h hUnion hFull
    rw [hR.kind] at hUnion
    rw [forward_congr hR.settles.outline] at hFull
    rw [cases_congr hR.settles.outline]
    exact (h hUnion hFull).refines hR.settles.refines
  intro _ s₂ hs₂ hR₂ hChecked
  suffices hRest : Grows Evaluations (do
      let consts ← childrenOfKinds [.const] (s.tree.get owner).children
      consts.forM evaluateDeclaration
      let operations ← childrenOfKinds [.attr, .operation] (s.tree.get owner).children
      operations.forM evaluateWithParameters
      let fields ← childrenOfKinds [.field, .caseEntry] (s.tree.get owner).children
      fields.forM evaluateDeclaration) s₂ fun _ _ => True by
    refine hRest.mono ?_
    intro _ s₃ _ hR₃ _ U hU hUnion hFull
    have hR : Evaluations s.tree s₃.tree := hR₁.trans (hR₂.trans hR₃)
    rw [children_congr hR.settles.outline] at hU
    rw [hR.kind] at hUnion
    rw [forward_congr hR₃.settles.outline] at hFull
    rw [cases_congr hR₃.settles.outline]
    refine (hChecked U (hTypes U hU (by rw [hUnion]; decide)) ?_ hFull).refines hR₃.settles.refines
    rw [Evaluations.kind (Relation.ReflTransGen.trans hR₁ hR₂)]
    exact hUnion
  refine (grows_childrenOfKinds hs₂ _ _).bind fun consts s₃ hs₃ _ _ => ?_
  refine (hEach consts hs₃ hEvaluate).bind fun _ s₄ hs₄ _ _ => ?_
  refine (grows_childrenOfKinds hs₄ _ _).bind fun operations s₅ hs₅ _ _ => ?_
  refine (hEach operations hs₅ fun s c hs => (grows_evaluateWithParameters hs c).mono
    fun _ _ _ _ _ => trivial).bind fun _ s₆ hs₆ _ _ => ?_
  refine (grows_childrenOfKinds hs₆ _ _).bind fun fields s₇ hs₇ _ _ => ?_
  exact hEach fields hs₇ hEvaluate

end Parsing

end IdlReader

/-! ## Stages -/

namespace IdlReader

open IdlReader.Tree

namespace Tree

variable {t t' : Tree} {o b c : EntityId} {k : EntityKind}
  {P : Declaration → Declaration → Prop}

/-- Whether two members of a kind always have a relation. -/
def Apart (t : Tree) (o : EntityId) (k : EntityKind) (P : Declaration → Declaration → Prop) : Prop :=
  ∀ b c, (t.get b).parent = some o → (t.get c).parent = some o → (t.get b).kind = k →
    (t.get c).kind = k → b ≠ c → t.Related P b c

/-- Whether the labels of all cases of a union differ. -/
structure Discriminated (t : Tree) (o : EntityId) : Prop where
  labels : ∀ c d, (t.get c).parent = some o → (t.get c).kind = .caseEntry →
    (t.get c).declaration? = some d → d.caseValues.Pairwise Constant.Differs
  apart : t.Apart o .caseEntry Declaration.LabelsDiffer

/-- Whether the members of a kind, as they are in a tree, are those of an earlier one. -/
def Keeps (o : EntityId) (k : EntityKind) (t t' : Tree) : Prop :=
  ∀ c, (t'.get c).parent = some o → (t'.get c).kind = k → (t.get c).parent = some o ∧
    (t.get c).kind = k ∧ (t'.get c).declaration? = (t.get c).declaration?

theorem Adds.keeps {q : EntityId → Prop} (h : Adds t t' q) (hDirective : k ≠ .directive)
    (hNew : ∀ c, q c → (t'.get c).kind = k → (t'.get c).parent ≠ some o) : Keeps o k t t' := by
  intro c hParent hKind
  by_cases hOld : c < t.size
  · rw [← h.parent c hOld, ← h.kind c hOld]
    exact ⟨hParent, hKind, h.declaration? c hOld⟩
  · have hc := h.new c (Nat.le_of_not_lt hOld) (lt_size_of_parent hParent) (hKind ▸ hDirective)
    exact absurd hParent (hNew c hc hKind)

theorem Apart.keeps (h : t.Apart o k P) (hKeeps : Keeps o k t t') : t'.Apart o k P := by
  intro b c hb hc hbKind hcKind hNe d e hd he
  obtain ⟨hb₀, hbKind₀, hbSame⟩ := hKeeps b hb hbKind
  obtain ⟨hc₀, hcKind₀, hcSame⟩ := hKeeps c hc hcKind
  exact h b c hb₀ hc₀ hbKind₀ hcKind₀ hNe d e (hbSame ▸ hd) (hcSame ▸ he)

theorem Discriminated.keeps (h : t.Discriminated o) (hKeeps : Keeps o .caseEntry t t') :
    t'.Discriminated o where
  labels := fun c d hParent hKind hd => by
    obtain ⟨hParent₀, hKind₀, hSame⟩ := hKeeps c hParent hKind
    exact h.labels c d hParent₀ hKind₀ (hSame ▸ hd)
  apart := h.apart.keeps hKeeps

/-- Members are apart if those in a list are, and this has them all. -/
theorem apart_of_pairwise [Std.Symm P] {l : List EntityId}
    (hl : ∀ c, (t.get c).parent = some o → (t.get c).kind = k → c ∈ l)
    (h : l.Pairwise (t.Related P)) : t.Apart o k P :=
  fun b c hb hc hbKind hcKind hNe => h.forall (hl b hb hbKind) (hl c hc hcKind) hNe

/-- What encloses something that is being read is being read. -/
theorem Nested.parent_mem {os : List EntityId} {p : EntityId} (hReachable : t.Reachable)
    (h : t.Nested os) (ho : o ∈ os) (hParent : (t.get o).parent = some p) : p ∈ os := by
  induction h with
  | root =>
    rw [List.mem_singleton.mp ho, (wellFormed_of_reachable hReachable).rootParent] at hParent
    cases hParent
  | inner hInner _ _ _ _ _ ih =>
    rcases List.mem_cons.mp ho with rfl | ho
    · rw [hInner] at hParent
      cases hParent
      exact List.mem_cons_of_mem _ List.mem_cons_self
    · exact List.mem_cons_of_mem _ (ih ho)

end Tree

namespace Stage

variable {σ σ' : Stage} {t t' t'' : Tree} {o id : EntityId} {os : List EntityId} {closing : Bool}

/-- The cases of a union that were compared are all that it has. -/
theorem Sound.discriminated (h : σ.Sound) {i : EntityId}
    (hChecked : (σ.tree.get i).kind = .union → (σ.tree.get i).forward = false →
      σ.tree.Checked (σ.tree.cases i)) : σ.tree.Discriminated i := by
  have hFramed := (wellFormed_of_reachable h.reachable).toFramed
  have hCase : ∀ c, (σ.tree.get c).parent = some i → (σ.tree.get c).kind = .caseEntry →
      σ.tree.Checked (σ.tree.cases i) ∧ c ∈ σ.tree.cases i := by
    intro c hParent hKind
    have hUnion := (h.belongs c i hParent (by rw [hKind]; decide)).case hKind
    obtain ⟨p, hp, -, hOpen, -⟩ :=
      hFramed.parent c (hFramed.ne_root_of_parent hParent) (lt_size_of_parent hParent)
    rw [hParent] at hp
    cases hp
    refine ⟨hChecked hUnion (hOpen.elim (fun hRoot => ?_) And.right), List.mem_filter.mpr ⟨?_, ?_⟩⟩
    · rw [hRoot, hFramed.rootKind] at hUnion
      cases hUnion
    · exact h.mem_children hParent (by rw [hKind]; rfl) (by rw [hKind]; decide)
    · rw [hKind]
      rfl
  refine ⟨fun c d hParent hKind hd => ?_, fun b c hb hc hbKind hcKind hNe => ?_⟩
  · obtain ⟨hAll, hc⟩ := hCase c hParent hKind
    exact hAll.labels c hc d hd
  · obtain ⟨hAll, hb⟩ := hCase b hb hbKind
    exact hAll.apart.forall hb (hCase c hc hcKind).2 hNe

/-- Whether the values of entries and the labels of cases differ wherever they were compared. -/
structure Audited (σ : Stage) : Prop where
  entries : ∀ i, i ∉ σ.opened → σ.tree.Apart i .enumEntry Declaration.ValuesDiffer
  cases : ∀ i p, (σ.tree.get i).parent = some p → p ∉ σ.opened → σ.tree.Discriminated i

theorem audited_start (caseSensitive : Bool) : (start caseSensitive).Audited := by
  have hNone : ∀ i p, ((initial caseSensitive).get i).parent = some p → False := by
    intro i p hp
    have hRoot : i = root := Nat.lt_one_iff.mp (lt_size_of_parent hp)
    rw [hRoot] at hp
    cases hp
  exact
    { entries := fun i _ b _ hb => (hNone b i hb).elim
      cases := fun i p hp => (hNone i p hp).elim }

section Audit

variable (h : Audited ⟨t, o :: os, closing⟩) (hSound : Sound ⟨t, o :: os, closing⟩)

include h hSound

/-- What is kept wherever nothing is open differs ever after. -/
theorem Audited.keeps {opened : List EntityId} {closing' : Bool}
    (hOpened : ∀ b ∈ o :: os, b ∈ opened)
    (hParent : ∀ i, i < t.size → (t'.get i).parent = (t.get i).parent)
    (hKeeps : ∀ i, i ∉ o :: os → ∀ k, k ≠ .parameter → k ≠ .directive → Keeps i k t t') :
    Audited ⟨t', opened, closing'⟩ where
  entries i hi := (h.entries i fun hMem => hi (hOpened i hMem)).keeps
    (hKeeps i (fun hMem => hi (hOpened i hMem)) .enumEntry (by decide) (by decide))
  cases i p hp hNot := by
    by_cases hOld : i < t.size
    · rw [hParent i hOld] at hp
      -- A union that is open stands in something that is open.
      have hClosed : i ∉ o :: os := fun hMem =>
        hNot (hOpened p (hSound.stack.parent_mem hSound.reachable hMem hp))
      exact (h.cases i p hp fun hMem => hNot (hOpened p hMem)).keeps
        (hKeeps i hClosed .caseEntry (by decide) (by decide))
    · have hNone : ∀ c, (t.get c).parent ≠ some i := fun c hc =>
        hOld ((wellFormed_of_reachable hSound.reachable).parent_lt_size (lt_size_of_parent hc) hc)
      have hEmpty : t.Discriminated i :=
        ⟨fun c d hc => absurd hc (hNone c), fun b c hb => absurd hb (hNone b)⟩
      exact hEmpty.keeps (hKeeps i (fun hMem => hOld (hSound.stack.lt hSound.reachable i hMem))
        .caseEntry (by decide) (by decide))

theorem Audited.grow (hGrown : Grown o t t') : Audited ⟨t', o :: os, false⟩ := by
  refine h.keeps hSound (fun _ hb => hb) hGrown.adds.parent fun i hi k hParameter hDirective => ?_
  refine hGrown.adds.keeps hDirective fun c hFresh hKind hParent => ?_
  rcases hFresh.place with ⟨hPlace, -⟩ | ⟨hPlace, -⟩
  · rw [hPlace] at hParent
    cases hParent
    exact hi List.mem_cons_self
  · exact hParameter (hKind.symm.trans hPlace)

theorem Audited.enter (hEntered : Entered o id t t') : Audited ⟨t', id :: o :: os, false⟩ := by
  refine h.keeps hSound (fun _ hb => List.mem_cons_of_mem id hb) hEntered.adds.parent
    fun i hi k _ hDirective => ?_
  refine hEntered.adds.keeps hDirective ?_
  rintro c rfl - hParent
  rw [hEntered.parent] at hParent
  cases hParent
  exact hi List.mem_cons_self

/-- What is not open has no member that waits for its evaluation. -/
theorem Audited.evaluations (closing' : Bool) (hEvaluations : Evaluations t t') :
    Audited ⟨t', o :: os, closing'⟩ := by
  have hSettles := hEvaluations.settles
  have hOutline := hSettles.outline
  refine h.keeps hSound (fun _ hb => hb) (fun i _ => parent_congr hOutline i)
    fun i hi k hParameter _ c hParent hKind => ?_
  rw [parent_congr hOutline] at hParent
  rw [kind_congr hOutline] at hKind
  refine ⟨hParent, hKind, hSettles.refines.declaration? fun d hd => ?_⟩
  refine Decidable.byContradiction fun hWaits => ?_
  obtain ⟨-, b, hb, hUnder⟩ := hSound.waiting c d hd hWaits
  rcases hUnder with ⟨hPlace, -⟩ | ⟨hPlace, -⟩
  · rw [hPlace] at hParent
    cases hParent
    exact hi hb
  · exact hParameter (hKind.symm.trans hPlace)

omit hSound in
theorem Audited.close {closing' : Bool}
    (hEntries : t.Apart o .enumEntry Declaration.ValuesDiffer)
    (hCases : ∀ i, (t.get i).parent = some o → t.Discriminated i) : Audited ⟨t, os, closing'⟩ where
  entries i hi := by
    by_cases hSelf : i = o
    · rw [hSelf]
      exact hEntries
    · exact h.entries i (List.not_mem_cons_of_ne_of_not_mem hSelf hi)
  cases i p hp hNot := by
    by_cases hSelf : p = o
    · exact hCases i (hSelf ▸ hp)
    · exact h.cases i p hp (List.not_mem_cons_of_ne_of_not_mem hSelf hNot)

end Audit

end Stage

/-! ## Content -/

namespace Tree

open Stage

variable {t t' t'' : Tree} {o id : EntityId}

/-- Whether reading goes on in an entity, where all that was compared still differs. -/
structure ContinuesAudited (o : EntityId) (t t' : Tree) : Prop where
  continues : Continues o t t'
  audited : ∀ os, Stage.Sound ⟨t, o :: os, false⟩ → Audited ⟨t, o :: os, false⟩ →
    Audited ⟨t', o :: os, false⟩

/-- Whether the content of an entity is read, after which all that was compared in it differs. -/
structure ConcludesAudited (o : EntityId) (t t' : Tree) : Prop where
  concludes : Concludes o t t'
  audited : ∀ os, Stage.Sound ⟨t, o :: os, false⟩ → Audited ⟨t, o :: os, false⟩ →
    Audited ⟨t', os, false⟩

theorem Grown.continuesAudited (h : Grown o t t') : ContinuesAudited o t t' :=
  ⟨h.continues, fun _ hSound hAudited => hAudited.grow hSound h⟩

instance (o : EntityId) : Growth (ContinuesAudited o) where
  steps h := Course.steps h.continues
  refl t := ⟨Course.refl t, fun _ _ hAudited => hAudited⟩
  trans h h' := ⟨Course.trans h.continues h'.continues, fun os hSound hAudited =>
    h'.audited os (hSound.advances (h.continues os)) (h.audited os hSound hAudited)⟩
  noted h := (h.grown _).continuesAudited

theorem reading_audits : Reading ContinuesAudited ConcludesAudited where
  growth := fun _ => inferInstance
  continues := ContinuesAudited.continues
  grown := Grown.continuesAudited
  enters := fun h h' => ⟨h.continues h'.concludes, fun _ hSound hAudited =>
    h'.audited _ (hSound.enter h) (hAudited.enter hSound h)⟩
  closes := fun h h' => ⟨h.continues.concludes h'.concludes, fun os hSound hAudited =>
    h'.audited os (hSound.advances (h.continues os)) (h.audited os hSound hAudited)⟩

end Tree

namespace Parsing

open IdlReader.Stage

/-- At the end of an enumeration the values of its entries differ. -/
theorem entries_audits : ReadsEntries ConcludesAudited := by
  intro s owner hs hOwner hKind hNamed
  refine ((readsEntries_stages s owner hs hOwner hKind hNamed).and (C := Steps) ?_).mono
    fun _ _ _ _ hQ => ⟨hQ.1, hQ.2⟩
  have hBase : (s.tree.get owner).baseType? = some .enum := by
    unfold Entity.baseType?
    rw [hKind]
    rfl
  have hType := declarable_of_baseType? hNamed hBase (s.tree.get owner).name
  unfold readEnumeration
  refine Grows.entity (Grows.tokensLeft fun n => ?_)
  refine ((grows_entriesWithin n hs ⟨hOwner, hKind, rfl, hType⟩).within Course.steps).bind ?_
  rintro _ s₁ hs₁ hSteps₁ ⟨hGrown, -⟩
  refine Grows.entity ?_
  refine ((differ_checkEntries [] _ hs₁).within Course.steps).mono ?_
  rintro _ s₂ _ _ ⟨hEvaluations, -, hApart, -⟩ os hSound hAudited
  have hSound₁ := hSound.grow hGrown
  have hSound₂ := hSound₁.evaluate hEvaluations.settles
  refine ((hAudited.grow hSound hGrown).evaluations hSound₁ true
    hEvaluations).close (apart_of_pairwise ?_ hApart) ?_
  · intro c hParent hEntry
    have hMember := hSound₂.mem_children hParent (by rw [hEntry]; rfl) (by rw [hEntry]; decide)
    rw [← children_congr hEvaluations.settles.outline]
    exact hMember
  · intro i hParent
    have hEnum : (s₂.tree.get owner).kind = .enum := by
      rw [hEvaluations.kind, (hs.extends hGrown).kind owner hOwner.ready.lt]
      exact hKind
    -- What stands in an enumeration has no cases.
    refine hSound₂.discriminated fun hUnion _ => ?_
    have hEntry := (hSound₂.belongs i owner hParent (by rw [hUnion]; decide)).entry.mpr hEnum
    rw [hUnion] at hEntry
    cases hEntry

/-- At the end of other content the labels of the unions that stand in it differ. -/
theorem members_audits : ReadsMembers ConcludesAudited := by
  intro s owner hs h
  refine ((readsMembers_stages s owner hs h).and (C := Steps) ?_).mono
    fun _ _ _ _ hQ => ⟨hQ.1, hQ.2⟩
  refine ((differ_evaluateMembers hs owner).within Course.steps).mono ?_
  rintro _ s' _ _ ⟨hEvaluations, hChecked⟩ os hSound hAudited
  have hSound' := hSound.evaluate hEvaluations.settles
  refine (hAudited.evaluations hSound true hEvaluations).close ?_ ?_
  · intro b c hb _ hEntry
    have hEnum := (hSound'.belongs b owner hb (by rw [hEntry]; decide)).entry.mp hEntry
    rw [hEvaluations.kind] at hEnum
    exact absurd hEnum h.kind
  · intro i hParent
    refine hSound'.discriminated fun hUnion hFull => ?_
    have hLt := lt_size_of_parent hParent
    have hNe := (wellFormed_of_reachable hSound'.reachable).toFramed.ne_root_of_parent hParent
    have hMember : i ∈ (s'.tree.get owner).children := hSound'.reachable.listed
      ⟨⟨hLt, hSound'.calm i hNe hLt⟩, hFull, by rw [hUnion]; decide, by rw [hUnion]; decide⟩ hParent
    exact hChecked i hMember hUnion hFull

end Parsing

end IdlReader
