import Mathlib.Data.List.Nodup
import IdlReader.Proofs.Document.Reachable
import IdlReader.Proofs.Stage.Distinct

/-!
# Enumerations and unions in documents

* `enumerations`: the numbers of the entries of an enumeration.
* `enumerations_wrapped`: an enumeration that goes on behind the greatest number.
* `unions`: the labels of the cases of a union.
-/

namespace IdlReader.Document

open IdlReader.Tree IdlReader.Stage Parsing

variable {env : Environment} {files : FileTree} {input : Input} {d : Document}

/-- Wherever values or labels were compared, they differ. -/
theorem audited_of_read (h : read env files input = .ok d) : Audited ⟨d.tree, [], false⟩ := by
  refine of_read (P := fun d => Audited ⟨d.tree, [], false⟩) (fun stream hStream d hd => ?_) h
  obtain ⟨s, hRun, rfl⟩ := ofStream_eq_ok.mp hd
  have hBody := body_initial (env.enables .caseSensitiveNames)
  obtain ⟨-, -, hConcludes⟩ := reads_readRoot reading_audits entries_audits members_audits
    (sound_session env hStream) hBody _ s hRun
  exact hConcludes.audited [] (sound_start _) (audited_start _)

theorem sound_of_read (h : read env files input = .ok d) : Stage.Sound ⟨d.tree, [], false⟩ :=
  (sound_start _).advances (stages_of_read h)

/-! ## Enumerations -/

/-- What stands before an element of a list without duplicates is what comes before its place. -/
theorem takeWhile_eq_take {α : Type} [DecidableEq α] {l : List α} (h : l.Nodup) {i : Nat} {a : α}
    (ha : l[i]? = some a) : l.takeWhile (· ≠ a) = l.take i := by
  induction l generalizing i with
  | nil => cases ha
  | cons b l ih =>
    obtain ⟨hNot, hRest⟩ := List.nodup_cons.mp h
    cases i with
    | zero =>
      cases ha
      simp
    | succ i =>
      have hMember : a ∈ l := List.mem_of_getElem? ha
      have hNe : b ≠ a := fun hEq => hNot (hEq ▸ hMember)
      rw [List.takeWhile_cons, if_pos (decide_eq_true hNe), List.take_succ_cons, ih hRest ha]

/-- Whether a declaration has a number as its value. -/
def Numbered (t : Tree) (c : EntityId) (v : Int) : Prop :=
  ∃ e, ∃ hv : IntegerKind.int32.Holds v,
    (t.get c).declaration? = some e ∧ e.value = .ofConstant (.integer .int32 v hv)

theorem Numbered.unique {t : Tree} {c : EntityId} {v w : Int} (h : Numbered t c v)
    (h' : Numbered t c w) : v = w := by
  obtain ⟨e, hv, he, hValue⟩ := h
  obtain ⟨e', hw, he', hValue'⟩ := h'
  cases he.symm.trans he'
  cases hValue.symm.trans hValue'
  rfl

/-- Numbers whose values were compared differ. -/
theorem Numbered.ne {t : Tree} {b c : EntityId} {v w : Int} (hb : Numbered t b v)
    (hc : Numbered t c w) (h : t.Related Declaration.ValuesDiffer b c) : v ≠ w := by
  obtain ⟨e, hv, he, hValue⟩ := hb
  obtain ⟨e', hw, he', hValue'⟩ := hc
  have hDiffers := h e e' he he' _ _ (by rw [hValue]; rfl) (by rw [hValue']; rfl)
  exact fun hSame => hDiffers.integer rfl rfl (congrArg some hSame)

/-- The number of a value that was computed. -/
theorem number_of_value {v w : Int} {hv : IntegerKind.int32.Holds v}
    (h : ValueNode.ofConstant (.integer .int32 v hv) = .ofConstant (.ofInt .int32 w)) :
    v = IntegerKind.int32.wrap w := by
  have hSame := congrArg (fun x => x.constant?.bind Constant.integer?) h
  exact Option.some.inj hSame

theorem numbered_of_read (h : read env files input = .ok d) {c : EntityId}
    (hEntry : (d.tree.get c).kind = .enumEntry) (hLt : c < d.tree.size) :
    ∃ v, Numbered d.tree c v := by
  have hSome := (reachable_of_read h).isDeclaration hLt
  rw [hEntry] at hSome
  obtain ⟨e, he⟩ := Option.isSome_iff_exists.mp hSome
  obtain ⟨σ, hEvaluated⟩ := exists_evaluated (stages_of_read h) (c := c) (he ▸ rfl)
  obtain ⟨a, ha, hKind⟩ := hEvaluated.entry he hEntry
  cases a with
  | integer k v hv =>
    cases hKind
    exact ⟨v, e, hv, he, ha⟩
  | real k x => cases hKind
  | text k s => cases hKind

/-- The entries of an enumeration hold different integers of 32 bits. An entry with an assignment
holds the integer that its tokens give in every stage in which it may have been evaluated. One
without is zero if it is the first, and otherwise one more than the entry before it, unless this is
the greatest integer of 32 bits, which is followed by the least. -/
theorem enumerations (h : read env files input = .ok d) {i : EntityId}
    (hEnum : (d.tree.get i).kind = .enum) :
    ∃ vs : List Int, vs.length = (d.tree.get i).children.length ∧ vs.Nodup ∧
      ∀ (n : Nat) c v, (d.tree.get i).children[n]? = some c → vs[n]? = some v →
        -2 ^ 31 ≤ v ∧ v < 2 ^ 31 ∧ (d.tree.get c).kind = .enumEntry ∧
        ∃ e, (d.tree.get c).declaration? = some e ∧ e.value = .ofConstant (.ofInt .int32 v) ∧
          (∃ σ, Stage.Evaluated d.tree c σ) ∧
          (e.assignment ≠ [] → ∀ σ, Stage.Evaluated d.tree c σ →
            ∃ a, σ.Yields c e.assignment (.known a) ∧ a.integer? = some v) ∧
          (e.assignment = [] → (n = 0 → v = 0) ∧ ∀ w, 0 < n → vs[n - 1]? = some w →
            v = if w = 2 ^ 31 - 1 then -2 ^ 31 else w + 1) := by
  have hSound := sound_of_read h
  obtain ⟨hNodup, hMembers⟩ := hSound.reachable.children i
  have hEach : ∀ c ∈ (d.tree.get i).children, ∃ v, Numbered d.tree c v := fun c hc =>
    numbered_of_read h (hSound.kind_entry hEnum hc) (hMembers c hc).1.1
  choose! number hNumber using hEach
  refine ⟨(d.tree.get i).children.map number, List.length_map _, ?_, fun n c v hc hv => ?_⟩
  · refine List.Nodup.map_on (fun b hb c hc hSame => ?_) hNodup
    refine Decidable.byContradiction fun hNe => ?_
    have hApart := (audited_of_read h).entries i List.not_mem_nil b c (hMembers b hb).2.1
      (hMembers c hc).2.1 (hSound.kind_entry hEnum hb) (hSound.kind_entry hEnum hc) hNe
    exact (hNumber b hb).ne (hNumber c hc) hApart hSame
  · have hMember := List.mem_of_getElem? hc
    have hEntry := hSound.kind_entry hEnum hMember
    rw [List.getElem?_map, hc] at hv
    cases hv
    obtain ⟨e, hv, he, hValue⟩ := hNumber c hMember
    obtain ⟨σ, hEvaluated⟩ := exists_evaluated (stages_of_read h) (c := c) (he ▸ rfl)
    refine ⟨hv.1, Int.lt_of_le_sub_one hv.2, hEntry, e, he, ?_, ⟨σ, hEvaluated⟩, ?_, ?_⟩
    · rw [hValue, Constant.integer_eq_ofInt]
    · intro hAssigned σ' hEvaluated'
      obtain ⟨a, b, hYields, hb, -, hSame⟩ := hEvaluated'.assigned he hEntry hAssigned
      cases hValue.symm.trans hb
      exact ⟨a, hYields, hSame.symm⟩
    · intro hNone
      have hFollows := hEvaluated.follows he hEntry hNone (hMembers c hMember).2.1
      rw [takeWhile_eq_take hNodup hc] at hFollows
      cases n with
      | zero =>
        have hZero : e.value = .ofConstant (.ofInt .int32 0) := hFollows
        refine ⟨fun _ => number_of_value (hValue.symm.trans hZero), ?_⟩
        exact fun w hPositive => absurd hPositive (Nat.lt_irrefl 0)
      | succ n =>
        refine ⟨fun hZero => absurd hZero (Nat.succ_ne_zero n), fun w _ hw => ?_⟩
        rw [Nat.add_sub_cancel, List.getElem?_map] at hw
        obtain ⟨b, hb, rfl⟩ := Option.map_eq_some_iff.mp hw
        rw [List.getLast?_take, if_neg (Nat.succ_ne_zero n), Nat.add_sub_cancel, hb,
          Option.some_or] at hFollows
        obtain ⟨e', w, hw, he', hValue', hNext⟩ := hFollows
        rw [(hNumber b (List.mem_of_getElem? hb)).unique ⟨e', hw, he', hValue'⟩,
          ← Constant.wrap_int32_succ hw]
        exact number_of_value (hValue.symm.trans hNext)

/-- In this document an entry refers to one behind it. -/
theorem enumerations_forward : ∃ (d : Document) (vs : List Int),
    read {} ⟨[], []⟩ (.text "enum E \x7b a, b = d + 1, c, d = 5 \x7d;") = .ok d ∧
    (d.tree.get 1).kind = .enum ∧ (d.tree.get 1).children = [2, 3, 4, 5] ∧
    vs = [0, 6, 7, 5] ∧ vs.Nodup ∧
    ∀ e, (d.tree.get 4).declaration? = some e → e.assignment = [] := by
  have hRead : (match read {} ⟨[], []⟩ (.text "enum E \x7b a, b = d + 1, c, d = 5 \x7d;") with
      | .ok d => (d.tree.get 1).kind == .enum && (d.tree.get 1).children == [2, 3, 4, 5] &&
          ([2, 3, 4, 5].map fun c => (d.tree.get c).declaration?.bind fun e =>
            e.value.constant?.bind Constant.integer?) == [some 0, some 6, some 7, some 5] &&
          ((d.tree.get 4).declaration?.map fun e => e.assignment.isEmpty) == some true
      | .error _ => false) = true := by decide +kernel
  split at hRead
  · rename_i d hd
    simp only [Bool.and_eq_true, beq_iff_eq, List.map_cons, List.map_nil, List.cons.injEq,
      and_true] at hRead
    obtain ⟨⟨⟨hKind, hChildren⟩, h₀, h₁, h₂, h₃⟩, hNone⟩ := hRead
    obtain ⟨vs, hLength, hNodup, hEntries⟩ := enumerations hd hKind
    rw [hChildren] at hLength hEntries
    have hValue : ∀ {n : Nat} {c : EntityId} {v x : Int}, [2, 3, 4, 5][n]? = some c → vs[n]? = some v →
        ((d.tree.get c).declaration?.bind fun e => e.value.constant?.bind Constant.integer?) =
          some x → v = x := by
      intro n c v x hc hv hx
      obtain ⟨hLeast, hGreatest, -, e, he, hValue, -⟩ := hEntries n c v hc hv
      rw [he, Option.bind_some, hValue] at hx
      cases hx
      exact (IntegerKind.wrap_of_holds ⟨hLeast, Int.le_sub_one_of_lt hGreatest⟩).symm
    match vs, hLength with
    | [v₀, v₁, v₂, v₃], _ =>
      refine ⟨d, [v₀, v₁, v₂, v₃], hd, hKind, hChildren, ?_, hNodup, fun e he => ?_⟩
      · rw [hValue (n := 0) rfl rfl h₀, hValue (n := 1) rfl rfl h₁, hValue (n := 2) rfl rfl h₂,
          hValue (n := 3) rfl rfl h₃]
      · rw [he] at hNone
        exact List.isEmpty_iff.mp (Option.some.inj hNone)
  · cases hRead

/-- The least integer of 32 bits follows the greatest one: in this document the second entry is not
one more than the first one. -/
theorem enumerations_wrapped :
    ¬ ∀ d, read {} ⟨[], []⟩ (.text "enum E \x7b A = 2147483647, B \x7d;") = .ok d →
      ∀ i b c e e' v w, (d.tree.get i).kind = .enum → (d.tree.get i).children = [b, c] →
        (d.tree.get b).declaration? = some e → (d.tree.get c).declaration? = some e' →
        e'.assignment = [] → e.value.constant?.bind Constant.integer? = some v →
        e'.value.constant?.bind Constant.integer? = some w → w = v + 1 := by
  intro hClaim
  have hRead : ((read {} ⟨[], []⟩ (.text "enum E \x7b A = 2147483647, B \x7d;")).toOption.any fun d =>
      (d.tree.get 1).kind == .enum && (d.tree.get 1).children == [2, 3] &&
        (d.tree.get 2).declaration?.any fun e => (d.tree.get 3).declaration?.any fun e' =>
          e'.assignment.isEmpty && e.value.constant?.bind Constant.integer? == some 2147483647 &&
            e'.value.constant?.bind Constant.integer? == some (-2147483648)) = true := by
    decide +kernel
  obtain ⟨d, hd, hEntries⟩ := any_toOption hRead
  simp only [Bool.and_eq_true, beq_iff_eq, Option.any_eq_true, List.isEmpty_iff] at hEntries
  obtain ⟨⟨hKind, hChildren⟩, e, he, e', he', ⟨hNone, hFirst⟩, hSecond⟩ := hEntries
  have hNext := hClaim d hd 1 2 3 e e' _ _ hKind hChildren he he' hNone hFirst hSecond
  exact absurd hNext (by decide)

/-! ## Unions -/

/-- The cases of a union are its members of this kind. -/
theorem mem_cases {t : Tree} (h : t.Reachable) {i c : EntityId} (hc : c ∈ t.cases i) :
    (t.get c).parent = some i ∧ (t.get c).kind = .caseEntry := by
  obtain ⟨hMember, hKind⟩ := List.mem_filter.mp hc
  exact ⟨(h.parent_of_mem_children hMember).2.1, List.mem_singleton.mp (List.contains_iff_mem.mp hKind)⟩

/-- What a case of a union holds. -/
theorem case_of_read (h : read env files input = .ok d) {i c : EntityId}
    (hParent : (d.tree.get c).parent = some i) (hKind : (d.tree.get c).kind = .caseEntry) :
    ∃ e u type k, (d.tree.get c).declaration? = some e ∧ (d.tree.get i).definition? = some u ∧
      u.switchType = some type ∧ type.kind? = some (.integer k) ∧
      (∀ a ∈ e.caseValues, a.kind = .integer k) ∧ (∃ σ, Stage.Evaluated d.tree c σ) ∧
      ∀ σ, Stage.Evaluated d.tree c σ → List.Forall₂ (σ.Labels c (.integer k))
        (e.labels.filter fun label => !label.isEmpty) e.caseValues := by
  have hSome := (reachable_of_read h).isDeclaration (lt_size_of_parent hParent)
  rw [hKind] at hSome
  obtain ⟨e, he⟩ := Option.isSome_iff_exists.mp hSome
  obtain ⟨σ, hEvaluated⟩ := exists_evaluated (stages_of_read h) (c := c) (he ▸ rfl)
  obtain ⟨u, type, k, hu, hType, hSwitch, -⟩ := hEvaluated.labelled he hKind hParent
  refine ⟨e, u, type, k, he, hu, hType, hSwitch, ?_, ⟨σ, hEvaluated⟩, fun σ' hEvaluated' => ?_⟩
  · obtain ⟨u', type', k', hu', hType', hSwitch', hKinds⟩ := hEvaluated.labels he hKind hParent
    cases hu.symm.trans hu'
    cases hType.symm.trans hType'
    cases hSwitch.symm.trans hSwitch'
    exact hKinds
  · obtain ⟨u', type', k', hu', hType', hSwitch', hLabels⟩ := hEvaluated'.labelled he hKind hParent
    cases hu.symm.trans hu'
    cases hType.symm.trans hType'
    cases hSwitch.symm.trans hSwitch'
    exact hLabels

/-- The cases of a union are all that stand in it. Each has the values that its labels give as
integers of the kind of the discriminator, in every stage in which it may have been evaluated. The
values of all cases are different, and one case at most is the default. -/
theorem unions (h : read env files input = .ok d) (i : EntityId) :
    (∀ c, (d.tree.get c).parent = some i → (d.tree.get c).kind = .caseEntry →
      c ∈ d.tree.cases i) ∧
    (∀ c ∈ d.tree.cases i, ∃ e u type k, (d.tree.get c).declaration? = some e ∧
      (d.tree.get i).definition? = some u ∧ u.switchType = some type ∧
      type.kind? = some (.integer k) ∧ (∀ a ∈ e.caseValues, a.kind = .integer k) ∧
      (∃ σ, Stage.Evaluated d.tree c σ) ∧ ∀ σ, Stage.Evaluated d.tree c σ →
        List.Forall₂ (σ.Labels c (.integer k)) (e.labels.filter fun label => !label.isEmpty)
          e.caseValues) ∧
    ((d.tree.cases i).flatMap fun c =>
      ((d.tree.get c).declaration?.map Declaration.caseValues).getD []).Nodup ∧
    ∀ b ∈ d.tree.cases i, ∀ c ∈ d.tree.cases i,
      (d.tree.get b).declaration?.map Declaration.defaultCase = some true →
      (d.tree.get c).declaration?.map Declaration.defaultCase = some true → b = c := by
  have hSound := sound_of_read h
  have hReachable := hSound.reachable
  have hCase := fun {c} (hc : c ∈ d.tree.cases i) => mem_cases hReachable hc
  -- A union with a case stands in something.
  have hDiscriminated : ∀ c ∈ d.tree.cases i, d.tree.Discriminated i := by
    intro c hc
    obtain ⟨hParent, hKind⟩ := hCase hc
    have hFramed := (wellFormed_of_reachable hReachable).toFramed
    have hUnion := (hSound.belongs c i hParent (by rw [hKind]; decide)).case hKind
    have hNe : i ≠ root := by
      rintro rfl
      rw [hFramed.rootKind] at hUnion
      cases hUnion
    have hLt := hFramed.parent_lt_size (lt_size_of_parent hParent) hParent
    obtain ⟨p, hp, -⟩ := hFramed.parent i hNe hLt
    exact (audited_of_read h).cases i p hp List.not_mem_nil
  refine ⟨fun c hParent hKind => ?_, fun c hc => case_of_read h (hCase hc).1 (hCase hc).2, ?_, ?_⟩
  · exact List.mem_filter.mpr ⟨hSound.mem_children hParent (by rw [hKind]; rfl)
      (by rw [hKind]; decide), by rw [hKind]; rfl⟩
  · refine List.nodup_flatMap.mpr ⟨fun c hc => ?_, ?_⟩
    · obtain ⟨e, u, type, k, he, hu, hType, hSwitch, hKinds, -⟩ :=
        case_of_read h (hCase hc).1 (hCase hc).2
      rw [he]
      refine ((hDiscriminated c hc).labels c e (hCase hc).1 (hCase hc).2 he).imp_of_mem
        fun ha hb hDiffers hSame => ?_
      exact hDiffers.integer (hKinds _ ha) (hKinds _ hb) (congrArg Constant.integer? hSame)
    · refine ((hReachable.children i).1.filter _).pairwise_of_forall_ne fun b hb c hc hNe => ?_
      obtain ⟨e, u, type, k, he, hu, hType, hSwitch, hKinds, -⟩ :=
        case_of_read h (hCase hb).1 (hCase hb).2
      obtain ⟨e', u', type', k', he', hu', hType', hSwitch', hKinds', -⟩ :=
        case_of_read h (hCase hc).1 (hCase hc).2
      cases hu.symm.trans hu'
      cases hType.symm.trans hType'
      cases hSwitch.symm.trans hSwitch'
      have hDiffer := (hDiscriminated b hb).apart b c (hCase hb).1 (hCase hc).1 (hCase hb).2
        (hCase hc).2 hNe e e' he he'
      change List.Disjoint _ _
      dsimp only
      rw [he, he']
      intro a ha ha'
      exact (hDiffer.labels a ha a ha').integer (hKinds a ha) (hKinds a ha) rfl
  · intro b hb c hc hbDefault hcDefault
    refine Decidable.byContradiction fun hNe => ?_
    obtain ⟨e, he, hDefault⟩ := Option.map_eq_some_iff.mp hbDefault
    obtain ⟨e', he', hDefault'⟩ := Option.map_eq_some_iff.mp hcDefault
    have hDiffer := (hDiscriminated b hb).apart b c (hCase hb).1 (hCase hc).1 (hCase hb).2
      (hCase hc).2 hNe e e' he he'
    rw [hDiffer.default hDefault] at hDefault'
    cases hDefault'

/-- In this document the union stands in a module and refers to a constant before it. -/
theorem unions_module : ∃ d : Document,
    read {} ⟨[], []⟩ (.text ("const long N = 1; module M \x7b union U switch (octet) " ++
      "\x7b case N: long a; case N + 1: case -6: short b; default: octet c; \x7d; \x7d;")) = .ok d ∧
    (d.tree.get 3).kind = .union ∧ d.tree.cases 3 = [4, 5, 6, 7] ∧
    (d.tree.get 7).declaration?.map Declaration.defaultCase = some true ∧
    (d.tree.get 6).declaration?.map Declaration.defaultCase = some false ∧
    ([4, 5, 6, 7].flatMap fun c =>
      ((d.tree.get c).declaration?.map Declaration.caseValues).getD []).Nodup ∧
    [4, 5, 6, 7].map (fun c => ((d.tree.get c).declaration?.map fun e =>
      e.caseValues.map Constant.integer?)) = [some [some 1], some [some 2], some [some 250], some []] := by
  have hRead : (match read {} ⟨[], []⟩
        (.text ("const long N = 1; module M \x7b union U switch (octet) " ++
          "\x7b case N: long a; case N + 1: case -6: short b; default: octet c; \x7d; \x7d;")) with
      | .ok d => (d.tree.get 3).kind == .union && d.tree.cases 3 == [4, 5, 6, 7] &&
          (d.tree.get 7).declaration?.map Declaration.defaultCase == some true &&
          (d.tree.get 6).declaration?.map Declaration.defaultCase == some false &&
          [4, 5, 6, 7].map (fun c => ((d.tree.get c).declaration?.map fun e =>
            e.caseValues.map Constant.integer?)) ==
              [some [some 1], some [some 2], some [some 250], some []]
      | .error _ => false) = true := by decide +kernel
  split at hRead
  · rename_i d hd
    simp only [Bool.and_eq_true, beq_iff_eq] at hRead
    obtain ⟨⟨⟨⟨hKind, hCases⟩, hDefault⟩, hOther⟩, hValues⟩ := hRead
    obtain ⟨-, -, hNodup, -⟩ := unions hd 3
    rw [hCases] at hNodup
    exact ⟨d, hd, hKind, hCases, hDefault, hOther, hNodup, hValues⟩
  · cases hRead

end IdlReader.Document
