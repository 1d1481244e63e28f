import IdlReader.Proofs.Constant.Numeral
import IdlReader.Proofs.Tree.Announcement

/-!
# What the traits of a declaration tell

The traits of a declaration are its type, its dimensions, its value, its marks and its exceptions, one
behind the other. Read from their end they fall apart again: the lists of exceptions have ends, and
what stands in front of them is of one length for declarations of one kind, or stands behind the empty
value of an operation or an attribute. Only the type and the dimensions are not always kept apart.

* `Declaration.Agrees`: what the traits of declarations tell apart.
* `agrees_of_traits`: declarations of one kind and of the same traits agree.
-/

namespace IdlReader

open Trait

/-- The labels of a case, and the mark of the default. -/
def Declaration.labelTexts (d : Declaration) : List String :=
  d.labels.map joinTexts ++ if d.defaultCase then ["default"] else []

/-- Whether declarations of two trees agree in what is written and in what is known of them. Values
agree as they are displayed, which tells integers and texts. The expressions of dimensions agree if
there are equally many, or if the types name no definitions. -/
structure Declaration.Agrees (t u : Tree) (d e : Declaration) : Prop where
  typeText : d.type.text = e.type.text
  length : d.type.length = e.type.length
  decimals : d.type.decimals = e.type.decimals
  dimensions : d.dimensions.length = e.dimensions.length ∨
    d.type.references = [] ∧ e.type.references = [] →
      d.dimensions.map joinTexts = e.dimensions.map joinTexts
  assignment : d.assignmentText = e.assignmentText
  value : d.value.display = e.value.display
  constant : ∀ c c', d.value = .ofConstant c → e.value = .ofConstant c' → c.Alike c'
  readonly : d.readonly = e.readonly
  direction : d.direction = e.direction
  labels : d.labelTexts = e.labelTexts
  raises : d.raises.map t.scopedName = e.raises.map u.scopedName
  getRaises : d.getRaises.map t.scopedName = e.getRaises.map u.scopedName
  setRaises : d.setRaises.map t.scopedName = e.setRaises.map u.scopedName

/-- Lists fall apart at the last thing of a sort. -/
theorem split_last {α : Type} {p : α → Prop} {xs xs' ys ys' : List α} {a a' : α}
    (h : xs ++ a :: ys = xs' ++ a' :: ys') (ha : p a) (ha' : p a') (hys : ∀ y ∈ ys, ¬ p y)
    (hys' : ∀ y ∈ ys', ¬ p y) : xs = xs' ∧ a = a' ∧ ys = ys' := by
  rcases List.append_eq_append_iff.mp h with ⟨zs, hLong, hEq⟩ | ⟨zs, hLong, hEq⟩
  · cases zs with
    | nil =>
      obtain ⟨hHead, hTail⟩ := List.cons.inj hEq
      exact ⟨by rw [hLong, List.append_nil], hHead, hTail⟩
    | cons z zs =>
      obtain ⟨-, hTail⟩ := List.cons.inj hEq
      exact absurd ha' (hys a' (by rw [hTail]; simp))
  · cases zs with
    | nil =>
      obtain ⟨hHead, hTail⟩ := List.cons.inj hEq
      exact ⟨by rw [hLong, List.append_nil], hHead.symm, hTail.symm⟩
    | cons z zs =>
      obtain ⟨-, hTail⟩ := List.cons.inj hEq
      exact absurd ha (hys' a (by rw [hTail]; simp))

namespace Tree

variable {t u : Tree} {kind : EntityKind} {d e : Declaration} {entity entity' : EntityId → List Trait}

/-! ## Marks of a kind -/

theorem nameTraits_eq (t : Tree) (ids : List EntityId) :
    t.nameTraits ids = (ids.map t.scopedName).map Trait.text := by
  rw [List.map_map]
  rfl

theorem map_text_inj {xs ys : List String} (h : xs.map Trait.text = ys.map Trait.text) : xs = ys :=
  List.map_injective_iff.mpr (fun _ _ hText => Trait.text.inj hText) h

theorem flagTrait_inj {a b : Bool} {word : String} (h : flagTrait a word = flagTrait b word) :
    a = b := by
  revert h
  cases a <;> cases b <;> simp [flagTrait]

/-- The marks of a declaration of a kind: those that other kinds have are missing. -/
theorem particulars_eq (h : d.Suits kind) :
    t.particulars d =
      (if kind = .attr then flagTrait d.readonly "readonly"
          else flagTrait (kind == .const) "readonly") ++
        (if kind = .parameter then d.direction.toList.map (fun x => Trait.text x.name) else []) ++
        (if kind = .caseEntry then d.labelTexts.map Trait.text else []) ++
        (if kind = .operation then t.nameTraits d.raises else []) := by
  have hReadonly : flagTrait d.readonly "readonly" =
      if kind = .attr then flagTrait d.readonly "readonly"
      else flagTrait (kind == .const) "readonly" := by
    by_cases hKind : kind = .attr
    · rw [if_pos hKind]
    · rw [if_neg hKind, Bool.eq_iff_iff.mpr ((h.readonly hKind).trans beq_iff_eq.symm)]
  have hDirection : d.direction.toList.map (fun x => Trait.text x.name) =
      if kind = .parameter then d.direction.toList.map (fun x => Trait.text x.name) else [] := by
    by_cases hKind : kind = .parameter
    · rw [if_pos hKind]
    · rw [if_neg hKind, Option.not_isSome_iff_eq_none.mp (mt h.direction.mp hKind)]
      rfl
  have hLabels : d.labels.map (fun ts => Trait.text (joinTexts ts)) ++
      flagTrait d.defaultCase "default" =
        if kind = .caseEntry then d.labelTexts.map Trait.text else [] := by
    by_cases hKind : kind = .caseEntry
    · rw [if_pos hKind, Declaration.labelTexts, List.map_append, List.map_map]
      cases d.defaultCase <;> rfl
    · rw [if_neg hKind, (h.labels hKind).1, (h.labels hKind).2]
      rfl
  have hRaises : t.nameTraits d.raises =
      if kind = .operation then t.nameTraits d.raises else [] := by
    by_cases hKind : kind = .operation
    · rw [if_pos hKind]
    · rw [if_neg hKind, h.raises hKind]
      rfl
  rw [particulars, List.append_assoc _ (d.labels.map _), hLabels, ← hReadonly, ← hDirection, ← hRaises]

theorem length_labelTexts (h : d.Labelled) : d.labelTexts.length = 1 := by
  unfold Declaration.labelTexts
  rcases h with ⟨hLabels, hDefault⟩ | ⟨ts, hLabels, hDefault⟩
  · rw [hLabels, hDefault]
    rfl
  · rw [hLabels, hDefault]
    rfl

/-- But for attributes and operations, declarations of one kind have equally many marks. -/
theorem length_particulars_eq (hd : d.Suits kind) (he : e.Suits kind) (hAttr : kind ≠ .attr)
    (hOperation : kind ≠ .operation) (hd' : kind = .caseEntry → d.Labelled)
    (he' : kind = .caseEntry → e.Labelled) :
    (t.particulars d).length = (u.particulars e).length := by
  have hDirection : kind = .parameter → d.direction.toList.length = e.direction.toList.length := by
    intro hKind
    obtain ⟨x, hx⟩ := Option.isSome_iff_exists.mp (hd.direction.mpr hKind)
    obtain ⟨y, hy⟩ := Option.isSome_iff_exists.mp (he.direction.mpr hKind)
    rw [hx, hy]
    rfl
  rw [particulars_eq hd, particulars_eq he]
  simp only [if_neg hAttr, if_neg hOperation, List.length_append, List.append_nil]
  by_cases hParameter : kind = .parameter
  · simp only [if_pos hParameter, List.length_map, hDirection hParameter]
    simp [hParameter]
  · simp only [if_neg hParameter]
    by_cases hCase : kind = .caseEntry
    · simp only [if_pos hCase, List.length_map, length_labelTexts (hd' hCase),
        length_labelTexts (he' hCase)]
    · simp only [if_neg hCase]

theorem Direction_name_inj {a b : Direction} (h : a.name = b.name) : a = b := by
  revert h
  cases a <;> cases b <;> decide

/-- Declarations of one kind and of the same marks agree in them. -/
theorem particulars_inj (hd : d.Suits kind) (he : e.Suits kind)
    (h : t.particulars d = u.particulars e) :
    d.readonly = e.readonly ∧ d.direction = e.direction ∧ d.labelTexts = e.labelTexts ∧
      d.raises.map t.scopedName = e.raises.map u.scopedName := by
  rw [particulars_eq hd, particulars_eq he] at h
  have hNone : ∀ {d : Declaration}, d.Suits kind → kind ≠ .parameter → d.direction = none :=
    fun hSuits hKind => Option.not_isSome_iff_eq_none.mp (mt hSuits.direction.mp hKind)
  refine ⟨?_, ?_, ?_, ?_⟩
  · by_cases hKind : kind = .attr
    · subst hKind
      exact flagTrait_inj (by simpa using h)
    · rw [Bool.eq_iff_iff]
      exact (hd.readonly hKind).trans (he.readonly hKind).symm
  · by_cases hKind : kind = .parameter
    · subst hKind
      obtain ⟨x, hx⟩ := Option.isSome_iff_exists.mp (hd.direction.mpr rfl)
      obtain ⟨y, hy⟩ := Option.isSome_iff_exists.mp (he.direction.mpr rfl)
      rw [hx, hy] at h ⊢
      exact congrArg some (Direction_name_inj (by simpa [flagTrait] using h))
    · rw [hNone hd hKind, hNone he hKind]
  · by_cases hKind : kind = .caseEntry
    · subst hKind
      exact map_text_inj (by simpa [flagTrait] using h)
    · rw [Declaration.labelTexts, Declaration.labelTexts, (hd.labels hKind).1, (hd.labels hKind).2,
        (he.labels hKind).1, (he.labels hKind).2]
  · by_cases hKind : kind = .operation
    · subst hKind
      refine map_text_inj ?_
      rw [← nameTraits_eq, ← nameTraits_eq]
      simpa [flagTrait] using h
    · rw [hd.raises hKind, he.raises hKind]
      rfl

/-! ## Types -/

mutual

/-- The traits of a type that names no definition end with a number. -/
theorem traits_of_references (entity : EntityId → List Trait) (type : DeclaredType)
    (h : type.references = []) :
    ∃ us n, type.traits entity = us ++ [Trait.number n] := by
  match type, h with
  | ⟨_, written, definition, length, decimals, key, value⟩, h =>
    simp only [DeclaredType.references, List.append_eq_nil_iff] at h
    obtain ⟨⟨hDefinition, hKey⟩, hValue⟩ := h
    rw [DeclaredType.traits]
    cases definition with
    | some => cases hDefinition
    | none =>
      rcases optionalTraits_of_references entity value hValue with hNil | ⟨us, n, hEq⟩
      · rcases optionalTraits_of_references entity key hKey with hNil' | ⟨us, n, hEq⟩
        · rw [hNil, hNil']
          exact ⟨[.text written, .number length], decimals, rfl⟩
        · rw [hNil, hEq]
          exact ⟨.text written :: .number length :: .number decimals :: us, n, by simp⟩
      · rw [hEq]
        exact ⟨.text written :: .number length :: .number decimals ::
          (DeclaredType.optionalTraits entity key ++ us), n, by simp⟩

theorem optionalTraits_of_references (entity : EntityId → List Trait) (type : Option DeclaredType)
    (h : DeclaredType.optionReferences type = []) :
    DeclaredType.optionalTraits entity type = [] ∨
      ∃ us n, DeclaredType.optionalTraits entity type = us ++ [Trait.number n] := by
  match type, h with
  | none, _ => exact Or.inl rfl
  | some type, h => exact Or.inr (traits_of_references entity type h)

end

theorem traits_cons (entity : EntityId → List Trait) (type : DeclaredType) :
    ∃ us, type.traits entity =
      .text type.text :: .number type.length :: .number type.decimals :: us := by
  cases type
  exact ⟨_, rfl⟩

/-- Where types and dimensions fall apart. -/
theorem dimensions_eq
    (h : d.type.traits entity ++ d.dimensions.map (fun ts => Trait.text (joinTexts ts)) =
      e.type.traits entity' ++ e.dimensions.map (fun ts => Trait.text (joinTexts ts)))
    (hEither : d.dimensions.length = e.dimensions.length ∨
      d.type.references = [] ∧ e.type.references = []) :
    d.dimensions.map joinTexts = e.dimensions.map joinTexts := by
  refine map_text_inj ?_
  rw [List.map_map, List.map_map]
  rcases hEither with hLength | ⟨hNone, hNone'⟩
  · exact (List.append_inj' h (by rw [List.length_map, List.length_map, hLength])).2
  · obtain ⟨us, n, hType⟩ := traits_of_references entity d.type hNone
    obtain ⟨us', n', hType'⟩ := traits_of_references entity' e.type hNone'
    rw [hType, hType', List.append_assoc, List.append_assoc] at h
    refine (split_last (p := fun x => ∃ n, x = .number n) h ⟨n, rfl⟩ ⟨n', rfl⟩ ?_ ?_).2.2
    all_goals simp

/-! ## Declarations -/

/-- The parts of a declaration of a kind, cut at the ends of the lists and around its value. -/
theorem closing_inj (hd : d.Suits kind) (he : e.Suits kind)
    (hd' : kind = .caseEntry → d.Labelled) (he' : kind = .caseEntry → e.Labelled)
    (hValue : kind = .attr ∨ kind = .operation → d.value.display = "" ∧ e.value.display = "")
    (hRaises : ∀ x ∈ d.raises, t.scopedName x ≠ "") (hRaises' : ∀ x ∈ e.raises, u.scopedName x ≠ "")
    {ts us : List Trait}
    (h : ts ++ ([Trait.text d.assignmentText, Trait.text d.value.display] ++ t.particulars d) =
      us ++ ([Trait.text e.assignmentText, Trait.text e.value.display] ++ u.particulars e)) :
    ts = us ∧ d.assignmentText = e.assignmentText ∧ d.value.display = e.value.display ∧
      t.particulars d = u.particulars e := by
  by_cases hKind : kind = .attr ∨ kind = .operation
  · obtain ⟨hEmpty, hEmpty'⟩ := hValue hKind
    rw [hEmpty, hEmpty'] at h ⊢
    -- None of the marks is the empty text that stands for the value.
    have hMarks : ∀ {t : Tree} {d : Declaration}, d.Suits kind →
        (∀ x ∈ d.raises, t.scopedName x ≠ "") → ∀ x ∈ t.particulars d, x ≠ .text "" := by
      intro t d hSuits hNames x hx hEq
      rw [particulars_eq hSuits, hEq] at hx
      rcases hKind with rfl | rfl
      · revert hx
        cases d.readonly <;> simp [flagTrait]
      · simp only [flagTrait, nameTraits, List.mem_append] at hx
        obtain ⟨y, hy, hName⟩ : ∃ y ∈ d.raises, Trait.text (t.scopedName y) = .text "" := by
          simpa using hx
        exact hNames y hy (Trait.text.inj hName)
    have hSplit : ts ++ [.text d.assignmentText] ++ .text "" :: t.particulars d =
        us ++ [.text e.assignmentText] ++ .text "" :: u.particulars e := by
      simpa using h
    obtain ⟨hFront, -, hBehind⟩ := split_last (p := (· = Trait.text "")) hSplit rfl rfl
      (hMarks hd hRaises) (hMarks he hRaises')
    obtain ⟨hTypes, hAssignment⟩ := List.append_inj' hFront rfl
    exact ⟨hTypes, Trait.text.inj (List.singleton_inj.mp hAssignment), rfl, hBehind⟩
  · rw [not_or] at hKind
    have hLength := length_particulars_eq (t := t) (u := u) hd he hKind.1 hKind.2 hd' he'
    obtain ⟨hTypes, hBehind⟩ := List.append_inj' h (by simp [hLength])
    obtain ⟨hValues, hParticulars⟩ := List.append_inj hBehind rfl
    simp only [List.cons.injEq, Trait.text.injEq, and_true] at hValues
    exact ⟨hTypes, hValues.1, hValues.2, hParticulars⟩

/-- The traits of a declaration, put together from their end. -/
theorem declarationTraits_eq_lists (t : Tree) (entity : EntityId → List Trait) (d : Declaration) :
    t.declarationTraits entity d =
      d.type.traits entity ++ d.dimensions.map (fun ts => Trait.text (joinTexts ts)) ++
        ([Trait.text d.assignmentText, Trait.text d.value.display] ++ t.particulars d) ++
        Trait.stop :: t.nameTraits d.getRaises ++ Trait.stop :: t.nameTraits d.setRaises ++
        [Trait.stop] := by
  simp [declarationTraits_eq, closingTraits]

/-- Declarations of one kind and of the same traits agree. -/
theorem agrees_of_traits (hd : d.Suits kind) (he : e.Suits kind)
    (hd' : kind = .caseEntry → d.Labelled) (he' : kind = .caseEntry → e.Labelled)
    (hValue : kind = .attr ∨ kind = .operation → d.value.display = "" ∧ e.value.display = "")
    (hRaises : ∀ x ∈ d.raises, t.scopedName x ≠ "") (hRaises' : ∀ x ∈ e.raises, u.scopedName x ≠ "")
    (h : t.declarationTraits entity d = u.declarationTraits entity' e) : d.Agrees t u e := by
  rw [declarationTraits_eq_lists, declarationTraits_eq_lists] at h
  have hNames : ∀ {t : Tree} {ids : List EntityId}, ∀ y ∈ t.nameTraits ids, y ≠ Trait.stop := by
    intro t ids y hy hStop
    rw [nameTraits_eq, hStop] at hy
    simp at hy
  -- The lists of exceptions are cut off from the end.
  obtain ⟨hGet, -, hSet⟩ :=
    split_last (p := (· = Trait.stop)) (List.append_cancel_right h) rfl rfl hNames hNames
  obtain ⟨hRest, -, hGet⟩ := split_last (p := (· = Trait.stop)) hGet rfl rfl hNames hNames
  obtain ⟨hTypes, hAssignment, hDisplay, hParticulars⟩ :=
    closing_inj hd he hd' he' hValue hRaises hRaises' hRest
  obtain ⟨hReadonly, hDirection, hLabels, hRaisesEq⟩ := particulars_inj hd he hParticulars
  obtain ⟨us, hType⟩ := traits_cons entity d.type
  obtain ⟨us', hType'⟩ := traits_cons entity' e.type
  have hHead := hTypes
  rw [hType, hType'] at hHead
  simp only [List.cons_append, List.cons.injEq, Trait.text.injEq, Trait.number.injEq] at hHead
  exact
    { typeText := hHead.1
      length := hHead.2.1
      decimals := hHead.2.2.1
      dimensions := dimensions_eq hTypes
      assignment := hAssignment
      value := hDisplay
      constant := fun c c' hc hc' => Constant.alike_of_display
        (by rw [hc, hc'] at hDisplay; exact hDisplay)
      readonly := hReadonly
      direction := hDirection
      labels := hLabels
      raises := hRaisesEq
      getRaises := map_text_inj (by rw [← nameTraits_eq, ← nameTraits_eq]; exact hGet)
      setRaises := map_text_inj (by rw [← nameTraits_eq, ← nameTraits_eq]; exact hSet) }

end Tree

end IdlReader
