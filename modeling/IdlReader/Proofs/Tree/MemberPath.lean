import IdlReader.Proofs.Text.Path
import IdlReader.Proofs.Tree.Inheritance
import IdlReader.Proofs.Tree.Resolution
import IdlReader.Proofs.Tree.ScopedName

/-!
# Paths to members

The name of a member behind a scoped name leads to a member of the type of a declaration, or as a
path to the member of its value. Both start at what the scoped name leads to, and both take names
for the same that the tree does.

* `sameName_iff`: which names of members are the same.
* `findValue_path`, `WellFormed.findValue_join_member`: where paths lead.
* `lookupMember_field`: a field is found under its name.
-/

namespace IdlReader

/-- Paths of a tree take names for the same exactly if they have their key in common. -/
theorem sameName_iff {t : Tree} {a b : String} (ha : IsName a) (hb : IsName b) :
    sameName t.caseSensitive a b = true ↔ t.key a = t.key b := by
  have hLower : ∀ {s : String}, IsName s →
      s.toList.map Tree.lowerCase = s.toList.map Char.toLower := by
    intro s hs
    refine List.map_congr_left fun c hc => ?_
    unfold Tree.lowerCase
    refine if_neg fun hKelvin => ?_
    have hWord := hs.isWord c hc
    have hEq : c = Char.ofNat 0x212A := by
      rw [← hKelvin, Char.ofNat_toNat]
    rw [hEq] at hWord
    revert hWord
    decide
  unfold sameName Tree.key
  cases t.caseSensitive with
  | true => exact beq_iff_eq
  | false =>
    simp only [Bool.false_eq_true, if_false]
    rw [beq_iff_eq, hLower ha, hLower hb, String.ofList_inj]

namespace ValueNode

theorem member?_isSome {vs : List (String × ValueNode)} {caseSensitive : Bool} {name : String} :
    ((compound vs).member? caseSensitive name).isSome = true ↔
      ∃ a ∈ vs.map Prod.fst, sameName caseSensitive a name = true := by
  simp [member?]

end ValueNode

namespace Tree

variable {t : Tree}

/-- What is found has the name that was looked up. -/
theorem WellFormed.key_of_lookupKey (h : t.WellFormed) {first : Bool} {key : String}
    {owner y : EntityId} (hLookup : t.lookupKey first key owner = some y) :
    t.key (t.get y).name = key := by
  obtain ⟨a, s, d, -, hScope, hGet⟩ := exists_inherits hLookup
  obtain ⟨-, -, -, hKey, -⟩ := h.entry s d key y (h.scope_lt a s (lt_size_of_scope hScope) hScope) hGet
  exact hKey.symm

/-- A field is found under its name in its definition. -/
theorem Reachable.lookupMember_field (h : t.Reachable) {D y : EntityId} (hy : y ∈ t.fields D)
    {name : String} (hName : t.key (t.get y).name = t.key name) :
    t.lookupMember D name = some y := by
  have hWellFormed := wellFormed_of_reachable h
  obtain ⟨hMember, hKind⟩ := List.mem_filter.mp hy
  have hField : (t.get y).kind = .field := of_decide_eq_true hKind
  obtain ⟨hNamed, hParent, -⟩ := h.parent_of_mem_children hMember
  obtain ⟨-, -, ⟨s, hScope⟩, -⟩ := hWellFormed.parent_place hNamed.1 hParent
  have hDeclared : isDeclarationName (t.get y).kind = true := by
    rw [hField]
    rfl
  have hFull := hWellFormed.forward_of_isDeclarationName hNamed.1 hDeclared
  have hFound : t.Found y := ⟨hNamed, Or.inr (by rw [hField]; rfl)⟩
  obtain ⟨y', hGet, -, rfl | ⟨hModule, -⟩⟩ := hWellFormed.get?_full hFound hFull hParent hScope
  · rw [hDeclared, hName] at hGet
    exact lookupKey_of_get? hScope (lookup?_of_get? hGet rfl)
  · rw [hField] at hModule
    cases hModule

/-- The fields of a definition are what stands in it. -/
theorem Reachable.mem_fields_iff (h : t.Reachable) {D y : EntityId} (hKind : (t.get y).kind = .field)
    (hNamed : t.Named y) : y ∈ t.fields D ↔ (t.get y).parent = some D := by
  constructor
  · exact fun hy => (h.parent_of_mem_children (List.mem_filter.mp hy).1).2.1
  · intro hParent
    refine List.mem_filter.mpr ⟨h.listed ⟨hNamed, ?_, ?_, ?_⟩ hParent, decide_eq_true hKind⟩
    · exact (wellFormed_of_reachable h).forward_of_isDeclarationName hNamed.1 (by rw [hKind]; rfl)
    · rw [hKind]
      decide
    · rw [hKind]
      decide

/-! ## Paths -/

theorem not_endsName_join {names : List String} (h : ∀ name ∈ names, IsName name) :
    ∀ c ∈ ("::".intercalate names).toList, Accessor.endsName c = false := by
  have hWord : ∀ name ∈ names, ∀ c ∈ name.toList, Accessor.endsName c = false := fun name hName c hc =>
    Bool.not_eq_true' _ ▸ Accessor.not_endsName_of_isWord ((h name hName).isWord c hc)
  clear h
  induction names with
  | nil => exact nofun
  | cons name names ih =>
    have hFirst := hWord name List.mem_cons_self
    have hRest := ih fun x hx => hWord x (List.mem_cons_of_mem name hx)
    cases names with
    | nil =>
      rw [String.intercalate_singleton]
      exact hFirst
    | cons next names =>
      intro c hc
      rw [String.intercalate_cons_cons, String.toList_append, String.toList_append] at hc
      rcases List.mem_append.mp hc with hc | hc
      · rcases List.mem_append.mp hc with hc | hc
        · exact hFirst c hc
        · have hMark : c = ':' := by simpa using hc
          rw [hMark]
          rfl
      · exact hRest c hc

/-- A path leads into the value of what its name leads to. -/
theorem findValue_path {start : EntityId} {name : String}
    (hName : ∀ c ∈ name.toList, Accessor.endsName c = false) {as : List Accessor}
    (h : ∀ a ∈ as, a.Writable) :
    t.findValue start (name ++ Accessor.texts as) =
      (t.find start name true).bind fun id => (t.get id).declaration?.bind fun d =>
        d.value.navigate? t.caseSensitive as := by
  unfold findValue
  rw [Accessor.readPath?_path hName h]
  simp only [Option.bind_eq_bind, Option.bind_some, String.ofList_toList]

/-- A name behind a point leads to a member of the value of what the scoped name leads to. -/
theorem WellFormed.findValue_join_member (h : t.WellFormed) {names : List String}
    (hNames : ∀ name ∈ names, IsName name) (hEmpty : names ≠ []) {name : String} (hName : IsName name) :
    t.findValue root ("::".intercalate names ++ "." ++ name) =
      (t.walk root names).bind fun id => (t.get id).declaration?.bind fun d =>
        d.value.member? t.caseSensitive name := by
  have hText : "::".intercalate names ++ "." ++ name =
      "::".intercalate names ++ Accessor.texts [.member name] := by
    rw [Accessor.texts, Accessor.texts, Accessor.text, String.append_empty, String.append_assoc]
  have hAccess : ∀ v : ValueNode, v.navigate? t.caseSensitive [.member name] =
      v.member? t.caseSensitive name := by
    intro v
    rw [ValueNode.navigate?, ValueNode.access?]
    cases v.member? t.caseSensitive name <;> rfl
  have hWritable : ∀ a ∈ [Accessor.member name], a.Writable := by
    intro a ha
    rw [List.mem_singleton.mp ha]
    exact hName
  rw [hText, findValue_path (not_endsName_join hNames) hWritable, h.find_root,
    find_join hNames hEmpty]
  simp only [hAccess]

end Tree

end IdlReader
