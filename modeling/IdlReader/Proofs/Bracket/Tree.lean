import IdlReader.Proofs.Tree.Lookup
import IdlReader.Proofs.Token.Bracket

/-!
# Brackets that a tree keeps

Declarations keep tokens until they are evaluated, and with them the brackets of dimensions,
assignments and labels. While the tree grows, declarations come to keep tokens and never give them
up (`Tree.Spares`). Scopes know nothing that starts with a bracket (`Tree.Worded`), and definitions
are not named by words of the language itself (`Tree.Unreserved`).

* `spares_modify`, `spares_addRecords`: changes of the tree.
* `Worded.findType_bracket`: what starts like a bracket is no name of a type.
-/

namespace IdlReader

open IdlReader.Tree

/-! ## Tokens that are kept -/

/-- The tokens that a declaration of a kind keeps until it is evaluated. -/
structure Written where
  kind : EntityKind
  dimensions : List (List Token) := []
  assignment : List Token := []
  labels : List (List Token) := []

/-- Whether all that is evaluated of what a declaration keeps is bracketed. -/
structure Written.Closed (w : Written) : Prop where
  dimensions : ∀ ts ∈ w.dimensions, Enclosed ts
  assignment : w.kind.supportsAssignment = true → Enclosed w.assignment
  labels : w.kind = .caseEntry → ∀ ts ∈ w.labels, Enclosed ts

def Declaration.written (kind : EntityKind) (d : Declaration) : Written :=
  ⟨kind, d.dimensions, d.assignment, d.labels⟩

def Entity.written? (e : Entity) : Option Written := e.declaration?.map (Declaration.written e.kind)

theorem Written.closed_empty (kind : EntityKind) : Written.Closed { kind } where
  dimensions := fun _ h => absurd h List.not_mem_nil
  assignment := fun _ => .nil
  labels := fun _ _ h => absurd h List.not_mem_nil

theorem Entity.written?_congr {e e' : Entity} (hKind : e'.kind = e.kind)
    (h : e'.declaration? = e.declaration?) : e'.written? = e.written? := by
  rw [written?, written?, hKind, h]

theorem Entity.written?_annotates {e e' : Entity} (h : Annotates e e') :
    e'.written? = e.written? := by
  rw [h]
  rfl

namespace Tree

variable {t t' t'' : Tree} {n m : Nat} {id : EntityId}

/-- Whether all that the declarations of a tree keep is bracketed. -/
def Closed (t : Tree) : Prop := ∀ i w, (t.get i).written? = some w → w.Closed

/-- Whether the first `n` entities keep their tokens, and no declaration gives up tokens that are
not bracketed. -/
structure Spares (n : Nat) (t t' : Tree) : Prop where
  size : n ≤ t'.size
  written : ∀ i < n, (t'.get i).written? = (t.get i).written?
  closed : t'.Closed → t.Closed

namespace Spares

theorem refl (h : n ≤ t.size) : Spares n t t := ⟨h, fun _ _ => rfl, id⟩

theorem trans (h : Spares m t t') (h' : Spares n t' t'') (hLe : n ≤ m) : Spares n t t'' where
  size := h'.size
  written := fun i hi => (h'.written i hi).trans (h.written i (Nat.lt_of_lt_of_le hi hLe))
  closed := h.closed ∘ h'.closed

theorem weaken (h : Spares m t t') (hLe : n ≤ m) : Spares n t t' :=
  h.trans (.refl (Nat.le_trans hLe h.size)) hLe

/-- One change after another one. -/
theorem after (h : Spares t.size t t') (h' : Spares t'.size t' t'') : Spares t.size t t'' :=
  h.trans (h'.weaken h.size) (Nat.le_refl _)

end Spares

theorem lt_of_written? {w : Written} {i : EntityId} (h : (t.get i).written? = some w) :
    i < t.size := by
  obtain ⟨d, hd, -⟩ := Option.map_eq_some_iff.mp h
  exact lt_of_declaration? hd

/-- A change that leaves the entities that were there. -/
theorem spares_of_lt (hSize : t.size ≤ t'.size)
    (h : ∀ i < t.size, (t'.get i).written? = (t.get i).written?) : Spares t.size t t' where
  size := hSize
  written := h
  closed := fun hClosed i w hw => hClosed i w ((h i (lt_of_written? hw)).trans hw)

theorem spares_modify (id : EntityId) {f : Entity → Entity}
    (hf : ∀ e, (f e).written? = e.written?) : Spares t.size t (t.modify id f) :=
  spares_of_lt (Nat.le_of_eq (size_modify _ _ _).symm) fun i _ =>
    get_modify_congr Entity.written? hf i

theorem spares_addRecords (records : List Record) : Spares t.size t (t.addRecords records) := by
  induction records generalizing t with
  | nil => exact .refl (Nat.le_refl _)
  | cons r rs ih =>
    have hPush : Spares t.size t ⟨t.entities.push (recorded r), t.scopes, t.caseSensitive⟩ :=
      spares_of_lt (by simp [size]) fun i hi => by rw [get_push, if_neg (Nat.ne_of_lt hi)]
    have hRecord : Spares t.size t (t.addRecord r).2 :=
      hPush.after (spares_modify root fun e =>
        Entity.written?_congr (alike_listing t.size e).kind (declaration?_listing t.size e))
    have hAttached := hRecord.after (spares_modify (t.addRecord r).1 fun e =>
      Entity.written?_annotates (Entity.annotates_attach r.comments e))
    exact hAttached.after ih

/-! ## Names of definitions -/

/-- Whether no definition is named by a word of the language itself. -/
def Unreserved (t : Tree) : Prop :=
  ∀ i, (t.get i).definition?.isSome = true → (t.get i).name ∉ Lexicon.keywords

namespace Unreserved

theorem modify (h : t.Unreserved) (id : EntityId) {f : Entity → Entity}
    (hf : ∀ e, Entity.Alike e (f e)) : (t.modify id f).Unreserved := by
  intro i hDefinition
  rw [(alike_modify hf i).definition] at hDefinition
  rw [(alike_modify hf i).name]
  exact h i hDefinition

theorem addRecords (h : t.Unreserved) (records : List Record) : (t.addRecords records).Unreserved := by
  induction records generalizing t with
  | nil => exact h
  | cons r rs ih =>
    have hPush : Unreserved ⟨t.entities.push (recorded r), t.scopes, t.caseSensitive⟩ := by
      intro i hDefinition
      rw [get_push] at hDefinition ⊢
      split at hDefinition
      · cases hDefinition
      · rw [if_neg ‹_›]
        exact h i hDefinition
    have hRecord : (t.addRecord r).2.Unreserved := hPush.modify root (alike_listing t.size)
    exact ih (hRecord.modify (t.addRecord r).1 fun e => (Entity.annotates_attach r.comments e).alike)

theorem add (h : t.Unreserved) {parent : EntityId} {kind : EntityKind} {source : SourceId}
    {span : Span} {data : EntityData} (hAdd : t.add parent kind source span data = .ok (id, t')) :
    t'.Unreserved := by
  obtain ⟨-, -, -, -, -, hGet⟩ := add_eq_ok hAdd
  intro i hDefinition
  rw [hGet] at hDefinition ⊢
  split
  · change "" ∉ Lexicon.keywords
    decide
  · rw [if_neg ‹_›] at hDefinition
    exact h i hDefinition

theorem naming (h : t.Unreserved) {name : String} {forward : Bool} {found : EntityId}
    (hName : (t.get id).definition?.isSome = true → name ∉ Lexicon.keywords)
    (hNaming : Naming t id name forward found t') : t'.Unreserved := by
  obtain ⟨e, hRenames, -, -, rfl⟩ := hNaming.renames
  intro i hDefinition
  rw [hRenames.definition] at hDefinition
  by_cases hi : i = id
  · rw [hi] at hDefinition ⊢
    rw [hRenames.self.name]
    exact hName hDefinition
  · rw [(hRenames.others i hi).name]
    exact h i hDefinition

end Unreserved

/-! ## Names in scopes -/

theorem isWordStart_lowerCase {c : Char} (h : Text.isWordStart c = true) :
    Text.isWordStart (lowerCase c) = true := by
  unfold lowerCase Char.toLower
  split
  · rfl
  · split
    · rename_i hUpper
      -- A capital letter has become a small one.
      refine Bool.or_eq_true_iff.mpr (Or.inl (Bool.or_eq_true_iff.mpr (Or.inr ?_)))
      refine Bool.and_eq_true_iff.mpr ⟨decide_eq_true ?_, decide_eq_true ?_⟩
      all_goals
        simp only [ge_iff_le, UInt32.le_iff_toNat_le] at hUpper ⊢
        simp at hUpper ⊢
        omega
    · exact h

theorem head?_key (t : Tree) (name : String) : (t.key name).toList.head? =
    name.toList.head?.map fun c => if t.caseSensitive then c else lowerCase c := by
  unfold key
  cases t.caseSensitive with
  | true => simp
  | false => simp [List.head?_map]

/-- What a scope knows when a name was entered. -/
theorem get?_insertName {scope s : ScopeId} {d d' : Bool} {key k : String} {x : EntityId}
    (h : ((t.insertName scope d key id).scope s).get? d' k = some x) :
    k = key ∨ (t.scope s).get? d' k = some x := by
  unfold Tree.scope Tree.insertName at h
  rw [Array.getElem?_modify] at h
  split at h
  · cases hScope : t.scopes[s]? with
    | none =>
      rw [hScope] at h
      exact Or.inr (by rw [Tree.scope, hScope]; exact h)
    | some names =>
      rw [hScope, Option.map_some, Option.getD_some, Scope.get?_insert] at h
      split at h
      · rename_i hKey
        exact Or.inl hKey.2
      · exact Or.inr (by rw [Tree.scope, hScope]; exact h)
  · exact Or.inr h

/-- Whether all that the scopes of a tree know starts like a name. -/
def Worded (t : Tree) : Prop :=
  ∀ s d k x, (t.scope s).get? d k = some x → ∀ c ∈ k.toList.head?, Text.isWordStart c = true

theorem isWordStart_of_isName {name : String} (h : IsName name) :
    ∀ c ∈ name.toList.head?, Text.isWordStart c = true := by
  intro c hc
  obtain ⟨cs, hText⟩ := List.head?_eq_some_iff.mp hc
  rw [IsName, hText, Text.isName, Bool.and_eq_true] at h
  exact h.1

namespace Worded

theorem congr (h : t.Worded) (hScopes : t'.scopes = t.scopes) : t'.Worded := by
  intro s d k x
  rw [scope_eq_of_scopes hScopes]
  exact h s d k x

theorem addRecords (h : t.Worded) (records : List Record) : (t.addRecords records).Worded := by
  induction records generalizing t with
  | nil => exact h
  | cons r rs ih => exact ih (h.congr rfl)

theorem insertName (h : t.Worded) {name : String} (hName : IsName name) (scope : ScopeId)
    (d : Bool) (id : EntityId) : (t.insertName scope d (t.key name) id).Worded := by
  intro s d' k x hx c hc
  rcases get?_insertName hx with rfl | hOld
  · rw [head?_key] at hc
    obtain ⟨b, hb, rfl⟩ := Option.map_eq_some_iff.mp hc
    have hStart := isWordStart_of_isName hName b hb
    split
    · exact hStart
    · exact isWordStart_lowerCase hStart
  · exact h _ _ _ _ hOld c hc

theorem add (h : t.Worded) {parent : EntityId} {kind : EntityKind} {source : SourceId}
    {span : Span} {data : EntityData} (hAdd : t.add parent kind source span data = .ok (id, t')) :
    t'.Worded := by
  obtain ⟨-, -, -, -, hScopes, -⟩ := add_eq_ok hAdd
  split at hScopes
  · intro s d k x hx
    unfold Tree.scope at hx
    rw [hScopes, Array.getElem?_push] at hx
    split at hx
    · rw [Option.getD_some, Scope.get?_empty] at hx
      cases hx
    · exact h s d k x hx
  · exact h.congr hScopes

theorem naming (h : t.Worded) {name : String} {forward : Bool} {found : EntityId}
    (hName : IsName name) (hNaming : Naming t id name forward found t') : t'.Worded := by
  cases hNaming with
  | fresh hParent hScope hFree hRenames hScopes => exact (h.insertName hName _ _ _).congr hScopes
  | repeated hParent hScope hExisting hKind hRenames hScopes => exact h.congr hScopes
  | reopened hParent hScope hExisting hKind hSame hRenames hScopes => exact h.congr hScopes
  | completed hParent hScope hExisting hKind hModule hForward hRenames hScopes =>
    exact (h.insertName hName _ _ _).congr hScopes

/-- What starts like a bracket is no name of a type. -/
theorem findType_bracket (h : t.Worded) {text : String} (hText : markOf text ≠ [])
    (start : EntityId) (tail : String) : t.findType start (text ++ tail) = none := by
  have hTexts : ∀ b ∈ Bracket.texts, ∃ c ∈ ['(', ')', '[', ']', '\x7b', '\x7d'],
      b.1.toList = [c] := by
    simp only [Bracket.texts, List.forall_mem_cons]
    refine ⟨⟨'(', ?_⟩, ⟨')', ?_⟩, ⟨'[', ?_⟩, ⟨']', ?_⟩, ⟨'\x7b', ?_⟩, ⟨'\x7d', ?_⟩,
      List.forall_mem_nil _⟩ <;> simp
  obtain ⟨b, hb, rfl⟩ := exists_text hText
  obtain ⟨c, hc, hChar⟩ := hTexts b hb
  have hMarks : ∀ c ∈ ['(', ')', '[', ']', '\x7b', '\x7d'], Text.isWordStart c = false ∧
      lowerCase c = c ∧ c ≠ ':' ∧ c ≠ '.' := by
    simp only [List.forall_mem_cons]
    refine ⟨⟨rfl, rfl, ?_⟩, ⟨rfl, rfl, ?_⟩, ⟨rfl, rfl, ?_⟩, ⟨rfl, rfl, ?_⟩, ⟨rfl, rfl, ?_⟩,
      ⟨rfl, rfl, ?_⟩, List.forall_mem_nil _⟩ <;> decide
  obtain ⟨hStart, hLower, hColon, hPoint⟩ := hMarks c hc
  have hLookup : ∀ (d : Bool) (cs : List Char) (owner : EntityId),
      t.lookupKey d (t.key (String.ofList (c :: cs))) owner = none := by
    intro d cs owner
    rw [lookupKey, lookupWithin_eq, List.findSome?_eq_none_iff]
    intro s _
    cases hFound : (t.scope s).lookup? d (t.key (String.ofList (c :: cs))) with
    | none => rfl
    | some x =>
      obtain ⟨d', hGet⟩ := lookup?_eq_some hFound
      have hHead : c ∈ (t.key (String.ofList (c :: cs))).toList.head? := by
        rw [head?_key, String.toList_ofList, List.head?_cons, Option.map_some, hLower, ite_self]
        rfl
      rw [h s d' _ x hGet c hHead] at hStart
      cases hStart
  have hSplit : (splitSegment (c :: tail.toList)).1 = c :: (splitSegment tail.toList).1 := by
    rw [splitSegment]
    · exact fun _ h _ => hColon h
    · exact hPoint
  have hAbsolute : [':', ':'].isPrefixOf (c :: tail.toList) = false := by
    rw [List.isPrefixOf, beq_eq_false_iff_ne.mpr (Ne.symm hColon), Bool.false_and]
  unfold findType
  rw [String.toList_append, hChar, List.singleton_append, findWithin_relative _ _ _ hAbsolute,
    List.isEmpty_cons, if_neg Bool.false_ne_true, if_pos rfl, List.findSome?_eq_none_iff]
  intro owner _
  rw [findFrom, hSplit, hLookup]

end Worded

end Tree

end IdlReader
