import Mathlib.Data.List.Basic
import IdlReader.Proofs.Outcome
import IdlReader.Source.Files

/-!
# Canonical paths

The names that a path leads to hold no slash and none of them is empty, `.` or `..`. So the canonical
path that is made of them leads to the same names again, and different files have different canonical
paths.

* `FileTree.canonical_of_canonical`: the canonical path of a canonical path.
* `FileTree.read_canonical`: what is read at a canonical path.
-/

namespace IdlReader

namespace Path

/-- Whether a text may be the name of a file or of a directory. -/
def IsName (name : String) : Prop :=
  name ≠ "" ∧ name ≠ "." ∧ name ≠ ".." ∧ '/' ∉ name.toList

instance (name : String) : Decidable (IsName name) :=
  inferInstanceAs (Decidable (_ ∧ _ ∧ _ ∧ _))

theorem splitSlashes_ne_nil (s : List Char) : splitSlashes s ≠ [] := by
  cases s with
  | nil => exact List.cons_ne_nil _ _
  | cons c s =>
    unfold splitSlashes
    split
    · exact List.cons_ne_nil _ _
    · split <;> exact List.cons_ne_nil _ _

theorem not_mem_of_mem_splitSlashes {s p : List Char} (h : p ∈ splitSlashes s) : '/' ∉ p := by
  induction s generalizing p with
  | nil =>
    rw [splitSlashes, List.mem_singleton] at h
    rw [h]
    exact List.not_mem_nil
  | cons c s ih =>
    unfold splitSlashes at h
    split at h
    · rcases List.mem_cons.mp h with rfl | h
      · exact List.not_mem_nil
      · exact ih h
    · rename_i hc
      split at h
      · rename_i hSplit
        exact absurd hSplit (splitSlashes_ne_nil s)
      · rename_i q qs hSplit
        have hq : ∀ p ∈ q :: qs, '/' ∉ p := fun p hp => ih (hSplit ▸ hp)
        rcases List.mem_cons.mp h with rfl | h
        · intro hSlash
          rcases List.mem_cons.mp hSlash with rfl | hSlash
          · exact hc rfl
          · exact hq q List.mem_cons_self hSlash
        · exact hq p (List.mem_cons_of_mem q h)

theorem splitSlashes_of_not_mem {s : List Char} (h : '/' ∉ s) : splitSlashes s = [s] := by
  induction s with
  | nil => rfl
  | cons c s ih =>
    rw [List.mem_cons, not_or] at h
    rw [splitSlashes, if_neg (Ne.symm h.1), ih h.2]

theorem splitSlashes_append {s : List Char} (h : '/' ∉ s) (t : List Char) :
    splitSlashes (s ++ '/' :: t) = s :: splitSlashes t := by
  induction s with
  | nil => rfl
  | cons c s ih =>
    rw [List.mem_cons, not_or] at h
    rw [List.cons_append, splitSlashes, if_neg (Ne.symm h.1), ih h.2]

theorem splitSlashes_intercalate {ps : List (List Char)} (hSome : ps ≠ [])
    (h : ∀ p ∈ ps, '/' ∉ p) : splitSlashes (['/'].intercalate ps) = ps := by
  induction ps with
  | nil => exact absurd rfl hSome
  | cons p ps ih =>
    have hp := h p List.mem_cons_self
    cases ps with
    | nil =>
      rw [List.intercalate_singleton]
      exact splitSlashes_of_not_mem hp
    | cons q qs =>
      rw [List.intercalate_cons_cons, List.append_assoc, List.singleton_append,
        splitSlashes_append hp, ih (List.cons_ne_nil _ _) fun p hp => h p (List.mem_cons_of_mem _ hp)]

/-- The parts of the path of names: an empty one in front of the first slash, and the names. -/
theorem parts_ofNames {names : List String} (h : ∀ name ∈ names, IsName name) :
    parts (ofNames names) = "" :: if names = [] then [""] else names := by
  have hSlash : ("/" : String).toList = ['/'] := rfl
  have hList : (ofNames names).toList = '/' :: ['/'].intercalate (names.map String.toList) := by
    rw [ofNames, String.toList_append, String.toList_intercalate, hSlash, List.singleton_append]
  rw [parts, hList, splitSlashes, if_pos rfl, List.map_cons, String.ofList_nil]
  congr 1
  split
  · rename_i hNone
    rw [hNone]
    rfl
  · rename_i hSome
    rw [splitSlashes_intercalate (by simpa using hSome), List.map_map]
    · have hId : String.ofList ∘ String.toList = id := funext fun _ => String.ofList_toList
      rw [hId, List.map_id]
    · intro p hp
      obtain ⟨name, hName, rfl⟩ := List.mem_map.mp hp
      exact (h name hName).2.2.2

theorem not_mem_of_mem_parts {path part : String} (h : part ∈ parts path) : '/' ∉ part.toList := by
  obtain ⟨p, hp, rfl⟩ := List.mem_map.mp h
  rw [String.toList_ofList]
  exact not_mem_of_mem_splitSlashes hp

end Path

namespace FileTree

variable {t : FileTree}

/-- Whether names lead to a file or to a directory. -/
def Holds (t : FileTree) (names : List String) : Prop :=
  t.isDirectory names = true ∨ (t.content? names).isSome = true

/-- Whether the directory of the reading has a path of proper names. -/
def Proper (t : FileTree) : Prop := ∀ name ∈ t.directory, Path.IsName name

theorem mem_files_of_content? {names : List String} {bytes : List UInt8}
    (h : t.content? names = some bytes) : (names, bytes) ∈ t.files := by
  obtain ⟨l₁, l₂, hFiles, -⟩ := List.lookup_eq_some_iff.mp h
  rw [hFiles]
  exact List.mem_append_right _ List.mem_cons_self

/-- What leads on the way to something is a directory. -/
theorem isDirectory_of_holds {names names' : List String} (h : t.Holds names)
    (hPrefix : names' <+: names) (hNe : names' ≠ names) : t.isDirectory names' = true := by
  unfold isDirectory
  rcases h with hDirectory | hContent
  · rcases (Bool.or_eq_true _ _).mp hDirectory with hReading | hFile
    · exact (Bool.or_eq_true _ _).mpr (Or.inl (List.isPrefixOf_iff_prefix.mpr
        (hPrefix.trans (List.isPrefixOf_iff_prefix.mp hReading))))
    · obtain ⟨f, hf, hBelow⟩ := List.any_eq_true.mp hFile
      simp only [Bool.and_eq_true, List.isPrefixOf_iff_prefix, bne_iff_ne] at hBelow
      refine (Bool.or_eq_true _ _).mpr (Or.inr (List.any_eq_true.mpr ⟨f, hf, ?_⟩))
      simp only [Bool.and_eq_true, List.isPrefixOf_iff_prefix, bne_iff_ne]
      refine ⟨hPrefix.trans hBelow.1, fun hEq => hNe ?_⟩
      exact hPrefix.eq_of_length_le (hEq ▸ hBelow.1.length_le)
  · obtain ⟨bytes, hBytes⟩ := Option.isSome_iff_exists.mp hContent
    refine (Bool.or_eq_true _ _).mpr (Or.inr (List.any_eq_true.mpr
      ⟨_, mem_files_of_content? hBytes, ?_⟩))
    simp only [Bool.and_eq_true, List.isPrefixOf_iff_prefix, bne_iff_ne]
    exact ⟨hPrefix, hNe⟩

/-- Following parts ends at proper names, if it starts at such. -/
theorem holds_of_follow {parts here names : List String}
    (hHere : t.Holds here.reverse) (hNames : ∀ name ∈ here, Path.IsName name)
    (hParts : ∀ part ∈ parts, '/' ∉ part.toList) (h : t.follow here parts = .ok names) :
    t.Holds names.reverse ∧ ∀ name ∈ names, Path.IsName name := by
  induction parts generalizing here with
  | nil =>
    cases h
    exact ⟨hHere, hNames⟩
  | cons part parts ih =>
    have hRest := fun p hp => hParts p (List.mem_cons_of_mem part hp)
    unfold follow at h
    split at h
    · cases h
    · split at h
      · exact ih hHere hNames hRest h
      · rename_i hStays
        split at h
        · refine ih ?_ (fun name hName => hNames name (List.mem_of_mem_tail hName)) hRest h
          cases here with
          | nil => exact hHere
          | cons last here =>
            rw [List.reverse_cons] at hHere
            refine Or.inl (isDirectory_of_holds hHere (List.prefix_append _ _) ?_)
            exact fun hEq => absurd (congrArg List.length hEq) (by simp)
        · rename_i hUp
          dsimp only at h
          split at h
          · rename_i hThere
            simp only [Bool.or_eq_true, beq_iff_eq, not_or] at hStays hUp
            refine ih ((Bool.or_eq_true _ _).mp hThere) ?_ hRest h
            intro name hName
            rcases List.mem_cons.mp hName with rfl | hName
            · exact ⟨hStays.1, hStays.2, hUp, hParts _ List.mem_cons_self⟩
            · exact hNames name hName
          · cases h

/-- Names that lead to something are found from any directory on their way. -/
theorem follow_of_holds {names here : List String} (hNames : ∀ name ∈ names, Path.IsName name)
    (h : t.Holds (here.reverse ++ names)) : t.follow here names = .ok (names.reverse ++ here) := by
  induction names generalizing here with
  | nil => rfl
  | cons name names ih =>
    obtain ⟨hSome, hHere, hUp, -⟩ := hNames name List.mem_cons_self
    have hDirectory : t.isDirectory here.reverse = true :=
      isDirectory_of_holds h (List.prefix_append _ _) fun hEq =>
        absurd (congrArg List.length hEq) (by simp)
    have hNext : t.Holds ((name :: here).reverse ++ names) := by
      rw [List.reverse_cons, List.append_assoc]
      exact h
    have hThere : (t.isDirectory (name :: here).reverse ||
        (t.content? (name :: here).reverse).isSome) = true := by
      refine (Bool.or_eq_true _ _).mpr ?_
      cases names with
      | nil =>
        rw [List.append_nil] at hNext
        exact hNext
      | cons name' names =>
        exact Or.inl (isDirectory_of_holds hNext (List.prefix_append _ _) fun hEq =>
          absurd (congrArg List.length hEq) (by simp))
    unfold follow
    rw [hDirectory]
    simp only [Bool.not_true, Bool.false_eq_true, if_false, Bool.or_eq_true, beq_iff_eq, hSome,
      hHere, hUp, or_self]
    rw [if_pos (by simpa only [Bool.or_eq_true] using hThere),
      ih (fun name hName => hNames name (List.mem_cons_of_mem _ hName)) hNext, List.reverse_cons,
      List.append_assoc, List.singleton_append]

theorem holds_of_resolve (hProper : t.Proper) {path : String} {names : List String}
    (h : t.resolve path = .ok names) :
    t.Holds names ∧ ∀ name ∈ names, Path.IsName name := by
  unfold resolve at h
  split at h
  · cases h
  · obtain ⟨found, hFollow, rfl⟩ : ∃ found, t.follow
        (if Path.isAbsolute path then [] else t.directory.reverse) (Path.parts path) = .ok found ∧
        found.reverse = names := by
      revert h
      cases t.follow _ _ with
      | ok found =>
        intro h
        cases h
        exact ⟨found, rfl, rfl⟩
      | error f => exact nofun
    have hDirectory : ∀ names : List String, names <+: t.directory → t.Holds names := fun names h =>
      Or.inl ((Bool.or_eq_true _ _).mpr (Or.inl (List.isPrefixOf_iff_prefix.mpr h)))
    have hFound := holds_of_follow (t := t) ?_ ?_ (fun _ => Path.not_mem_of_mem_parts) hFollow
    · exact ⟨hFound.1, fun name hName => hFound.2 name (List.mem_reverse.mp hName)⟩
    · split
      · exact hDirectory _ List.nil_prefix
      · rw [List.reverse_reverse]
        exact hDirectory _ (List.prefix_refl _)
    · split
      · exact nofun
      · exact fun name hName => hProper name (List.mem_reverse.mp hName)

theorem resolve_ofNames {names : List String} (hNames : ∀ name ∈ names, Path.IsName name)
    (h : t.Holds names) : t.resolve (Path.ofNames names) = .ok names := by
  have hSlash : ("/" : String).toList = ['/'] := rfl
  have hList : (Path.ofNames names).toList =
      '/' :: ['/'].intercalate (names.map String.toList) := by
    rw [Path.ofNames, String.toList_append, String.toList_intercalate, hSlash,
      List.singleton_append]
  have hSome : ¬ (Path.ofNames names == "") = true := by
    intro hEq
    rw [beq_iff_eq.mp hEq] at hList
    cases hList
  have hAbsolute : Path.isAbsolute (Path.ofNames names) = true := by
    rw [Path.isAbsolute, hList]
    rfl
  have hRoot : t.isDirectory [] = true := rfl
  have hEmpty : ∀ parts, t.follow [] ("" :: parts) = t.follow [] parts := by
    intro parts
    rw [follow, List.reverse_nil, hRoot]
    rfl
  have hFollow : t.follow [] names = .ok (names.reverse ++ []) := follow_of_holds hNames h
  rw [resolve, if_neg hSome, hAbsolute, if_pos rfl, Path.parts_ofNames hNames, hEmpty]
  split
  · rename_i hNone
    rw [hEmpty, hNone]
    rfl
  · rw [hFollow, List.append_nil]
    exact congrArg Except.ok (List.reverse_reverse names)

/-- What a path leads to, if its canonical path is known. -/
theorem resolve_of_canonical (hProper : t.Proper) {path canonical : String}
    (h : t.canonical path = .ok canonical) :
    ∃ names, t.resolve path = .ok names ∧ canonical = Path.ofNames names ∧
      t.resolve canonical = .ok names := by
  unfold FileTree.canonical at h
  cases hResolve : t.resolve path with
  | error f =>
    rw [hResolve] at h
    cases h
  | ok names =>
    rw [hResolve] at h
    cases h
    obtain ⟨hHolds, hNames⟩ := holds_of_resolve hProper hResolve
    exact ⟨names, rfl, rfl, resolve_ofNames hNames hHolds⟩

theorem canonical_of_canonical (hProper : t.Proper) {path canonical : String}
    (h : t.canonical path = .ok canonical) : t.canonical canonical = .ok canonical := by
  obtain ⟨names, -, rfl, hResolve⟩ := resolve_of_canonical hProper h
  rw [FileTree.canonical, hResolve]
  rfl

theorem length_le_utf8ByteSize (s : List Char) : s.length ≤ (String.ofList s).utf8ByteSize := by
  induction s with
  | nil => exact Nat.zero_le _
  | cons c s ih =>
    have hPos := Char.utf8Size_pos c
    have hSize : (String.ofList (c :: s)).utf8ByteSize =
        c.utf8Size + (String.ofList s).utf8ByteSize := by
      rw [← List.singleton_append, String.ofList_append, String.utf8ByteSize_append]
      exact congrArg (· + _) String.utf8ByteSize_singleton
    rw [hSize, List.length_cons]
    omega

/-- A text has no more characters than bytes. -/
theorem length_le_of_fromUTF8? {bytes : List UInt8} {text : String}
    (h : String.fromUTF8? ⟨bytes.toArray⟩ = some text) : text.toList.length ≤ bytes.length := by
  unfold String.fromUTF8? at h
  split at h
  · rename_i hValid
    cases h
    have hSize : (String.fromUTF8 ⟨bytes.toArray⟩ hValid).utf8ByteSize = bytes.length := rfl
    rw [← hSize]
    have hLength := length_le_utf8ByteSize (String.fromUTF8 ⟨bytes.toArray⟩ hValid).toList
    rw [String.ofList_toList] at hLength
    exact hLength
  · cases h

/-- What is read at a canonical path is the content of the file that the path was made for. -/
theorem read_canonical (hProper : t.Proper) {path canonical text : String}
    (h : t.canonical path = .ok canonical) (hRead : t.read canonical = .ok text) :
    ∃ f ∈ t.files, canonical = Path.ofNames f.1 ∧ text.toList.length ≤ f.2.length := by
  obtain ⟨names, -, hCanonical, hResolve⟩ := resolve_of_canonical hProper h
  unfold FileTree.read at hRead
  rw [hResolve, ok_bind_eq] at hRead
  split at hRead
  · cases hRead
  · rename_i bytes hBytes
    split at hRead
    · rename_i text' hText
      cases hRead
      exact ⟨_, mem_files_of_content? hBytes, hCanonical, length_le_of_fromUTF8? hText⟩
    · cases hRead

end FileTree

end IdlReader
