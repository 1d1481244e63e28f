import IdlReader.Entity.Value
import IdlReader.Proofs.Token.Scan

/-!
# Written paths

A path is a scoped name with accessors behind it. What is written of names and of indices of 64
bits is read again.

* `readIndex?_toDigits`: an index.
* `readAll?_texts`, `readAll?_indices_eq_none`: accessors.
* `readPath?_path`: a path.
-/

namespace IdlReader

namespace Accessor

/-- An accessor as it is written. -/
def text : Accessor → String
  | .member name => "." ++ name
  | .index i => "[" ++ toString i ++ "]"

/-- Accessors as they are written. -/
def texts : List Accessor → String
  | [] => ""
  | a :: as => a.text ++ texts as

/-- Whether what is written of an accessor is read as this accessor. -/
def Writable : Accessor → Prop
  | .member name => IsName name
  | .index i => i < Nat.pow 2 64

theorem toList_text_member (name : String) : (text (.member name)).toList = '.' :: name.toList := by
  rw [text, String.toList_append]
  rfl

theorem toList_text_index (i : Nat) :
    (text (.index i)).toList = '[' :: (Nat.toDigits 10 i ++ [']']) := by
  rw [text, String.toList_append, String.toList_append, Nat.toString_eq_ofList_toDigits,
    String.toList_ofList]
  simp

/-- Accessors start with a mark. -/
theorem head?_texts (as : List Accessor) : ∀ c ∈ (texts as).toList.head?, c = '.' ∨ c = '[' := by
  cases as with
  | nil => exact nofun
  | cons a as =>
    intro c hc
    rw [texts, String.toList_append] at hc
    cases a with
    | member name =>
      rw [toList_text_member] at hc
      cases hc
      exact Or.inl rfl
    | index i =>
      rw [toList_text_index] at hc
      cases hc
      exact Or.inr rfl

theorem endsName_texts (as : List Accessor) :
    ∀ c ∈ (texts as).toList.head?, (!endsName c) = false := by
  intro c hc
  rcases head?_texts as c hc with rfl | rfl <;> rfl

theorem not_endsName_of_isWord {c : Char} (h : Text.isWord c = true) : (!endsName c) = true := by
  rw [Bool.not_eq_true', endsName, Bool.or_eq_false_iff, beq_eq_false_iff_ne, beq_eq_false_iff_ne]
  refine ⟨?_, ?_⟩ <;>
  · rintro rfl
    cases h

/-! ## Indices -/

theorem foldl_toDigits (n : Nat) :
    (Nat.toDigits 10 n).foldl (fun n c => n * 10 + (c.toNat - '0'.toNat)) 0 = n := by
  have hDigits : Nat.ofDigitChars 10 (Nat.toDigits 10 n) 0 = n := Nat.ofDigitChars_ten_toDigits
  rw [Nat.ofDigitChars_eq_foldl] at hDigits
  simpa only [Nat.mul_comm] using hDigits

theorem isDigit_toDigits (n : Nat) : ∀ c ∈ Nat.toDigits 10 n, c.isDigit = true :=
  fun _ hc => Nat.isDigit_of_mem_toDigits (by decide) (by decide) hc

theorem not_isBlank_of_isDigit {c : Char} (h : c.isDigit = true) : Text.isBlank c = false := by
  rw [Char.isDigit, Bool.and_eq_true, decide_eq_true_eq, decide_eq_true_eq] at h
  have hLow : 48 ≤ c.toNat := h.1
  have hHigh : c.toNat ≤ 57 := h.2
  refine Bool.eq_false_iff.mpr fun hBlank => ?_
  obtain ⟨r, hr, hIn⟩ := List.any_eq_true.mp hBlank
  rw [Bool.and_eq_true, decide_eq_true_eq, decide_eq_true_eq] at hIn
  have hRanges : ∀ r ∈ Text.blankRanges, r.2 < 48 ∨ 57 < r.1 := by decide
  rcases hRanges r hr with hBelow | hAbove <;> omega

theorem trim_toDigits (n : Nat) : Text.trim (Nat.toDigits 10 n) = Nat.toDigits 10 n := by
  have hLeft : ∀ {s : List Char}, (∀ c ∈ s, c.isDigit = true) → s.dropWhile Text.isBlank = s := by
    intro s hs
    cases s with
    | nil => rfl
    | cons c s =>
      have hc := not_isBlank_of_isDigit (hs c List.mem_cons_self)
      exact List.dropWhile_cons_of_neg (by rw [hc]; decide)
  rw [Text.trim, Text.trimLeft, hLeft (isDigit_toDigits n), Text.trimRight, Text.dropTrailing,
    hLeft fun c hc => isDigit_toDigits n c (List.mem_reverse.mp hc), List.reverse_reverse]

/-- An index is read again, unless it has more than 64 bits. -/
theorem readIndex?_toDigits (i : Nat) :
    readIndex? (Nat.toDigits 10 i) = if Nat.pow 2 64 ≤ i then none else some i := by
  have hDigits := isDigit_toDigits i
  cases hText : Nat.toDigits 10 i with
  | nil => exact absurd hText Nat.toDigits_ne_nil
  | cons c s =>
    have hPlus : c ≠ '+' := by
      rintro rfl
      rw [hText] at hDigits
      exact absurd (hDigits '+' List.mem_cons_self) (by decide)
    have hAll : (c :: s).all Char.isDigit = true := by
      rw [← hText]
      exact List.all_eq_true.mpr hDigits
    have hFold := foldl_toDigits i
    have hTrim := trim_toDigits i
    rw [hText] at hFold hTrim
    unfold readIndex?
    rw [hTrim]
    dsimp only
    split
    · rename_i u hu
      exact absurd hu (by simpa using fun h => absurd h hPlus)
    · rw [hFold, hAll]
      simp

/-- Behind an index the other accessors are read. -/
theorem readAll?_index (i n : Nat) (s : List Char) :
    readAll? (n + 1) ('[' :: (Nat.toDigits 10 i ++ ']' :: s)) =
      if Nat.pow 2 64 ≤ i then none else (readAll? n s).map (.index i :: ·) := by
  have hDigits : ∀ c ∈ Nat.toDigits 10 i, decide (c ≠ ']') = true := by
    intro c hc
    refine decide_eq_true ?_
    rintro rfl
    exact absurd (isDigit_toDigits i _ hc) (by decide)
  rw [readAll?, if_neg (by decide), if_pos rfl, List.dropWhile_append_of_pos hDigits,
    List.takeWhile_append_of_pos hDigits, List.dropWhile_cons_of_neg (by decide),
    List.takeWhile_cons_of_neg (by decide), List.append_nil, readIndex?_toDigits]
  dsimp only
  split
  · rfl
  · cases readAll? n s <;> rfl

/-! ## Paths -/

/-- Written accessors are read again. -/
theorem readAll?_texts {as : List Accessor} (h : ∀ a ∈ as, a.Writable) {n : Nat}
    (hn : (texts as).toList.length ≤ n) : readAll? n (texts as).toList = some as := by
  induction as generalizing n with
  | nil =>
    unfold readAll?
    cases n <;> rfl
  | cons a as ih =>
    have ha := h a List.mem_cons_self
    have hRest := @ih fun b hb => h b (List.mem_cons_of_mem a hb)
    rw [texts, String.toList_append] at hn ⊢
    cases a with
    | member name =>
      have hName : IsName name := ha
      rw [toList_text_member, List.cons_append] at hn ⊢
      obtain ⟨m, rfl⟩ : ∃ m, n = m + 1 := ⟨n - 1, by simp at hn; omega⟩
      have hWord : name.toList.takeWhile (fun c => !endsName c) = name.toList := by
        rw [← List.append_nil name.toList, List.takeWhile_append_of_pos fun c hc =>
          not_endsName_of_isWord (hName.isWord c hc)]
        simp
      obtain ⟨hTake, hDrop⟩ := Lexeme.takeWhile_text (fun c => !endsName c) name.toList
        (endsName_texts as)
      rw [hWord] at hTake hDrop
      have hNonempty : name.toList.isEmpty = false := List.isEmpty_eq_false_iff.mpr hName.ne_nil
      unfold readAll?
      rw [if_pos rfl, hTake, hDrop]
      dsimp only
      rw [hNonempty, if_neg (by decide), hRest (by simp at hn; omega), String.ofList_toList]
      rfl
    | index i =>
      have hi : i < Nat.pow 2 64 := ha
      rw [toList_text_index, List.cons_append, List.append_assoc] at hn ⊢
      obtain ⟨m, rfl⟩ : ∃ m, n = m + 1 := ⟨n - 1, by simp at hn; omega⟩
      have hLength : (texts as).toList.length ≤ m := by
        simp at hn
        omega
      rw [List.singleton_append, readAll?_index, if_neg (Nat.not_le_of_lt hi), hRest hLength]
      rfl

/-- Indices of more than 64 bits are not read. -/
theorem readAll?_indices_eq_none {indices : List Nat} (h : ∃ i ∈ indices, Nat.pow 2 64 ≤ i) {n : Nat}
    (hn : (texts (indices.map index)).toList.length ≤ n) :
    readAll? n (texts (indices.map index)).toList = none := by
  induction indices generalizing n with
  | nil =>
    obtain ⟨i, hi, -⟩ := h
    cases hi
  | cons i is ih =>
    rw [List.map_cons, texts, String.toList_append, toList_text_index, List.cons_append,
      List.append_assoc] at hn ⊢
    obtain ⟨m, rfl⟩ : ∃ m, n = m + 1 := ⟨n - 1, by simp at hn; omega⟩
    have hLength : (texts (is.map index)).toList.length ≤ m := by
      simp at hn
      omega
    rw [List.singleton_append, readAll?_index]
    split
    · rfl
    · rename_i hSmall
      obtain ⟨j, hj, hLarge⟩ := h
      rcases List.mem_cons.mp hj with rfl | hj
      · exact absurd hLarge hSmall
      · rw [ih ⟨j, hj, hLarge⟩ hLength]
        rfl

/-- A written path is read as its name and what its accessors are read as. -/
theorem readPath?_append {name : String} (hName : ∀ c ∈ name.toList, endsName c = false)
    (as : List Accessor) :
    readPath? (name ++ texts as).toList =
      (readAll? (texts as).toList.length (texts as).toList).map fun bs => (name.toList, bs) := by
  have hWord : name.toList.takeWhile (fun c => !endsName c) = name.toList := by
    rw [← List.append_nil name.toList, List.takeWhile_append_of_pos fun c hc => by
      rw [hName c hc]
      rfl]
    simp
  obtain ⟨hTake, hDrop⟩ := Lexeme.takeWhile_text (fun c => !endsName c) name.toList (endsName_texts as)
  rw [hWord] at hTake hDrop
  unfold readPath?
  rw [String.toList_append]
  dsimp only
  rw [hTake, hDrop]

/-- A written path is read as its name and its accessors. -/
theorem readPath?_path {name : String} (hName : ∀ c ∈ name.toList, endsName c = false)
    {as : List Accessor} (h : ∀ a ∈ as, a.Writable) :
    readPath? (name ++ texts as).toList = some (name.toList, as) := by
  rw [readPath?_append hName, readAll?_texts h (Nat.le_refl _)]
  rfl

end Accessor

end IdlReader
