import IdlReader.Proofs.Constant.Statement
import IdlReader.Proofs.Naming.Content
import IdlReader.Proofs.Source.Delivery
import IdlReader.Proofs.Source.Turn

/-!
# Documents with generated names

The names that are generated for definitions, fields and cases without a name differ from each other.
Nothing keeps the words of a source from being the same, since a generated name does not depend on
them: a document can fail for a name that was generated.

* `clashes_of_duplicate`: the two names that a document fails for.
* `words_of_duplicate`: both are words, and neither was generated, as long as no word has the key of a
  name that was generated.
* `generated_of_duplicate`: a document that fails for a name that was generated.
-/

namespace IdlReader

/-- The words that a stream delivers. -/
def Stream.words (S : Stream) : List String := (S.tokens.filter Token.isWord).map Token.text

theorem Stream.mem_words {S : Stream} {w : String} :
    w ∈ S.words ↔ ∃ t ∈ S.tokens, t.isWord = true ∧ t.text = w := by
  unfold words
  rw [List.mem_map]
  constructor
  · rintro ⟨t, ht, rfl⟩
    obtain ⟨hMem, hWord⟩ := List.mem_filter.mp ht
    exact ⟨t, hMem, hWord, rfl⟩
  · rintro ⟨t, hMem, hWord, rfl⟩
    exact ⟨t, List.mem_filter.mpr ⟨hMem, hWord⟩, rfl⟩

namespace Document

open Parsing

variable {env : Environment} {files : FileTree} {input : Input} {r : Reader} {e : Fault}

/-- The words of a document that is read. -/
def vocabulary (hReader : reader env files input = .ok r) : Vocabulary where
  caseSensitive := env.enables .caseSensitiveNames
  words := r.stream.words
  names := by
    intro w hw
    obtain ⟨t, hMem, hWord, rfl⟩ := Stream.mem_words.mp hw
    exact lexical_reader env files input r hReader t hMem hWord

/-- When nothing was read there are no names. -/
theorem lists_session (hReader : reader env files input = .ok r) :
    (session env r.stream).Lists (vocabulary hReader) {} := by
  have hMade : ∀ name, ¬ (session env r.stream).Made name := by
    rintro name ⟨stem, -, n, hLt, -⟩
    exact Nat.not_lt_zero n hLt
  refine ⟨⟨rfl, fun s d k x hEntry => ?_, fun name h => absurd h (hMade name), nofun, nofun⟩,
    nofun, fun d hd hWord => ?_, fun f hEnding => Reader.category_of_ending hEnding⟩
  · have hScope : ((Tree.initial (env.enables .caseSensitiveNames)).scope s).get? d k = none := by
      cases s <;> cases d <;> rfl
    exact nomatch hScope.symm.trans hEntry
  · exact Stream.mem_words.mpr ⟨d.token, List.mem_map_of_mem hd, hWord, rfl⟩

/-- Where a document fails for names that clash, the entity that was added last is refused its name
for another one, and at most one of the two names was generated. -/
theorem clashes_of_duplicate (hReader : reader env files input = .ok r)
    (hRead : read env files input = .error e) (hDuplicate : e.cause.category = .duplicate) :
    ∃ f s, readRoot (session env r.stream) = .error f s ∧ e = complete s f ∧
      s.Clashes (vocabulary hReader) f := by
  have hRun := leaves_readRoot (session env r.stream) (lists_session hReader)
  rw [read_eq_ofStream hReader] at hRead
  obtain ⟨f, s, hResult, rfl⟩ := ofStream_eq_error.mp hRead
  rw [hResult] at hRun
  refine ⟨f, s, hResult, rfl, hRun ?_⟩
  rw [← hDuplicate, cause_complete]

/-- **Generated names are fresh** as long as no word has the key of a name that was generated: where
a document fails for names that clash, the name that is refused to the entity that was added last and
the name of the entity that it is refused for are words, and neither of them was generated. -/
theorem words_of_duplicate (hReader : reader env files input = .ok r)
    (hFresh : ∀ f s, readRoot (session env r.stream) = .error f s →
      ∀ t ∈ r.stream.tokens, t.isWord = true → ¬ s.Made (env.fold t.text))
    (hRead : read env files input = .error e) (hDuplicate : e.cause.category = .duplicate) :
    ∃ f s, readRoot (session env r.stream) = .error f s ∧ e = complete s f ∧
      ∃ id name other, s.tree.Latest id ∧ s.tree.Refuses id name other e.cause ∧ other ≠ id ∧
        (∃ t ∈ r.stream.tokens, t.isWord = true ∧ t.text = name) ∧
        (∃ t ∈ r.stream.tokens, t.isWord = true ∧ t.text = (s.tree.get other).name) ∧
        ¬ s.Made name ∧ ¬ s.Made (s.tree.get other).name := by
  obtain ⟨f, s, hRun, he, hCase, id, name, other, hLatest, hRefuses, hOther, hKey, hNames⟩ :=
    clashes_of_duplicate hReader hRead hDuplicate
  have hFold : ∀ w, s.tree.key w = env.fold w := fun w => Tree.key_eq_of_caseSensitive hCase w
  have hWords : ∀ w ∈ r.stream.words, ¬ s.Made (s.tree.key w) := by
    intro w hw
    obtain ⟨t, hMem, hWord, rfl⟩ := Stream.mem_words.mp hw
    rw [hFold]
    exact hFresh f s hRun t hMem hWord
  have hMade : ∀ w, s.Made w → s.tree.key w = w := fun w h =>
    s.tree.key_of_isGenerated h.isGenerated
  have hPlain : ∀ w ∈ r.stream.words, ¬ s.Made w := fun w hw h => hWords w hw ((hMade w h).symm ▸ h)
  have hBoth : name ∈ r.stream.words ∧ (s.tree.get other).name ∈ r.stream.words := by
    rcases hNames with ⟨hName, hMember | hMember⟩ | ⟨hName, hMember⟩
    · exact ⟨hName, hMember⟩
    · rw [hMade _ hMember] at hKey
      exact absurd (hKey ▸ hMember) (hWords name hName)
    · rw [hMade _ hName] at hKey
      exact absurd (hKey.symm ▸ hName) (hWords _ hMember)
  rw [← cause_complete (s := s) (f := f), ← he] at hRefuses
  exact ⟨f, s, hRun, he, id, name, other, hLatest, hRefuses, hOther,
    Stream.mem_words.mp hBoth.1, Stream.mem_words.mp hBoth.2, hPlain _ hBoth.1, hPlain _ hBoth.2⟩

/-- A struct with a nameless one in it and two fields of one name. -/
def repeatedFieldText : String := "struct T \x7b struct \x7b long a; \x7d; long b; long b; \x7d;"

theorem words_of_duplicate_field : ∃ r e,
    (reader {} ⟨[], []⟩ (.text repeatedFieldText) = .ok r ∧
      (∀ f s, readRoot (session {} r.stream) = .error f s →
        ∀ t ∈ r.stream.tokens, t.isWord = true → ¬ s.Made (Environment.fold {} t.text)) ∧
      read {} ⟨[], []⟩ (.text repeatedFieldText) = .error e ∧ e.cause.category = .duplicate) ∧
    ∃ f s, readRoot (session {} r.stream) = .error f s ∧ e = complete s f ∧
      ∃ id name other, s.tree.Latest id ∧ s.tree.Refuses id name other e.cause ∧ other ≠ id ∧
        (∃ t ∈ r.stream.tokens, t.isWord = true ∧ t.text = name) ∧
        (∃ t ∈ r.stream.tokens, t.isWord = true ∧ t.text = (s.tree.get other).name) ∧
        ¬ s.Made name ∧ ¬ s.Made (s.tree.get other).name := by
  have hRun : (match reader {} ⟨[], []⟩ (.text repeatedFieldText),
      read {} ⟨[], []⟩ (.text repeatedFieldText) with
      | .ok r, .error e => e.cause.category == .duplicate &&
          r.stream.tokens.all fun t => !(Environment.fold {} t.text).toList.contains '_'
      | _, _ => false) = true := by decide +kernel
  split at hRun
  · rename_i r e hReader hRead
    simp only [Bool.and_eq_true, List.all_eq_true, beq_iff_eq, Bool.not_eq_true',
      List.contains_eq_mem, decide_eq_false_iff_not] at hRun
    obtain ⟨hDuplicate, hPlain⟩ := hRun
    have hFresh : ∀ f s, readRoot (session {} r.stream) = .error f s →
        ∀ t ∈ r.stream.tokens, t.isWord = true → ¬ s.Made (Environment.fold {} t.text) :=
      fun _ _ _ t ht _ hMade => hPlain t ht hMade.isGenerated.line_mem
    exact ⟨r, e, ⟨hReader, hFresh, hRead, hDuplicate⟩,
      words_of_duplicate hReader hFresh hRead hDuplicate⟩
  · cases hRun

/-- A struct with a name that is generated for the first struct without one. -/
def namedText : String := "struct T \x7b struct struct_0 \x7b long a; \x7d; \x7d;"

/-- The same with a nameless struct behind it. -/
def takenNameText : String :=
  "struct T \x7b struct struct_0 \x7b long a; \x7d; struct \x7b long b; \x7d x; \x7d;"

/-- **A generated name that is taken.** A document that is read without a nameless struct fails with
it: the nameless struct is added last and refused the name that was generated for it. -/
theorem generated_of_duplicate :
    (∃ d, read {} ⟨[], []⟩ (.text namedText) = .ok d) ∧
    ∃ r f s, reader {} ⟨[], []⟩ (.text takenNameText) = .ok r ∧
      readRoot (session {} r.stream) = .error f s ∧
      read {} ⟨[], []⟩ (.text takenNameText) = .error (complete s f) ∧
      (complete s f).cause.category = .duplicate ∧
      ∃ id other, s.tree.Latest id ∧ s.tree.Refuses id "struct_0" other f.cause ∧
        s.Made "struct_0" := by
  refine ⟨?_, ?_⟩
  · have hRead : ((read {} ⟨[], []⟩ (.text namedText)).toOption.any fun _ => true) = true := by
      decide +kernel
    obtain ⟨d, hRead, -⟩ := any_toOption hRead
    exact ⟨d, hRead⟩
  · have hRun : ((reader {} ⟨[], []⟩ (.text takenNameText)).toOption.any fun r =>
        match readRoot (session {} r.stream) with
        | .error f s => f.cause == .nameTaken && s.generated.lookup "struct" == some 1 &&
            s.tree.size == 5 && !(s.tree.get 4).isRecord && (s.tree.get 4).name == "struct_0"
        | .ok _ _ => false) = true := by decide +kernel
    obtain ⟨r, hReader, hRun⟩ := any_toOption hRun
    split at hRun
    · rename_i f s hRoot
      simp only [Bool.and_eq_true, beq_iff_eq, Bool.not_eq_true'] at hRun
      obtain ⟨⟨⟨⟨hCause, hCount⟩, hSize⟩, hPlain⟩, hName⟩ := hRun
      have hRead : read {} ⟨[], []⟩ (.text takenNameText) = .error (complete s f) := by
        rw [read_eq_ofStream hReader]
        exact ofStream_eq_error.mpr ⟨f, s, hRoot, rfl⟩
      have hDuplicate : (complete s f).cause.category = .duplicate := by
        rw [cause_complete, hCause]
        rfl
      have hLast : s.tree.Latest 4 :=
        ⟨hSize ▸ by decide, hPlain, fun x hx hLt =>
          absurd (hSize ▸ hLt : x < 5) (Nat.not_lt_of_le hx)⟩
      obtain ⟨f', s', hRoot', -, -, id, name, other, hLatest, hRefuses, -⟩ :=
        clashes_of_duplicate hReader hRead hDuplicate
      rw [hRoot] at hRoot'
      cases hRoot'
      obtain rfl := hLatest.unique hLast
      refine ⟨r, f, s, hReader, hRoot, hRead, hDuplicate, 4, other, hLatest, ?_,
        "struct", by decide, 0, ?_, rfl⟩
      · rw [hCause] at hRefuses ⊢
        cases hRefuses with
        | taken hParent hScope hGiven hTaken hKind =>
          rw [hName] at hGiven
          subst hGiven
          exact .taken hParent hScope hName hTaken hKind
      · rw [hCount]
        exact Nat.one_pos
    · cases hRun

end Document

end IdlReader
