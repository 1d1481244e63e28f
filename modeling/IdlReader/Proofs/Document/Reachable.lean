import IdlReader.Document
import IdlReader.Proofs.Grammar.Content

/-!
# The trees of documents

Whatever is read, the tree of the document is reachable: it has grown from the root alone by
the steps of `Tree.Step`, each of which was allowed when it was made. So everything that steps
preserve holds of the tree of every document. The steps come in stages, in each of which some
definitions are being read, and at the end none is.

* `stages_of_read`: the stages of reading a document.
* `entries_of_read`: the entries of enumerations.
* `reachable_of_read`: the tree of a document.
-/

namespace IdlReader.Document

open IdlReader.Tree

theorem sound_session (env : Environment) {stream : Stream} (h : stream.Lexical) :
    (session env stream).Sound where
  reachable := ⟨_, .refl⟩
  entries := fun i => entry_initial _ i
  cache := lexical_nil
  stream := h

theorem body_initial (caseSensitive : Bool) : Parsing.Body (initial caseSensitive) root := by
  have hCalm : (initial caseSensitive).Calm :=
    fun id hRoot hLt => absurd (Nat.lt_one_iff.mp hLt) hRoot
  exact ⟨⟨⟨hCalm, size_pos_initial caseSensitive, rfl⟩, nofun⟩, nofun⟩

/-- The tree of a document is reached by stages, after the last of which nothing is open. -/
theorem stages_ofStream (env : Environment) {stream : Stream} (h : stream.Lexical) :
    Ok (ofStream env stream) fun d =>
      Stage.Advances (.start (env.enables .caseSensitiveNames)) ⟨d.tree, [], false⟩ := by
  intro d hd
  obtain ⟨s, hRun, rfl⟩ := ofStream_eq_ok.mp hd
  have hBody := body_initial (env.enables .caseSensitiveNames)
  exact (Parsing.grows_readRoot (sound_session env h) hBody _ s hRun).2.2 []

/-- Every entry of an enumeration has this enumeration as its type. -/
theorem entries_ofStream (env : Environment) {stream : Stream} (h : stream.Lexical) :
    Ok (ofStream env stream) fun d => ∀ i, d.tree.Entry i := by
  intro d hd
  obtain ⟨s, hRun, rfl⟩ := ofStream_eq_ok.mp hd
  have hBody := body_initial (env.enables .caseSensitiveNames)
  exact (Parsing.grows_readRoot (sound_session env h) hBody _ s hRun).1.entries

/-- What holds of all documents from streams of words holds of the documents that are read. -/
theorem of_read {env : Environment} {files : FileTree} {input : Input} {d : Document}
    {P : Document → Prop} (hP : ∀ stream : Stream, stream.Lexical → Ok (ofStream env stream) P)
    (h : read env files input = .ok d) : P d := by
  have hRead : Ok (read env files input) P := by
    refine ok_bind (lexical_reader env files input) ?_
    intro r hr
    exact hP _ hr
  exact hRead d h

theorem stages_of_read {env : Environment} {files : FileTree} {input : Input} {d : Document}
    (h : read env files input = .ok d) :
    Stage.Advances (.start (env.enables .caseSensitiveNames)) ⟨d.tree, [], false⟩ :=
  of_read (fun _ hStream => stages_ofStream env hStream) h

theorem entries_of_read {env : Environment} {files : FileTree} {input : Input} {d : Document}
    (h : read env files input = .ok d) : ∀ i, d.tree.Entry i :=
  of_read (fun _ hStream => entries_ofStream env hStream) h

theorem reachable_of_read {env : Environment} {files : FileTree} {input : Input} {d : Document}
    (h : read env files input = .ok d) : d.tree.Reachable :=
  ⟨_, (stages_of_read h).steps⟩

end IdlReader.Document
