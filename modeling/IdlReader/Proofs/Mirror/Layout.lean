import IdlReader.Proofs.Document.Fault
import IdlReader.Proofs.Document.Reachable
import IdlReader.Proofs.Mirror.Content
import IdlReader.Proofs.Mirror.Insertion
import IdlReader.Proofs.Source.Layout
import IdlReader.Proofs.Tree.Layout

/-!
# Another layout

Two streams that deliver tokens of the same kinds and texts, and record no directive, are read to trees
that differ at most in places and comments, or neither of them is accepted. Every entity of the one tree
stands for the entity with the same number of the other one.

Two texts that split into the same tokens, comments aside, are such streams. White space, line breaks and
comments only show in the positions and in the comments of entities.

* `Mirror.layout`: what may differ.
* `Document.ofStream_layout`: reading streams.
* `Document.read_of_layout`: texts that differ in their layout.
-/

/-! ## Streams -/

namespace IdlReader

open IdlReader.Tree

/-- All entities have the same numbers; places and comments may differ. -/
def Mirror.layout : Mirror where
  entity := id
  scope := id
  other := fun _ => default
  exact := False
  reading := True
  ends := fun _ _ _ => True
  ends_refl := fun _ _ => trivial
  entity_root := rfl
  entity_injective := Function.injective_id
  scope_injective := Function.injective_id

instance : Mirror.layout.Reading := ⟨trivial⟩

/-! ## What mirrors of this kind have in common -/

theorem Token.mirrors_layout_iff {t t' : Token} :
    t.Mirrors .layout t' ↔ t'.unplaced = t.unplaced := by
  constructor
  · intro h
    exact unplaced_eq_iff.mpr ⟨h.kind, h.text⟩
  · intro h
    obtain ⟨hKind, hText⟩ := unplaced_eq_iff.mp h
    exact ⟨hKind, hText, False.elim⟩

theorem Mirror.tokens_layout_iff {ts ts' : List Token} :
    Mirror.layout.Tokens ts ts' ↔ ts'.map Token.unplaced = ts.map Token.unplaced := by
  constructor
  · intro h
    induction h with
    | nil => rfl
    | cons ht _ ih => rw [List.map_cons, List.map_cons, Token.mirrors_layout_iff.mp ht, ih]
  · intro h
    induction ts generalizing ts' with
    | nil =>
      rw [List.map_eq_nil_iff.mp h]
      exact .nil
    | cons t ts ih =>
      obtain ⟨t', us, rfl, ht, hts⟩ := List.map_eq_cons_iff.mp h
      exact .cons (Token.mirrors_layout_iff.mpr ht) (ih hts)

theorem Mirror.allTokens_layout {l l' : List (List Token)}
    (h : List.Forall₂ Mirror.layout.Tokens l l') :
    l'.map (List.map Token.unplaced) = l.map (List.map Token.unplaced) := by
  induction h with
  | nil => rfl
  | cons ht _ ih => rw [List.map_cons, List.map_cons, Mirror.tokens_layout_iff.mp ht, ih]

theorem Declaration.Mirrors.unplaced {d d' : Declaration} (h : d.Mirrors .layout d') :
    d'.unplaced = d.unplaced := by
  have hType : d'.type = d.type := h.type.trans d.type.renumber_id
  have hList : ∀ {l l' : List EntityId}, l' = l.map Mirror.layout.entity → l' = l :=
    fun hMap => hMap.trans (List.map_id _)
  unfold Declaration.unplaced
  rw [hType, Mirror.allTokens_layout h.dimensions, h.sizes, Mirror.tokens_layout_iff.mp h.assignment,
    h.value, h.readonly, h.direction, h.constOperation, hList h.parameters, hList h.raises,
    hList h.getRaises, hList h.setRaises, Mirror.allTokens_layout h.labels, h.caseValues,
    h.defaultCase, h.progress]

theorem EntityData.Mirrors.unplaced {data data' : EntityData} (h : data.Mirrors .layout data') :
    data'.unplaced = data.unplaced := by
  cases h with
  | root records => exact congrArg EntityData.root (List.map_id records)
  | definition d => exact congrArg EntityData.definition d.renumber_id
  | declaration h => exact congrArg EntityData.declaration h.unplaced
  | record => rfl

theorem Entity.Mirrors.unplaced {i : EntityId} {e e' : Entity} (h : e.Mirrors .layout i e') :
    e'.unplaced = e.unplaced := by
  have hParent : e'.parent = e.parent := h.parent.trans Option.map_id'
  have hChildren : e'.children = e.children := h.children.trans (List.map_id _)
  have hScope : e'.scope = e.scope := h.scope.trans Option.map_id'
  unfold Entity.unplaced
  rw [h.kind, h.name, hParent, hChildren, hScope, h.forward, h.anonymous, h.data.unplaced]

theorem Tree.Mirrors.sameUnplaced {t t' : Tree} (h : t.Mirrors .layout t') : SameUnplaced t t' :=
  .of_get (h.next 0) fun i => (h.entity i).unplaced.symm

/-- A tree stands for itself. -/
theorem Tree.Reachable.mirrors_layout {t : Tree} (h : t.Reachable) : t.Mirrors .layout t where
  caseSensitive := rfl
  entity := h.mirrors_self (fun _ _ => rfl) fun _ _ => rfl
  scope := fun _ _ _ => Option.map_id'.symm
  other := fun i hi => absurd rfl (hi i)
  unentered := fun j hj => absurd rfl (hj j)
  size := Nat.le_refl _
  below := fun _ hi => hi
  next := fun _ => rfl
  scopesBelow := fun _ hj => hj
  scopesNext := fun _ => rfl

/-! ## Reading streams -/

namespace Document

variable {env : Environment} {S S' : Stream}

/-- Sessions in which tokens of the same kinds and texts are to come, and no directive is recorded. -/
theorem mirrors_session (env : Environment) {ts ts' : List Token} {g g' : Gathered}
    (hLexical : S.Lexical) (hSolid : Each Token.Solid S.tokens) (hSolid' : Each Token.Solid S'.tokens)
    (hEnding : S.ending = .ok g) (hEnding' : S'.ending = .ok g') (h : S.Plain ts g)
    (h' : S'.Plain ts' g') (hTokens : Alike ts ts') :
    (session env S).Mirrors .layout (session env S') := by
  have hBare : ∀ {S : Stream} {ts : List Token} {g : Gathered}, Each Token.Solid S.tokens →
      S.ending = .ok g → S.Plain ts g → (session env S).Bare ts := by
    intro S ts g hSolid hEnding h
    refine ⟨h.tokens, fun t ht => ?_, h.records, g, hEnding, h.gathered⟩
    rw [← h.tokens] at ht
    exact beq_eq_false_iff_ne.mpr (hSolid t ht).finish
  have hMirrored : Mirror.layout.Tokens ts ts' :=
    hTokens.imp fun t t' ht => ⟨ht.kind.symm, ht.text.symm, False.elim⟩
  have hSound := sound_session env hLexical
  exact ⟨hSound, hSound.reachable.mirrors_layout, rfl, fun _ => .loose id rfl
    (hBare hSolid hEnding h) (hBare hSolid' hEnding' h') hMirrored⟩

/-- What is read of a stream is read of a stream with another layout. -/
theorem ofStream_layout (h : (session env S).Mirrors .layout (session env S')) :
    Ok (ofStream env S) fun d => ∃ d', ofStream env S' = .ok d' ∧ SameUnplaced d.tree d'.tree := by
  intro d hd
  obtain ⟨s, hRun, rfl⟩ := ofStream_eq_ok.mp hd
  obtain ⟨_, s', hRun', -, hMirrors⟩ :=
    Parsing.follows_readRoot h (body_initial (env.enables .caseSensitiveNames)) () s hRun
  exact ⟨_, ofStream_eq_ok.mpr ⟨s', hRun', rfl⟩, hMirrors.tree.sameUnplaced⟩

end Document

end IdlReader

/-! ## Texts -/

namespace IdlReader.Document

open IdlReader.Tree

variable {env : Environment} (files : FileTree)

/-- The stream of a text without directives, from which the macros `macros` may be called. -/
theorem stream_of_text {macros : MacroTable} (hMacros : MacroTable.ofEnvironment env = .ok macros)
    {text : String}
    (hDirectives : ∀ t ∈ (Token.ofText env.lexicon true 0 text.toList).1, t.kind ≠ .directive) :
    ∃ r, reader env files (.text text) = .ok r ∧
      match tokenize env.lexicon true 0 text.toList with
      | .ok ts => Corresponds r.stream.Plain (Macro.expandAll macros true 0 ts) r.stream.ending
      | .error _ => ∃ f, r.stream.ending = .error f := by
  generalize hr : Reader.enter { env, files, macros } none text.toList .main = r
  have hLexicon := MacroTable.lexicon_ofEnvironment env macros hMacros
  have hTable : r.macros = macros := by rw [← hr]; rfl
  have hAlone : r.Alone := by rw [← hr]; exact ⟨rfl, rfl⟩
  have hAhead : r.ahead = none := by rw [← hr]; rfl
  have hFrames : r.frames = [⟨0, none, Cursor.ofText text.toList, 0⟩] := by rw [← hr]; rfl
  refine ⟨r, ?_, ?_⟩
  · change (Reader.ofEnvironment env files >>= _) = _
    unfold Reader.ofEnvironment
    rw [hMacros, ← hr]
    rfl
  · have hComes := Reader.comes_of_readAll hFrames hAhead (n := text.toList.length + 1)
      (Nat.lt_succ_self _)
    rw [hTable, hLexicon] at hComes
    have hComes := hComes hDirectives
    unfold tokenize Token.ofText
    revert hComes
    generalize Token.readAll env.lexicon true 0 (text.toList.length + 1)
      (Cursor.ofText text.toList) = x
    obtain ⟨all, fault⟩ := x
    intro hComes
    have hStream := Reader.stream_comes hAlone hAhead hComes
    rw [hTable] at hStream
    cases fault with
    | none => exact hStream
    | some f =>
      obtain ⟨f', hOpen⟩ := Macro.expandAll_open macros 0
        (all.filter fun t => t.kind ≠ .comment ∧ t.kind ≠ .finish)
      dsimp only [Option.isNone_some] at hStream ⊢
      rw [hOpen] at hStream
      generalize r.stream.ending = y at hStream
      cases hStream with
      | error f f' => exact ⟨f', rfl⟩

/-- Whether texts split into tokens of the same kinds and texts, comments aside, or none of them splits
into tokens. -/
def SameTokens (env : Environment) (text text' : String) : Prop :=
  Corresponds (fun ts us => ts.map Token.unplaced = us.map Token.unplaced)
    (tokenize env.lexicon true 0 text.toList) (tokenize env.lexicon true 0 text'.toList)

theorem SameTokens.symm {text text' : String} (h : SameTokens env text text') :
    SameTokens env text' text := (Corresponds.symm h).mono fun _ _ hSame => hSame.symm

/-- What is read of a text is read of a text with another layout. -/
theorem exists_layout {text text' : String} (h : SameTokens env text text')
    (hDirectives : ∀ t ∈ (Token.ofText env.lexicon true 0 text.toList).1, t.kind ≠ .directive)
    (hDirectives' : ∀ t ∈ (Token.ofText env.lexicon true 0 text'.toList).1, t.kind ≠ .directive) :
    Ok (read env files (.text text)) fun d => ∃ d', read env files (.text text') = .ok d' ∧
      SameUnplaced d.tree d'.tree := by
  intro d hd
  cases hMacros : MacroTable.ofEnvironment env with
  | error f =>
    have hReader : reader env files (.text text) = .error f := by
      change (Reader.ofEnvironment env files >>= _) = _
      unfold Reader.ofEnvironment
      rw [hMacros]
      rfl
    rw [read, hReader] at hd
    cases hd
  | ok macros =>
    obtain ⟨r, hReader, hStream⟩ := stream_of_text files hMacros hDirectives
    obtain ⟨r', hReader', hStream'⟩ := stream_of_text files hMacros hDirectives'
    obtain ⟨g, hEnding⟩ := ending_of_read hReader hd
    cases hSplit : tokenize env.lexicon true 0 text.toList with
    | error f =>
      rw [hSplit] at hStream
      obtain ⟨f', hFault⟩ := hStream
      cases hFault.symm.trans hEnding
    | ok ts =>
      rw [hSplit] at hStream
      obtain ⟨ts', hSplit', hSame⟩ := Corresponds.result h hSplit
      rw [hSplit'] at hStream'
      have hAlike : Alike ts ts' := .of_unplaced (expanded_tokenize ts hSplit)
        (expanded_tokenize ts' hSplit') hSame
      obtain ⟨us, hExpand, hPlain⟩ := hStream.symm.result hEnding
      obtain ⟨us', hExpand', hAlike'⟩ := (Macro.alike_expandAll 0 hAlike).result hExpand
      obtain ⟨g', hEnding', hPlain'⟩ := Corresponds.result hStream' hExpand'
      rw [read_eq_ofStream hReader] at hd
      rw [read_eq_ofStream hReader']
      exact ofStream_layout (mirrors_session env (lexical_reader env files _ r hReader)
        (solid_deliveries env files _ r hReader) (solid_deliveries env files _ r' hReader')
        hEnding hEnding' hPlain hPlain' hAlike') d hd

/-- **Layouts of texts.** Of two texts without directives that split into tokens of the same kinds and
texts, comments aside, both are accepted or none is. Where they are, entities with one number differ
at most in their positions, in the positions of the tokens that they keep and in their comments, and they
have one fingerprint. -/
theorem read_of_layout {text text' : String} (h : SameTokens env text text')
    (hDirectives : ∀ t ∈ (Token.ofText env.lexicon true 0 text.toList).1, t.kind ≠ .directive)
    (hDirectives' : ∀ t ∈ (Token.ofText env.lexicon true 0 text'.toList).1, t.kind ≠ .directive) :
    Corresponds (fun d d' => SameUnplaced d.tree d'.tree ∧
        ∀ id, d.tree.fingerprint id = d'.tree.fingerprint id)
      (read env files (.text text)) (read env files (.text text')) := by
  cases hRead : read env files (.text text) with
  | ok d =>
    obtain ⟨d', hRead', hSame⟩ := exists_layout files h hDirectives hDirectives' d hRead
    rw [hRead']
    exact .ok ⟨hSame, hSame.fingerprint⟩
  | error f =>
    cases hRead' : read env files (.text text') with
    | error f' => exact .error f f'
    | ok d' =>
      obtain ⟨d, hRead'', -⟩ := exists_layout files h.symm hDirectives' hDirectives d' hRead'
      cases hRead''.symm.trans hRead

/-- A constant below a comment, with a macro for its value. -/
def spacedText : String := "// The size.\nconst long SIZE\n  = N ;\n"

/-- The same constant on one line. -/
def denseText : String := "const long SIZE=N;"

/-- Both texts are accepted, and the constants differ in their comments and in their positions. -/
theorem read_of_layout_dense : ∃ d d',
    SameTokens { defines := ["N=2 + 1"] } spacedText denseText ∧
    read { defines := ["N=2 + 1"] } ⟨[], []⟩ (.text spacedText) = .ok d ∧
    read { defines := ["N=2 + 1"] } ⟨[], []⟩ (.text denseText) = .ok d' ∧
    (SameUnplaced d.tree d'.tree ∧ ∀ id, d.tree.fingerprint id = d'.tree.fingerprint id) ∧
    (d.tree.get 1).comments = "The size." ∧ (d'.tree.get 1).comments = "" ∧
    (d.tree.get 1).span.first = ⟨2, 1⟩ ∧ (d'.tree.get 1).span.first = ⟨1, 1⟩ := by
  have hTokens : ((tokenize (Environment.lexicon { defines := ["N=2 + 1"] }) true 0
      spacedText.toList).toOption.any fun ts =>
        (tokenize (Environment.lexicon { defines := ["N=2 + 1"] }) true 0
          denseText.toList).toOption.any fun us =>
            ts.map Token.unplaced == us.map Token.unplaced) = true := by
    decide +kernel
  obtain ⟨ts, hts, hTokens⟩ := any_toOption hTokens
  obtain ⟨us, hus, hTokens⟩ := any_toOption hTokens
  have hSame : SameTokens { defines := ["N=2 + 1"] } spacedText denseText := by
    unfold SameTokens
    rw [hts, hus]
    exact .ok (beq_iff_eq.mp hTokens)
  have hRead : ((read { defines := ["N=2 + 1"] } ⟨[], []⟩ (.text spacedText)).toOption.any fun d =>
      (d.tree.get 1).comments == "The size." && (d.tree.get 1).span.first == ⟨2, 1⟩) = true := by
    decide +kernel
  have hRead' : ((read { defines := ["N=2 + 1"] } ⟨[], []⟩ (.text denseText)).toOption.any fun d =>
      (d.tree.get 1).comments == "" && (d.tree.get 1).span.first == ⟨1, 1⟩) = true := by
    decide +kernel
  obtain ⟨d, hd, hRead⟩ := any_toOption hRead
  obtain ⟨d', hd', hRead'⟩ := any_toOption hRead'
  rw [Bool.and_eq_true, beq_iff_eq, beq_iff_eq] at hRead hRead'
  have hLayout := read_of_layout ⟨[], []⟩ hSame (by decide +kernel) (by decide +kernel)
  rw [hd, hd'] at hLayout
  cases hLayout with
  | ok h => exact ⟨d, d', hSame, hd, hd', h, hRead.1, hRead'.1, hRead.2, hRead'.2⟩

end IdlReader.Document
