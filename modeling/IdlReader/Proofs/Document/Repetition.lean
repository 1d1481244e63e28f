import IdlReader.Proofs.Document.Reachable
import IdlReader.Proofs.Fork.Path
import IdlReader.Proofs.Source.Delivery
import IdlReader.Proofs.Stage.Preorder

/-!
# Definitions that are declared once more

Where a definition is known in a scope, it may be declared by its name once more. The document then
has one entity more, to which nothing leads, and all others are what they are without the declaration,
with one exception: the first definition of the name ends at the semicolon.

* `Stage.Ordered.lookupInBases_eq_none`: names of members of what is being read are not inherited.
* `Document.reachable_of_reaches`: the trees between two statements of a run.
* `Tree.Gains`: what one entity more makes of a tree.
* `Document.read_of_repeated`: documents.
-/

namespace IdlReader

open IdlReader.Tree

/-! ## Names at a place -/

/-- A definition that is being read has no member with an inherited name. -/
theorem Stage.Ordered.lookupInBases_eq_none {t : Tree} {o x : EntityId} {os : List EntityId}
    (h : Stage.Ordered ⟨t, o :: os, false⟩) (hReachable : t.Reachable) (hx : t.Found x)
    (hParent : (t.get x).parent = some o) :
    t.lookupInBases o (t.key (t.get x).name) = none := by
  have hWellFormed := wellFormed_of_reachable hReachable
  unfold Tree.lookupInBases
  cases hd : (t.get o).definition? with
  | none => rfl
  | some d =>
    refine List.findSome?_eq_none_iff.mpr fun b hb => ?_
    refine Option.eq_none_iff_forall_ne_some.mpr fun y hy => ?_
    have hBase : t.Base o b := ⟨d, hd, hb⟩
    obtain ⟨hLater, a, hInherits, hyParent⟩ := hReachable.inherited_later hBase hx hParent hy
    have hFirst := (hReachable.inherits_named hBase hInherits).1
    have hoLt := hWellFormed.parent_lt hx.1.1 hParent
    have hDirective : (t.get y).kind ≠ .directive := by
      intro hKind
      rcases (hWellFormed.lookupWithin_found hy).2 with hFound | hFound
      · rw [hKind] at hFound
        cases hFound
      · rw [hKind] at hFound
        cases hFound
    -- What is inherited was read since `o` was opened, so what it stands in was read since, too.
    have hInside : t.Inside y o := h.opened o List.mem_cons_self y (Nat.lt_trans hoLt hLater)
      (lt_size_of_parent hyParent) hDirective
    obtain ⟨p, hp, hUp⟩ := Relation.TransGen.head'_iff.mp hInside
    obtain rfl : p = a := Option.some.inj (Eq.symm hp |>.trans hyParent)
    have hLe : o ≤ p := by
      clear hp hyParent hInherits hFirst
      induction hUp using Relation.ReflTransGen.head_induction_on with
      | refl => exact Nat.le_refl o
      | head hp _ ih => exact Nat.le_trans ih (Nat.le_of_lt (hWellFormed.parent_lt (lt_size_of_parent hp) hp))
    exact absurd hFirst (Nat.not_lt_of_le hLe)

/-- What a definition that is being read holds under a name is not inherited under this name. -/
theorem WrittenForward.Repeats.known {f : WrittenForward} {t : Tree} {o m : EntityId}
    {os : List EntityId} (h : f.Repeats t o m) (hOrdered : Stage.Ordered ⟨t, o :: os, false⟩)
    (hReachable : t.Reachable) : f.Known t o m := by
  have hWellFormed := wellFormed_of_reachable hReachable
  obtain ⟨s, hScope, hEntry⟩ := h.scope
  have hoLt := lt_size_of_scope hScope
  obtain ⟨hNamed, hRegistrable, -, hKey, p, hParent, hPlace⟩ :=
    hWellFormed.entry s false _ m (hWellFormed.scope_lt o s hoLt hScope) hEntry
  refine ⟨h, ?_⟩
  rcases hWellFormed.shared p o s (hWellFormed.parent_lt_size hNamed.1 hParent) hoLt hPlace hScope with
    rfl | ⟨-, hModule⟩
  · rw [hKey]
    exact hOrdered.lookupInBases_eq_none hReachable ⟨hNamed, hRegistrable⟩ hParent
  · -- Modules have no bases.
    unfold Tree.lookupInBases
    cases hd : (t.get o).definition? with
    | none => rfl
    | some d =>
      refine List.findSome?_eq_none_iff.mpr fun b hb => ?_
      obtain ⟨-, -, hKind, -, hSupports⟩ := (hReachable.heads hd).bases b hb
      rw [hKind, hModule] at hSupports
      cases hSupports

/-! ## Trees -/

/-- Whether a tree has the entities of another one and a definition more, with the number `k` and a
scope `j` of its own. It is in no list of children, and nothing is in its scope. What refers to
entities refers to the same ones under their new numbers. The entity `m` may end at `q`. -/
structure Tree.Gains (t t' : Tree) (k : EntityId) (j : ScopeId) (slot : Entity) (m : EntityId)
    (q : Position) : Prop where
  size : t'.size = t.size + 1
  lt : k < t'.size
  added : t'.get k = slot
  entity : ∀ i, ∃ last, (last = (t.get i).span.last ∨ i = m ∧ last = q) ∧
    t'.get (shift k i) = { (t.get i).renumber (shift k) (shift j) with
      span := ⟨(t.get i).span.first, last⟩ }
  children : ∀ i, k ∉ (t'.get i).children
  scope : ∀ i declaration key, (t'.scope (shift j i)).get? declaration key =
    ((t.scope i).get? declaration key).map (shift k)
  empty : ∀ declaration key, (t'.scope j).get? declaration key = none
  find : ∀ i name upwards, t'.find (shift k i) name upwards = (t.find i name upwards).map (shift k)
  findType : ∀ i name, t'.findType (shift k i) name = (t.findType i name).map (shift k)

/-- What a definition more stands for that only one of two readers meets. -/
theorem Tree.Reflects.gains {t t' : Tree} {k : EntityId} {j : ScopeId} {slot : Entity} {m : EntityId}
    {q : Position} {reading : Prop} {hk : 0 < k} (h : Reflects (.inserting hk j slot m q reading) t t')
    (hChildren : slot.children = []) : t.Gains t' k j slot m q := by
  have hSize : t'.size = t.size + 1 := by
    have hNext : shift k (t.size + k) = t'.size + k := h.mirrors.next k
    rw [shift_of_le (Nat.le_add_left _ _)] at hNext
    omega
  have hAdded : t'.get k = slot := h.mirrors.other k fun i => shift_ne k i
  refine ⟨hSize, ?_, hAdded, fun i => ?_, fun i hi => ?_, h.mirrors.scope,
    h.mirrors.unentered j fun i => shift_ne j i, h.find, h.findType⟩
  · -- The number behind all entities moves, so the new one is not behind them.
    have hNext : shift k (t.size + 0) = t'.size + 0 := h.mirrors.next 0
    rw [Nat.add_zero, Nat.add_zero, hSize] at hNext
    refine Nat.lt_of_not_le fun hLe => ?_
    rw [hSize] at hLe
    rw [shift_of_lt hLe] at hNext
    exact absurd hNext (Nat.ne_of_lt (Nat.lt_succ_self _))
  · have hEntity := h.mirrors.entity i
    exact ⟨_, hEntity.last trivial, hEntity.eq_renumber trivial⟩
  · by_cases hk : i = k
    · rw [hk, hAdded, hChildren] at hi
      exact absurd hi (List.not_mem_nil)
    · obtain ⟨i, rfl⟩ := exists_shift hk
      have hSame : (t'.get (shift k i)).children = (t.get i).children.map (shift k) :=
        (h.mirrors.entity i).children
      rw [hSame] at hi
      obtain ⟨c, -, hc⟩ := List.mem_map.mp hi
      exact shift_ne k c hc

/-! ## Sessions -/

namespace Parsing

variable {s u : Session}

theorem retains_fill {n : Nat} {t? : Option Token} (hPos : 0 < s.tree.size)
    (h : fill n s = .ok t? u) : Retains s.tree u.tree := by
  induction n generalizing s with
  | zero =>
    cases h
    exact .refl _
  | succ n ih =>
    obtain ⟨t, v, hFetch, h⟩ := bind_eq_ok.mp h
    have hRetains : Retains s.tree v.tree := by
      rcases fetch_eq_ok hFetch with ⟨d, ds, -, -, rfl⟩ | ⟨g, -, -, -, rfl⟩ <;>
        exact (records_addRecords hPos _).toRetains
    split at h
    · cases h
      exact hRetains
    · change fill n { v with cache := v.cache ++ [t] } = .ok t? u at h
      exact hRetains.trans (ih (s := { v with cache := v.cache ++ [t] })
        (Nat.lt_of_lt_of_le hPos hRetains.size) h)

/-- To look at the next tokens makes no difference to the tree but for recorded directives. -/
theorem retains_peek {i : Nat} {t : Token} (hPos : 0 < s.tree.size) (h : peek i s = .ok t u) :
    Retains s.tree u.tree := by
  unfold peek at h
  rw [bind_get] at h
  obtain ⟨t?, v, hFill, h⟩ := bind_eq_ok.mp h
  have hSame : v = u := by
    cases t? with
    | some t =>
      cases h
      rfl
    | none =>
      cases h
      rfl
  exact hSame ▸ retains_fill hPos hFill

end Parsing

/-! ## Streams -/

namespace Fork

/-- A stream in which a place comes behind the deliveries `ds`. -/
def stream (F : Fork) (ds : List Delivery) (sources : List SourceInfo) : Stream :=
  ⟨ds ++ F.deliveries, F.endingAhead, sources⟩

/-- The stream in which a definition is declared at the place. -/
def repeated (F : Fork) (ds : List Delivery) (sources : List SourceInfo) : Stream :=
  ⟨ds ++ ⟨F.gathered, F.declared.keyword⟩ :: F.behind, F.ending, sources⟩

variable (F : Fork) (ds : List Delivery) (sources : List SourceInfo)

theorem length_repeated :
    (F.repeated ds sources).deliveries.length = (F.stream ds sources).deliveries.length + 3 := by
  unfold stream repeated
  rw [List.length_append, List.length_append, List.length_cons, F.length_behind, F.length_deliveries]
  omega

/-- Readers of both streams start with the same. -/
theorem forks_session (env : Environment) : (Document.session env (F.stream ds sources)).Forks F
    (Document.session env (F.repeated ds sources)) :=
  ⟨rfl, rfl, rfl, .before ds rfl rfl rfl rfl rfl rfl rfl⟩

end Fork

namespace Document

variable {env : Environment} {S S' : Stream} {F : Fork} {o m : EntityId} {v : Session}

/-- Whether who reads a stream comes to a place between two statements in `o`, where the session
is `v`. -/
def Reaches (env : Environment) (S : Stream) (o : EntityId) (v : Session) : Prop :=
  Parsing.Comes o v (S.deliveries.length + 2) root (session env S)

theorem Reaches.sound_body (h : Reaches env S o v) (hLexical : S.Lexical) :
    v.Sound ∧ Parsing.Body v.tree o :=
  Parsing.Comes.sound_body h (sound_session env hLexical)
    (body_initial (env.enables .caseSensitiveNames))

/-- The trees in the middle of a run are reachable, also if the run fails later: what holds of all
reachable trees holds between any two statements of what is read. -/
theorem reachable_of_reaches {files : FileTree} {input : Input} {r : Reader}
    (hReader : reader env files input = .ok r) (h : Reaches env r.stream o v) : v.tree.Reachable :=
  (h.sound_body (lexical_reader env files input r hReader)).1.reachable

/-- Whether a stream differs from another one in that a definition is declared once more in `o`, at a
place that readers come to in the session `v`. The first definition of the name is `m`. Nothing is
gathered between the place and the token that is next there: who reads the statement in front of the
place looks at this token before the statement is over, so a directive there would be recorded in front
of what the statement still adds, and with the declaration behind it. -/
structure Declares (env : Environment) (S S' : Stream) (F : Fork) (o m : EntityId) (v : Session) :
    Prop where
  streams : ∃ ds sources, S = F.stream ds sources ∧ S' = F.repeated ds sources
  reaches : Reaches env S o v
  place : v.pending = F.size
  repeats : F.declared.Repeats v.tree o m

theorem readRoot_session (env : Environment) (S : Stream) : Parsing.readRoot (session env S) =
    Parsing.contentWithin (S.deliveries.length + 2) root (session env S) := rfl

/-- What the declaration makes of a document. -/
theorem Declares.ofStream (h : Declares env S S' F o m v) (hLexical : S.Lexical) :
    Ok (ofStream env S) fun d => ∃ d' k j, ofStream env S' = .ok d' ∧ d'.sources = d.sources ∧
      d.tree.Gains d'.tree k j (F.declared.slot o j) m F.declared.semicolon.position ∧
      (F.next = none → (d'.tree.get m).span.last = F.declared.semicolon.position) := by
  obtain ⟨ds, sources, rfl, rfl⟩ := h.streams
  intro d hd
  obtain ⟨r, hRun, rfl⟩ := ofStream_eq_ok.mp hd
  rw [readRoot_session] at hRun
  have hs := sound_session env hLexical
  have hBody := body_initial (env.enables .caseSensitiveNames)
  have hUnion : (v.tree.get o).kind ≠ .union := by
    intro hKind
    have hAdmits := h.repeats.admits
    rw [hKind] at hAdmits
    cases hAdmits
  have hLeads := h.reaches.leads F hs hBody hUnion
  obtain ⟨os, hStage⟩ := hLeads.stage []
  have hOrdered := Stage.Ordered.of_advances _ hStage
  obtain ⟨t, w, hPeek⟩ := h.reaches.exists_peek hs hBody hRun
  have hRetains := Parsing.retains_peek hLeads.sound.reachable.size_pos hPeek
  have hw := ((Parsing.keeps_peek 0).grows (R := Steps) hLeads.sound t w hPeek).1
  have hKnown := (h.repeats.known hOrdered hLeads.sound.reachable).retains hLeads.sound.reachable
    hRetains
  obtain ⟨r', hRun', hMirrors, hEnds⟩ := h.reaches.repeated
    (Nat.add_lt_add_right (Nat.lt_add_of_pos_right (Nat.succ_pos 2)) 2) hs hBody
    (F.forks_session ds sources env) h.place hPeek hw hKnown hUnion hRetains.size hRun
  have hGains := Reflects.gains ⟨hMirrors.tree, hMirrors.sound.reachable⟩ rfl
  rw [← F.length_repeated, ← readRoot_session] at hRun'
  exact ⟨_, _, _, ofStream_eq_ok.mpr ⟨r', hRun', rfl⟩, rfl, hGains, fun hNext => (hEnds hNext).2.2⟩

/-- **Repeated declarations.** If a known definition is declared once more by its name at some place
between two statements, the document has one entity more, to which nothing leads. Everything else stays,
but the first definition of this name may end at the semicolon of the declaration instead. It does if
nothing follows. -/
theorem read_of_repeated {files files' : FileTree} {input input' : Input} {r r' : Reader} {d : Document}
    (hReader : reader env files input = .ok r) (hReader' : reader env files' input' = .ok r')
    (hDeclares : Declares env r.stream r'.stream F o m v) (hRead : read env files input = .ok d) :
    ∃ d' k j, read env files' input' = .ok d' ∧ d'.sources = d.sources ∧
      d.tree.Gains d'.tree k j (F.declared.slot o j) m F.declared.semicolon.position ∧
      (F.next = none → (d'.tree.get m).span.last = F.declared.semicolon.position) := by
  have hLexical : r.stream.Lexical := lexical_reader env files input r hReader
  rw [read_eq_ofStream hReader] at hRead
  rw [read_eq_ofStream hReader']
  exact hDeclares.ofStream hLexical d hRead

/-- The declaration of a struct `S` on the second line. -/
def structDeclared : WrittenForward where
  kind := .struct
  keyword := ⟨.keyword, "struct", ⟨⟨2, 1⟩, ⟨2, 7⟩⟩, 0, false⟩
  name := ⟨.identifier, "S", ⟨⟨2, 8⟩, ⟨2, 9⟩⟩, 0, false⟩
  semicolon := ⟨.separator, ";", ⟨⟨2, 9⟩, ⟨2, 10⟩⟩, 0, false⟩
  hKeyword := by decide
  hName := by decide
  hSemicolon := by decide

/-- The end of a text, where the struct is declared. -/
def structFork : Fork :=
  ⟨structDeclared, {}, rfl, none, fun t ht => absurd ht (Option.not_mem_none t), [], .ok {},
    fun _ => ⟨rfl, rfl⟩⟩

/-- A struct. -/
def structText : String := "struct S \x7b long x; \x7d;\n"

/-- The same struct, which is declared once more behind it. -/
def repeatedText : String := "struct S \x7b long x; \x7d;\nstruct S;\n"

theorem eq_of_ending {g : Gathered} (h : S.ending.toOption = some g) :
    S = ⟨S.deliveries, .ok g, S.sources⟩ := by
  obtain ⟨deliveries, ending, sources⟩ := S
  cases ending with
  | ok g => cases h; rfl
  | error f => cases h

theorem exists_of_run' {α : Type} {x : Parsing α} {s : Session} {a : α} (h : x.run' s = some a) :
    ∃ u, x s = .ok a u := by
  unfold EStateM.run' EStateM.run at h
  cases hRun : x s with
  | ok b u =>
    rw [hRun] at h
    cases h
    exact ⟨u, rfl⟩
  | error f u =>
    rw [hRun] at h
    cases h

/-- Reads the first statement of a text. Gives the token in front of it, the session in which this was
looked at and the one behind the statement. -/
def firstStatement : Parsing (Token × Session × Session) := do
  let t ← Parsing.peek 0
  let s ← get
  Parsing.readStatement (Parsing.contentWithin 9) root
  let v ← get
  return (t, s, v)

theorem declares_struct : ∃ r r' v, reader {} ⟨[], []⟩ (.text structText) = .ok r ∧
    reader {} ⟨[], []⟩ (.text repeatedText) = .ok r' ∧
    Declares {} r.stream r'.stream structFork root 1 v := by
  have hReaders : ((reader {} ⟨[], []⟩ (.text structText)).toOption.any fun r =>
      (reader {} ⟨[], []⟩ (.text repeatedText)).toOption.any fun r' =>
        r.stream.deliveries.length == 8 && r.stream.ending.toOption == some {} &&
          r'.stream.deliveries == r.stream.deliveries ++ ⟨{}, structDeclared.keyword⟩ :: structFork.behind &&
          r'.stream.ending.toOption == some {} && r'.stream.sources == r.stream.sources &&
          (firstStatement.run' (session {} r.stream)).any fun x =>
            !x.1.isFinish && !x.1.is "\x7d" && x.2.2.pending == 0 &&
              (x.2.2.tree.get root).kind.admits (.definition .struct) &&
              (x.2.2.tree.get root).scope == some 0 &&
              (x.2.2.tree.scope 0).get? false (x.2.2.tree.key "S") == some 1 &&
              (x.2.2.tree.get 1).kind == .struct && !(x.2.2.tree.get 1).anonymous) = true := by
    decide +kernel
  obtain ⟨r, hReader, hReaders⟩ := any_toOption hReaders
  obtain ⟨r', hReader', hReaders⟩ := any_toOption hReaders
  simp only [Bool.and_eq_true, beq_iff_eq, Option.any_eq_true, Bool.not_eq_true'] at hReaders
  obtain ⟨⟨⟨⟨⟨hLength, hEnding⟩, hDeliveries'⟩, hEnding'⟩, hSources⟩, x, hRun, hKnown⟩ := hReaders
  obtain ⟨⟨⟨⟨⟨⟨⟨hFinish, hBrace⟩, hPlace⟩, hAdmits⟩, hScope⟩, hEntry⟩, hKind⟩, hWritten⟩ := hKnown
  obtain ⟨u, hRun⟩ := exists_of_run' hRun
  obtain ⟨t, s, hPeek, hRun⟩ := Parsing.bind_eq_ok.mp hRun
  rw [Parsing.bind_get] at hRun
  obtain ⟨⟨⟩, v, hStatement, hRun⟩ := Parsing.bind_eq_ok.mp hRun
  rw [Parsing.bind_get] at hRun
  obtain rfl : (t, s, v) = x := (EStateM.Result.ok.inj hRun).1
  refine ⟨r, r', v, hReader, hReader', ⟨r.stream.deliveries, r.stream.sources, ?_, ?_⟩, ?_, hPlace,
    hAdmits, ⟨0, hScope, hEntry⟩, hKind, hWritten⟩
  · refine (eq_of_ending hEnding).trans ?_
    change _ = (⟨r.stream.deliveries ++ [], .ok {}, r.stream.sources⟩ : Stream)
    rw [List.append_nil]
  · refine (eq_of_ending hEnding').trans ?_
    rw [hDeliveries', hSources]
    rfl
  · unfold Reaches
    rw [hLength]
    exact .behind ⟨t, s, hPeek, hFinish, hBrace, hStatement⟩ .here

/-- The struct ends on the second line when it is declared there once more. -/
theorem read_of_repeated_struct : ∃ r r' d v,
    (reader {} ⟨[], []⟩ (.text structText) = .ok r ∧ reader {} ⟨[], []⟩ (.text repeatedText) = .ok r' ∧
      Declares {} r.stream r'.stream structFork root 1 v ∧
      read {} ⟨[], []⟩ (.text structText) = .ok d) ∧
    ∃ d' k j, read {} ⟨[], []⟩ (.text repeatedText) = .ok d' ∧ d'.sources = d.sources ∧
      d.tree.Gains d'.tree k j (structDeclared.slot root j) 1 ⟨2, 9⟩ ∧
      (structFork.next = none → (d'.tree.get 1).span.last = ⟨2, 9⟩) := by
  obtain ⟨r, r', v, hReader, hReader', hDeclares⟩ := declares_struct
  have hRead : ((read {} ⟨[], []⟩ (.text structText)).toOption.any fun _ => true) = true := by
    decide +kernel
  obtain ⟨d, hRead, -⟩ := any_toOption hRead
  exact ⟨r, r', d, v, ⟨hReader, hReader', hDeclares, hRead⟩,
    read_of_repeated hReader hReader' hDeclares hRead⟩

/-- The declaration does not leave everything as it is: the struct ends on the first line without it. -/
theorem read_of_repeated_differs :
    ¬ ∀ (env : Environment) (files files' : FileTree) (input input' : Input) (r r' : Reader)
        (d d' : Document) (F : Fork) (o m : EntityId) (v : Session),
      reader env files input = .ok r → reader env files' input' = .ok r' →
      Declares env r.stream r'.stream F o m v → read env files input = .ok d →
      read env files' input' = .ok d' → (d'.tree.get m).span = (d.tree.get m).span := by
  intro hClaim
  obtain ⟨r, r', v, hReader, hReader', hDeclares⟩ := declares_struct
  have hRead : ((read {} ⟨[], []⟩ (.text structText)).toOption.any fun d =>
      (read {} ⟨[], []⟩ (.text repeatedText)).toOption.any fun d' =>
        (d'.tree.get 1).span != (d.tree.get 1).span) = true := by
    decide +kernel
  obtain ⟨d, hRead, hEnds⟩ := any_toOption hRead
  obtain ⟨d', hRead', hEnds⟩ := any_toOption hEnds
  have hSame := hClaim _ _ _ _ _ _ _ _ _ _ _ _ _ hReader hReader' hDeclares hRead hRead'
  rw [hSame, bne_self_eq_false] at hEnds
  cases hEnds

end Document

end IdlReader
