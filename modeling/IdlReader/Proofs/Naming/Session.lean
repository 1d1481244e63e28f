import IdlReader.Proofs.Grammar.Settling
import IdlReader.Proofs.Naming.Evaluation
import IdlReader.Proofs.Naming.Tree

/-!
# Names in a session

A session counts the names that it generated for each stem, so that a new one differs from all of
them. It gives a name to one entity at a time: the entity is added, a name is read or generated, and
the entity gets it before another one is added.

* `Registers.bind`, `Leaves.bind`, `Completes.bind`: actions one after the other.
* `registers_generateName`, `registers_addEntity`, `completes_nameEntity`: how an entity gets its
  name.
* `leaves_next`, `leaves_peek`, `leaves_putBack`: tokens.
* `leaves_of_settling`: evaluations.
-/

namespace IdlReader

/-! ## Sessions -/

/-- Whether a token, if it is a word, is one of the words of the source. -/
def Vocabulary.Admits (V : Vocabulary) (t : Token) : Prop := t.isWord = true → t.text ∈ V.words

theorem Vocabulary.Admits.lexical {V : Vocabulary} {t : Token} (h : V.Admits t) : t.Lexical :=
  fun hWord => V.names t.text (h hWord)

theorem Vocabulary.admits_of_not_isWord {V : Vocabulary} {t : Token} (h : t.isWord = false) :
    V.Admits t := by
  intro hWord
  rw [h] at hWord
  cases hWord

/-- Whether a name was generated in a session. -/
def Session.Made (s : Session) (name : String) : Prop :=
  ∃ stem ∈ stems, ∃ n, n < (s.generated.lookup stem).getD 0 ∧ name = generatedName stem n

theorem Session.Made.isGenerated {s : Session} {name : String} (h : s.Made name) :
    IsGenerated name := by
  obtain ⟨stem, hStem, n, -, hName⟩ := h
  exact ⟨stem, hStem, n, hName⟩

/-- Whether all names of a session are words of the source or were generated in it. -/
structure Session.Lists (V : Vocabulary) (ω : Pending) (s : Session) : Prop where
  tree : s.tree.Lists V s.Made ω
  cache : ∀ t ∈ s.cache, V.Admits t
  deliveries : ∀ d ∈ s.stream.deliveries, V.Admits d.token
  ending : ∀ f, s.stream.ending = .error f → f.cause.category ≠ .duplicate

/-- Whether a session ended with a fault because the entity that was added last is refused its name
for another entity. At most one of the two names was generated. -/
def Session.Clashes (V : Vocabulary) (s : Session) (f : Fault) : Prop :=
  s.tree.caseSensitive = V.caseSensitive ∧
    ∃ id name other, s.tree.Latest id ∧ s.tree.Refuses id name other f.cause ∧ other ≠ id ∧
      s.tree.key (s.tree.get other).name = s.tree.key name ∧
      (name ∈ V.words ∧ ((s.tree.get other).name ∈ V.words ∨ s.Made (s.tree.get other).name) ∨
        s.Made name ∧ (s.tree.get other).name ∈ V.words)

namespace Parsing

variable {α β : Type} {V : Vocabulary} {ω : Pending} {Q : Pending → α → Prop} {P : α → Prop}

/-- Whether an action keeps to the words of the source and the names that are generated, ends with
what has the property `Q`, and fails for names that clash only if one of them is a word. -/
def Registers (V : Vocabulary) (ω : Pending) (x : Parsing α) (Q : Pending → α → Prop) : Prop :=
  ∀ s, s.Lists V ω →
    match x s with
    | .ok a s' => ∃ ω', s'.Lists V ω' ∧ Q ω' a
    | .error f s' => f.cause.category = .duplicate → s'.Clashes V f

/-- Whether an action moreover leaves what is pending as it is. -/
abbrev Leaves (V : Vocabulary) (ω : Pending) (x : Parsing α) (P : α → Prop) : Prop :=
  Registers V ω x fun ω' a => ω' = ω ∧ P a

/-- Whether nothing is pending any more behind an action. -/
abbrev Completes (V : Vocabulary) (ω : Pending) (x : Parsing α) (P : α → Prop) : Prop :=
  Registers V ω x fun ω' a => ω' = {} ∧ P a

/-! ## Combination -/

theorem Registers.pure {a : α} (hQ : Q ω a) : Registers V ω (pure a) Q := fun _ hs => ⟨ω, hs, hQ⟩

theorem Leaves.pure {a : α} (hP : P a) : Leaves V ω (pure a) P := Registers.pure ⟨rfl, hP⟩

theorem Registers.bind {x : Parsing α} {f : α → Parsing β} {R : Pending → β → Prop}
    (hx : Registers V ω x Q) (hf : ∀ ω' a, Q ω' a → Registers V ω' (f a) R) :
    Registers V ω (x >>= f) R := by
  intro s hs
  have hRun := hx s hs
  cases hResult : x s with
  | ok a u =>
    rw [hResult] at hRun
    obtain ⟨ω', hu, hQ⟩ := hRun
    rw [bind_of_ok hResult]
    exact hf ω' a hQ u hu
  | error f u =>
    rw [hResult] at hRun
    rw [bind_of_error hResult]
    exact hRun

theorem Leaves.bind {x : Parsing α} {f : α → Parsing β} {R : Pending → β → Prop}
    (hx : Leaves V ω x P) (hf : ∀ a, P a → Registers V ω (f a) R) :
    Registers V ω (x >>= f) R := by
  refine Registers.bind hx ?_
  rintro _ a ⟨rfl, hP⟩
  exact hf a hP

theorem Completes.bind {x : Parsing α} {f : α → Parsing β} {R : Pending → β → Prop}
    (hx : Completes V ω x P) (hf : ∀ a, P a → Registers V {} (f a) R) :
    Registers V ω (x >>= f) R := by
  refine Registers.bind hx ?_
  rintro _ a ⟨rfl, hP⟩
  exact hf a hP

theorem Registers.ite {c : Prop} [Decidable c] {x y : Parsing α} (hx : c → Registers V ω x Q)
    (hy : ¬ c → Registers V ω y Q) : Registers V ω (if c then x else y) Q := by
  split
  · exact hx ‹_›
  · exact hy ‹_›

theorem Registers.get {f : Session → Parsing α} (h : ∀ s, Registers V ω (f s) Q) :
    Registers V ω (get >>= f) Q := fun s => h s s

theorem Registers.tree {f : Tree → Parsing α} (h : ∀ t, Registers V ω (f t) Q) :
    Registers V ω (tree >>= f) Q := fun s => h s.tree s

theorem Registers.entity {f : Entity → Parsing α} {id : EntityId}
    (h : ∀ e, Registers V ω (f e) Q) : Registers V ω (entity id >>= f) Q :=
  fun s => h (s.tree.get id) s

/-! ## Faults -/

theorem registers_throw {f : Fault} (h : f.cause.category ≠ .duplicate) :
    Registers V ω (throwThe Fault f : Parsing α) Q :=
  fun _ _ hDuplicate => absurd hDuplicate h

theorem registers_exhausted : Registers V ω (fail .inputExhausted : Parsing α) Q :=
  registers_throw nofun

theorem registers_failAtToken {cause : Cause} {t : Token} (h : cause.Plain) :
    Registers V ω (failAtToken cause t : Parsing α) Q := registers_throw h.category_ne

/-- A fault that is raised in front of further actions. -/
theorem registers_failAtToken_bind {cause : Cause} {t : Token} {f : β → Parsing α}
    (h : cause.Plain) : Registers V ω (failAtToken cause t >>= f) Q :=
  (registers_failAtToken (Q := fun _ _ => False) h).bind fun _ _ hFalse => hFalse.elim

/-! ## Changes that leave the names -/

theorem leaves_ofLiteral (t : Token) :
    Leaves V ω (Expression.orThrow (Constant.ofLiteral t) : Parsing Constant) fun _ => True := by
  cases hLiteral : Constant.ofLiteral t with
  | ok c => exact Leaves.pure trivial
  | error f => exact registers_throw (Constant.reasoned_ofLiteral hLiteral).category_ne

theorem leaves_modifyEntity (id : EntityId) {f : Entity → Entity}
    (hf : ∀ e, (f e).name = e.name ∧ (f e).isRecord = e.isRecord) :
    Leaves V ω (modifyEntity id f) fun _ => True := fun s hs =>
  ⟨ω, { hs with tree := hs.tree.agrees (Tree.agrees_modify s.tree id hf) fun _ =>
    Tree.notes_of_size (Tree.size_modify _ _ _) }, rfl, trivial⟩

theorem leaves_annotate (id : EntityId) {f : Entity → Entity}
    (hf : ∀ e, Entity.Annotates e (f e)) : Leaves V ω (modifyEntity id f) fun _ => True :=
  leaves_modifyEntity id fun e => ⟨(hf e).alike.name, (hf e).isRecord⟩

theorem leaves_modifyDeclaration (id : EntityId) (f : Declaration → Declaration) :
    Leaves V ω (modifyDeclaration id f) fun _ => True :=
  leaves_modifyEntity id fun e =>
    ⟨(Entity.alike_mapDeclaration f e).name, Entity.isRecord_mapDeclaration f e⟩

theorem leaves_mapDefinition (id : EntityId) (f : Definition → Definition) :
    Leaves V ω (modifyEntity id (Entity.mapDefinition f)) fun _ => True :=
  leaves_modifyEntity id fun e =>
    ⟨(Entity.alike_mapDefinition f e).name, Entity.isRecord_mapDefinition f e⟩

/-- Evaluations leave the names. -/
theorem leaves_of_settling {x : Parsing α} (h : Settling Tree.Settles x) (hPeaceful : Peaceful x) :
    Leaves V ω x fun _ => True := by
  intro s hs
  have hEnds := hPeaceful s
  unfold Ends at hEnds
  cases hRun : x s with
  | ok a u =>
    obtain ⟨hu, hSettles⟩ := h s a u hRun
    rw [hu]
    have hNotes : Tree.Notes s.tree u.tree :=
      Tree.notes_of_size (Tree.size_congr hSettles.outline)
    have hLists := hs.tree.agrees (Tree.agrees_of_outline hSettles.outline) fun _ => hNotes
    exact ⟨ω, { hs with tree := hLists }, rfl, trivial⟩
  | error f u =>
    rw [hRun] at hEnds
    exact fun hDuplicate => absurd hDuplicate hEnds

/-! ## Giving a name -/

/-- A name that is generated differs from all others. -/
theorem registers_generateName {entity : Option EntityId} {stem : String} (h : stem ∈ stems) :
    Registers V { entity } (generateName stem) fun ω' name => ω' = { entity, name := some name } := by
  intro s hs
  change ∃ ω', Session.Lists V ω' { s with
      generated := (stem, (s.generated.lookup stem).getD 0 + 1) :: s.generated } ∧
    ω' = { entity, name := some (generatedName stem ((s.generated.lookup stem).getD 0)) }
  generalize hCount : (s.generated.lookup stem).getD 0 = k
  have hNew : ¬ s.Made (generatedName stem k) := by
    rintro ⟨stem', hStem', n, hLt, hSame⟩
    obtain ⟨rfl, rfl⟩ := generatedName_inj h hStem' hSame
    exact Nat.ne_of_lt hLt hCount.symm
  have hMade : Session.Made { s with generated := (stem, k + 1) :: s.generated } =
      fun name => name = generatedName stem k ∨ s.Made name := by
    funext name
    refine propext ⟨?_, ?_⟩
    · rintro ⟨stem', hStem', n, hLt, rfl⟩
      rw [List.lookup_cons] at hLt
      split at hLt
      · rename_i hSame
        obtain rfl := eq_of_beq hSame
        rcases Nat.lt_succ_iff_lt_or_eq.mp hLt with hLt | rfl
        · exact Or.inr ⟨stem', hStem', n, hCount ▸ hLt, rfl⟩
        · exact Or.inl rfl
      · exact Or.inr ⟨stem', hStem', n, hLt, rfl⟩
    · rintro (rfl | ⟨stem', hStem', n, hLt, rfl⟩)
      · refine ⟨stem, h, k, ?_, rfl⟩
        rw [List.lookup_cons_self]
        exact Nat.lt_succ_self k
      · refine ⟨stem', hStem', n, ?_, rfl⟩
        rw [List.lookup_cons]
        split
        · rename_i hSame
          obtain rfl := eq_of_beq hSame
          exact Nat.lt_succ_of_lt (hCount ▸ hLt)
        · exact hLt
  refine ⟨_, ⟨?_, hs.cache, hs.deliveries, hs.ending⟩, rfl⟩
  rw [hMade]
  exact hs.tree.generate hNew ⟨stem, h, k, rfl⟩

theorem registers_addEntity {waiting : Option String} (parent : EntityId) (kind : EntityKind)
    (source : SourceId) (span : Span) {data : EntityData}
    (hPlain : data.isRecord = false) :
    Registers V { name := waiting } (addEntity parent kind source span data)
      fun ω' id => ω' = { entity := some id, name := waiting } := by
  intro s hs
  cases hRun : addEntity parent kind source span data s with
  | ok id u =>
    obtain ⟨hAdd, hu⟩ := addEntity_eq_ok.mp hRun
    rw [hu]
    exact ⟨_, { hs with tree := hs.tree.add hPlain hAdd }, rfl⟩
  | error f u =>
    obtain ⟨cause, hAdd, rfl, -⟩ := addEntity_eq_error hRun
    unfold Tree.add at hAdd
    dsimp only at hAdd
    split at hAdd
    · cases hAdd
      exact nofun
    · cases hAdd

/-- A name that was generated clashes with no other one that was. -/
theorem completes_nameEntity {waiting : Option String} (id : EntityId) {name : String}
    (h : V.Names waiting name) (forward listed : Bool) :
    Completes V { entity := some id, name := waiting } (nameEntity id name forward listed)
      fun _ => True := by
  intro s hs
  cases hRun : nameEntity id name forward listed s with
  | ok found u =>
    obtain ⟨hSet, hu⟩ := nameEntity_eq_ok.mp hRun
    rw [hu]
    exact ⟨_, { hs with tree := hs.tree.setName h hSet }, rfl, trivial⟩
  | error f u =>
    intro hDuplicate
    obtain ⟨cause, rfl, ⟨hPlace, rfl⟩ | ⟨place, hPlace, hEnter, rfl⟩⟩ := nameEntity_eq_error hRun
    · obtain ⟨other, hRefuses⟩ := Tree.refuses_of_namePlace hPlace hDuplicate
      exact ⟨hs.tree.caseSensitive, id, name, other, hs.tree.opened id rfl, hRefuses,
        hs.tree.clash h hRefuses⟩
    · have hRenamed := hs.tree.rename name
      obtain ⟨other, hRefuses⟩ :=
        Tree.refuses_of_enterName hPlace (hs.tree.opened id rfl).lt hEnter
      exact ⟨hRenamed.caseSensitive, id, name, other, hRenamed.opened id rfl, hRefuses,
        hRenamed.clash h hRefuses⟩

/-! ## Tokens -/

theorem admits_endToken (last : Option Token) : V.Admits (endToken last) := by
  intro hWord
  cases last <;> cases hWord

theorem leaves_fetch : Leaves V ω fetch V.Admits := by
  intro s hs
  cases hDeliveries : s.stream.deliveries with
  | cons d ds =>
    have hAdmits := hs.deliveries
    rw [hDeliveries] at hAdmits
    rw [fetch_delivery hDeliveries]
    refine ⟨ω, ?_, rfl, hAdmits d List.mem_cons_self⟩
    exact { hs with
      tree := hs.tree.agrees (Tree.agrees_addRecords s.tree _).1 fun _ =>
        (Tree.agrees_addRecords s.tree _).2
      deliveries := fun x hx => hAdmits x (List.mem_cons_of_mem d hx) }
  | nil =>
    cases hEnding : s.stream.ending with
    | ok g =>
      rw [fetch_ending hDeliveries hEnding]
      refine ⟨ω, ?_, rfl, admits_endToken s.last⟩
      exact { hs with
        tree := hs.tree.agrees (Tree.agrees_addRecords s.tree _).1 fun _ =>
          (Tree.agrees_addRecords s.tree _).2
        ending := fun _ hError => nomatch hError }
    | error f =>
      rw [fetch_error hDeliveries hEnding]
      exact fun hDuplicate => absurd hDuplicate (hs.ending f hEnding)

theorem leaves_next : Leaves V ω next V.Admits := by
  intro s hs
  cases hCache : s.cache with
  | cons t ts =>
    have hAdmits := hs.cache
    rw [hCache] at hAdmits
    rw [next_cached hCache]
    exact ⟨ω, { hs with cache := fun u hu => hAdmits u (List.mem_cons_of_mem t hu) }, rfl,
      hAdmits t List.mem_cons_self⟩
  | nil =>
    rw [next_of_nil hCache]
    exact leaves_fetch s hs

theorem leaves_modify {f : Session → Session} (hf : ∀ s, s.Lists V ω → (f s).Lists V ω) :
    Leaves V ω (modify f : Parsing PUnit) fun _ => True := fun s hs => ⟨ω, hf s hs, rfl, trivial⟩

theorem leaves_fill (n : Nat) : Leaves V ω (fill n) fun _ => True := by
  induction n with
  | zero => exact Leaves.pure trivial
  | succ n ih =>
    unfold fill
    refine leaves_fetch.bind fun t ht => Registers.ite (fun _ => Leaves.pure trivial) fun _ => ?_
    refine (leaves_modify fun s hs => ?_).bind fun _ _ => ih
    refine { hs with cache := List.forall_mem_append.mpr ⟨hs.cache, fun u hu => ?_⟩ }
    rw [List.mem_singleton.mp hu]
    exact ht

theorem leaves_peek (i : Nat) : Leaves V ω (peek i) fun _ => True := by
  unfold peek
  refine Registers.get fun s => (leaves_fill _).bind fun t? _ => ?_
  cases t? with
  | some t => exact Leaves.pure trivial
  | none => exact Registers.get fun s => Leaves.pure trivial

theorem leaves_putBack {t : Token} (ht : V.Admits t) : Leaves V ω (putBack t) fun _ => True :=
  Registers.ite (fun _ => Leaves.pure trivial) fun _ => leaves_modify fun _ hs =>
    { hs with cache := List.forall_mem_cons.mpr ⟨ht, hs.cache⟩ }

theorem leaves_tokensLeft : Leaves V ω tokensLeft fun _ => True :=
  Registers.get fun _ => Leaves.pure trivial

/-! ## Comments -/

theorem leaves_commentsAhead : Leaves V ω commentsAhead fun _ => True := by
  have hComments : Leaves V ω (do let s ← get; return s.comments) fun _ => True :=
    Registers.get fun _ => Leaves.pure trivial
  unfold commentsAhead
  exact Registers.get fun s => Registers.ite (fun _ => (leaves_peek 0).bind fun _ _ => hComments)
    fun _ => hComments

theorem leaves_skipAdjacentComments : Leaves V ω skipAdjacentComments fun _ => True :=
  (leaves_peek 0).bind fun _ _ => leaves_modify fun _ hs => { hs with }

theorem leaves_commentsBefore : Leaves V ω commentsBefore fun _ => True :=
  (leaves_peek 0).bind fun _ _ => leaves_commentsAhead.bind fun _ _ => Leaves.pure trivial

theorem leaves_attachBefore (id : EntityId) (comments : List Token) :
    Leaves V ω (attachBefore id comments) fun _ => True :=
  leaves_annotate id (Entity.annotates_attach comments)

theorem leaves_attachAfter (id : EntityId) (line : Nat) :
    Leaves V ω (attachAfter id line) fun _ => True := by
  unfold attachAfter
  refine Registers.entity fun e => leaves_commentsAhead.bind fun comments _ => ?_
  dsimp only
  refine Registers.ite (fun _ => Leaves.pure trivial) fun _ => ?_
  exact (leaves_annotate id fun e => Entity.annotates_attach_succeeding _ e).bind fun _ _ =>
    leaves_skipAdjacentComments

theorem leaves_endAt (id : EntityId) (t : Token) : Leaves V ω (endAt id t) fun _ => True :=
  leaves_annotate id fun _ => rfl

end Parsing

end IdlReader
