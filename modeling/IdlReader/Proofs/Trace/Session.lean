import IdlReader.Proofs.Grammar.Evaluation
import IdlReader.Proofs.Trace.Heedless
import IdlReader.Proofs.Trace.Tree

/-!
# Where faults are found and what is recorded

A fault of the grammar is placed at a token that was read, whatever was read behind that token in
the meantime: tokens stay in the session, in the declarations of the tree and in the hands of the
action that runs. The only other fault is the one that ended the reading of the sources, and no run
knows of that one before it fails with it. Which source the token comes from is not part of the place.

The directives on the way to a token are recorded when the token is read, those behind the last token
when the end is met.

* `Traces.bind`, `Traces.orAt`: actions one after the other, and faults that get a place.
* `traces_fetch`, `traces_peek`, `traces_putBack`: tokens.
* `traces_modifyDeclaration`, `traces_nameEntity`: what the tree keeps.
-/

namespace IdlReader

variable {S : Stream} {τ τ' : Trace} {p : Position}

/-- Whether a fault is found at a token that was read or has no place at all, or, if `reading`, is
the one that ended the stream. -/
def Stream.Explains (S : Stream) (reading : Prop) (read : List Delivery) (f : Fault) : Prop :=
  (f.file = none ∧ ∀ p ∈ f.position, S.Places read p) ∨
    (reading ∧ S.ending = .error f ∧ read = S.deliveries)

/-! ## Sessions -/

/-- Whether the end of a stream was met: it is delivered, or the stream does not end with a fault and
all its directives were recorded. -/
def Stream.Closes (S : Stream) (τ : Trace) : Prop :=
  (∃ d ∈ S.deliveries, d.token.isFinish = true) ∨
    (∃ g, S.ending = .ok g) ∧ S.records <+: τ.records

theorem Stream.Closes.mono (h : S.Closes τ) (hLater : τ.Extends τ') : S.Closes τ' :=
  h.imp_right fun ⟨hEnding, hRecords⟩ => ⟨hEnding, hRecords.trans hLater.records⟩

/-- Whether a session has come to a trace of a run over a stream: it holds tokens that were read, and
what was recorded. The end of the stream is never kept for later. -/
structure Session.Placed (S : Stream) (τ : Trace) (s : Session) : Prop where
  deliveries : τ.read ++ s.stream.deliveries = S.deliveries
  records : τ.records ++ s.stream.records = S.records
  last : s.last = τ.read.getLast?.map Delivery.token
  cache : S.Holds τ.read s.cache
  unfinished : ∀ t ∈ s.cache, t.isFinish = false
  tree : s.tree.Placed S τ
  ending : ∀ f, s.stream.ending = .error f ↔ S.ending = .error f
  sources : s.stream.sources = S.sources

namespace Parsing

variable {α β : Type} {reading : Prop}

/-- Whether an action, wherever a run has come at least to the trace `τ`, goes on, gives something that
has the property `Q` at the trace that it comes to, and fails with faults that are explained, whatever
the stream ends with. -/
def Traces (S : Stream) (reading : Prop) (τ : Trace) (x : Parsing α)
    (Q : Trace → α → Prop) : Prop :=
  ∀ s, s.Placed S τ →
    (match x s with
      | .ok a s' => ∃ τ', τ.Extends τ' ∧ s'.Placed S τ' ∧ Q τ' a
      | .error f s' => ∃ τ', τ.Extends τ' ∧ s'.Placed S τ' ∧ S.Explains reading τ'.read f) ∧
    Heedless reading x s

variable {Q : Trace → α → Prop}

/-! ## Combination -/

theorem Traces.pure {a : α} (hQ : Q τ a) : Traces S reading τ (pure a) Q :=
  fun _ hs => ⟨⟨τ, .refl τ, hs, hQ⟩, Heedless.pure a⟩

theorem Traces.bind {x : Parsing α} {f : α → Parsing β} {R : Trace → β → Prop}
    (hx : Traces S reading τ x Q)
    (hf : ∀ τ' a, τ.Extends τ' → Q τ' a → Traces S reading τ' (f a) R) :
    Traces S reading τ (x >>= f) R := by
  intro s hs
  obtain ⟨hRun, hEnd⟩ := hx s hs
  cases hResult : x s with
  | ok a u =>
    rw [hResult] at hRun
    obtain ⟨τ₁, hLater, hu, hQ⟩ := hRun
    obtain ⟨hRest, hEnd'⟩ := hf τ₁ a hLater hQ u hu
    refine ⟨?_, hEnd.bind fun b v hOther => ?_⟩
    · rw [bind_of_ok hResult]
      cases hResult' : f a u with
      | ok b v =>
        rw [hResult'] at hRest
        obtain ⟨τ₂, hLater', hv⟩ := hRest
        exact ⟨τ₂, hLater.trans hLater', hv⟩
      | error fault v =>
        rw [hResult'] at hRest
        obtain ⟨τ₂, hLater', hv⟩ := hRest
        exact ⟨τ₂, hLater.trans hLater', hv⟩
    · cases hResult.symm.trans hOther
      exact hEnd'
  | error fault u =>
    rw [hResult] at hRun
    refine ⟨?_, hEnd.bind fun b v hOther => ?_⟩
    · rw [bind_of_error hResult]
      exact hRun
    · cases hResult.symm.trans hOther

theorem Traces.mono {x : Parsing α} {R : Trace → α → Prop}
    (hx : Traces S reading τ x Q) (hQR : ∀ τ' a, τ.Extends τ' → Q τ' a → R τ' a) :
    Traces S reading τ x R := by
  rw [← bind_pure x]
  exact hx.bind fun τ' a hLater hQ => Traces.pure (hQR τ' a hLater hQ)

/-- An action that reads nothing may stand among actions that read. -/
theorem Traces.reads {x : Parsing α} (hx : Traces S False τ x Q) :
    Traces S reading τ x Q := by
  intro s hs
  obtain ⟨hRun, hEnd⟩ := hx s hs
  refine ⟨?_, hEnd.reads⟩
  cases hResult : x s with
  | ok a u =>
    rw [hResult] at hRun
    exact hRun
  | error fault u =>
    rw [hResult] at hRun
    obtain ⟨τ₁, hLater, hu, hFault⟩ := hRun
    exact ⟨τ₁, hLater, hu, hFault.imp_right fun h => h.1.elim⟩

theorem Traces.ite {c : Prop} [Decidable c] {x y : Parsing α} (hx : c → Traces S reading τ x Q)
    (hy : ¬ c → Traces S reading τ y Q) : Traces S reading τ (if c then x else y) Q := by
  split
  · exact hx ‹_›
  · exact hy ‹_›

/-! ## Faults -/

theorem traces_throw {f : Fault} (hf : S.Explains reading τ.read f) :
    Traces S reading τ (throwThe Fault f : Parsing α) Q :=
  fun _ hs => ⟨⟨τ, .refl τ, hs, hf⟩, Heedless.throw f⟩

theorem traces_fail (cause : Cause) : Traces S reading τ (fail cause : Parsing α) Q :=
  traces_throw (Or.inl ⟨rfl, fun _ hp => by cases hp⟩)

theorem explains_placed (cause : Cause) (hp : S.Places τ.read p) :
    S.Explains reading τ.read ((Fault.of cause).placed p) := by
  refine Or.inl ⟨rfl, fun q hq => ?_⟩
  cases hq
  exact hp

theorem traces_failAt (cause : Cause) (hp : S.Places τ.read p) :
    Traces S reading τ (failAt cause p : Parsing α) Q := traces_throw (explains_placed cause hp)

theorem traces_failAtToken (cause : Cause) {t : Token} (ht : S.Places τ.read t.position) :
    Traces S reading τ (failAtToken cause t : Parsing α) Q := traces_failAt cause ht

/-- A fault that is raised in front of further actions. -/
theorem traces_failAtToken_bind (cause : Cause) {t : Token} (ht : S.Places τ.read t.position)
    {f : β → Parsing α} : Traces S reading τ (failAtToken cause t >>= f) Q :=
  (traces_failAtToken (Q := fun _ _ => False) cause ht).bind fun _ _ _ h => h.elim

theorem traces_failAt_bind (cause : Cause) (hp : S.Places τ.read p) {f : β → Parsing α} :
    Traces S reading τ (failAt cause p >>= f) Q :=
  (traces_failAt (Q := fun _ _ => False) cause hp).bind fun _ _ _ h => h.elim

theorem traces_orFail (x : Except Cause α) :
    Traces S reading τ (orFail x) fun _ a => x = .ok a := by
  cases x with
  | ok a => exact Traces.pure rfl
  | error cause => exact traces_fail cause

theorem traces_orFailAt (hp : S.Places τ.read p) (x : Except Cause α) :
    Traces S reading τ (Expression.orFailAt p x : Parsing α) fun _ _ => True := by
  cases x with
  | ok a => exact Traces.pure trivial
  | error cause => exact traces_failAt cause hp

/-- A literal is at fault where it stands. -/
theorem traces_ofLiteral {t : Token} (ht : S.Places τ.read t.position) :
    Traces S reading τ (Expression.orThrow (Constant.ofLiteral t) : Parsing Constant)
      fun _ _ => True := by
  unfold Constant.ofLiteral
  split
  · rename_i kind _
    cases Constant.ofLiteralText kind t.text.toList with
    | ok c => exact Traces.pure trivial
    | error cause => exact traces_throw (explains_placed cause ht)
  · exact traces_throw (explains_placed _ ht)

/-- An action that reads nothing, with a place for faults that have none. -/
theorem Traces.orAt {x : Parsing α} (hp : S.Places τ.read p) (hx : Traces S False τ x Q) :
    Traces S False τ (orAt p x) Q := by
  intro s hs
  obtain ⟨hRun, hEnd⟩ := hx s hs
  refine ⟨?_, hEnd.orAt⟩
  simp only [Parsing.orAt, tryCatchThe, MonadExceptOf.tryCatch]
  delta EStateM.tryCatch
  cases hResult : x s with
  | ok a u =>
    rw [hResult] at hRun
    exact hRun
  | error f u =>
    rw [hResult] at hRun
    obtain ⟨τ₁, hLater, hu, hFault⟩ := hRun
    refine ⟨τ₁, hLater, hu, ?_⟩
    obtain ⟨hFile, hPosition⟩ := hFault.resolve_right fun h => h.1
    refine Or.inl ⟨hFile, fun q hq => ?_⟩
    rcases Option.or_eq_some_iff.mp hq with hKnown | ⟨-, hPlace⟩
    · exact hPosition q hKnown
    · cases hPlace
      exact hp.mono hLater

/-! ## The state -/

/-- What depends on the session, but not on how the stream ends. -/
theorem Traces.get {f : Session → Parsing β} {R : Trace → β → Prop}
    (hEnd : ∀ s ending, f (s.ended ending) = f s)
    (hf : ∀ s, s.Placed S τ → Traces S reading τ (f s) R) :
    Traces S reading τ (get >>= f) R := fun s hs =>
  ⟨(hf s hs s hs).1, Heedless.get (hEnd s) (hf s hs s hs).2⟩

theorem traces_tree : Traces S reading τ tree fun _ _ => True :=
  fun _ hs => ⟨⟨τ, .refl τ, hs, trivial⟩, Heedless.of_forall fun _ => rfl⟩

theorem traces_entity (id : EntityId) :
    Traces S reading τ (entity id) fun τ' e => e.Placed S τ'.read :=
  fun _ hs => ⟨⟨τ, .refl τ, hs, hs.tree.entity id⟩, Heedless.of_forall fun _ => rfl⟩

theorem traces_modifyTree {f : Tree → Tree} (hf : ∀ t, t.Placed S τ → (f t).Placed S τ) :
    Traces S reading τ (modifyTree f) fun _ _ => True :=
  fun _ hs => ⟨⟨τ, .refl τ, { hs with tree := hf _ hs.tree }, trivial⟩, Heedless.modify fun _ => rfl⟩

/-- A note on an entity that is no recorded directive. -/
theorem traces_annotate {id : EntityId} (hId : τ.Knows id) {f : Entity → Entity}
    (hf : ∀ e, Entity.Annotates e (f e)) (hFirst : ∀ e, (f e).span.first = e.span.first) :
    Traces S reading τ (modifyEntity id f) fun _ _ => True := by
  refine traces_modifyTree fun _ ht => ht.modify_known hId (fun e he => ?_) fun e => (hf e).isRecord
  refine he.congr ?_ (hFirst e)
  rw [hf e]
  rfl

theorem traces_modifyDeclaration (id : EntityId) {f : Declaration → Declaration}
    (hf : ∀ d, d.Placed S τ.read → (f d).Placed S τ.read) :
    Traces S reading τ (modifyDeclaration id f) fun _ _ => True :=
  traces_modifyTree fun _ ht => ht.modify id (fun _ he => he.mapDeclaration hf)
    (Entity.isRecord_mapDeclaration f) fun r _ => r.mapDeclaration_entity f

theorem traces_mapDefinition (id : EntityId) (f : Definition → Definition) :
    Traces S reading τ (modifyEntity id (Entity.mapDefinition f)) fun _ _ => True :=
  traces_modifyTree fun _ ht => ht.modify id (fun _ he => he.mapDefinition f)
    (Entity.isRecord_mapDefinition f) fun r _ => r.mapDefinition_entity f

theorem traces_addEntity {parent : EntityId} {kind : EntityKind} {source : SourceId} {span : Span}
    {data : EntityData} (hPlain : data.isRecord = false)
    (hNew : ∀ d, data = .declaration d → S.Places τ.read span.first ∧ d.Placed S τ.read) :
    Traces S reading τ (addEntity parent kind source span data) fun τ' id => τ'.Knows id := by
  intro s hs
  refine ⟨?_, heedless_addEntity _ _ _ _ _⟩
  cases hRun : addEntity parent kind source span data s with
  | ok id u =>
    obtain ⟨hAdd, hu⟩ := addEntity_eq_ok.mp hRun
    obtain ⟨hTree, hKnows⟩ := hs.tree.add hPlain hNew hAdd
    rw [hu]
    refine ⟨τ.add, τ.extends_add, { hs with records := ?_, tree := hTree }, hKnows⟩
    rw [Trace.records_add]
    exact hs.records
  | error f u =>
    obtain ⟨cause, -, rfl, rfl⟩ := addEntity_eq_error hRun
    exact ⟨τ, .refl τ, hs, Or.inl ⟨rfl, nofun⟩⟩

theorem traces_nameEntity {id : EntityId} (hId : τ.Knows id) (name : String)
    (forward listed : Bool) :
    Traces S reading τ (nameEntity id name forward listed) fun τ' found => τ'.Knows found := by
  intro s hs
  refine ⟨?_, heedless_nameEntity _ _ _ _⟩
  cases hRun : nameEntity id name forward listed s with
  | ok found u =>
    obtain ⟨hSet, hu⟩ := nameEntity_eq_ok.mp hRun
    obtain ⟨hTree, hKnows⟩ := hs.tree.setName hId hSet
    rw [hu]
    exact ⟨τ, .refl τ, { hs with tree := hTree }, hKnows⟩
  | error f u =>
    obtain ⟨cause, rfl, ⟨-, rfl⟩ | ⟨place, -, -, rfl⟩⟩ := nameEntity_eq_error hRun
    · exact ⟨τ, .refl τ, hs, Or.inl ⟨rfl, nofun⟩⟩
    · exact ⟨τ, .refl τ, { hs with tree := hs.tree.rename hId name }, Or.inl ⟨rfl, nofun⟩⟩

/-! ## Tokens -/

/-- The end of what was read stands where its last token ends. -/
theorem places_endToken {s : Session} (hs : s.Placed S τ) (hEnd : s.stream.deliveries = []) :
    S.Places τ.read (endToken s.last).position := by
  have hAll : τ.read = S.deliveries := by
    have hSplit := hs.deliveries
    rwa [hEnd, List.append_nil] at hSplit
  rw [hs.last]
  cases hLast : τ.read.getLast? with
  | none => exact Or.inl (hAll ▸ List.getLast?_eq_none_iff.mp hLast)
  | some d => exact Or.inr ⟨d, List.mem_of_getLast? hLast, Or.inr rfl⟩

theorem traces_fetch : Traces S True τ fetch fun τ' t =>
    S.Places τ'.read t.position ∧ (t.isFinish = true → S.Closes τ') := by
  intro s hs
  refine ⟨?_, heedless_fetch⟩
  cases hDeliveries : s.stream.deliveries with
  | cons d ds =>
    rw [fetch_delivery hDeliveries]
    have hLater := τ.extends_deliver d
    have hSplit : τ.read ++ [d] ++ ds = S.deliveries := by
      rw [List.append_assoc, List.singleton_append, ← hDeliveries]
      exact hs.deliveries
    have hRecords : (τ.deliver d).records ++ Stream.records { s.stream with deliveries := ds } =
        S.records := by
      rw [← hs.records, Stream.records, Stream.records, hDeliveries, List.flatMap_cons,
        List.append_assoc]
      change (τ.record d.gathered.records).records ++ _ = _
      rw [Trace.records_record, List.append_assoc]
    have hMem : d ∈ τ.read ++ [d] := List.mem_append_right _ List.mem_cons_self
    refine ⟨τ.deliver d, hLater, ⟨hSplit, hRecords, ?_, hs.cache.mono hLater, hs.unfinished,
      (hs.tree.addRecords _).later (List.prefix_append _ _), hs.ending, hs.sources⟩,
      Or.inr ⟨d, hMem, Or.inl rfl⟩, fun hFinish => ?_⟩
    · change some d.token = (τ.read ++ [d]).getLast?.map Delivery.token
      rw [List.getLast?_concat]
      rfl
    · exact Or.inl ⟨d, hSplit ▸ List.mem_append_left ds hMem, hFinish⟩
  | nil =>
    cases hEnding : s.stream.ending with
    | ok g =>
      have hClosed : ∀ f, S.ending ≠ .error f := by
        intro f hFault
        rw [← hs.ending, hEnding] at hFault
        cases hFault
      have hAll : (τ.record g.records).records = S.records := by
        rw [Trace.records_record, ← hs.records, Stream.records, hDeliveries, hEnding]
        rfl
      have hLater := τ.extends_record g.records
      rw [fetch_ending hDeliveries hEnding]
      refine ⟨τ.record g.records, hLater, ⟨hs.deliveries, ?_, hs.last, hs.cache, hs.unfinished,
        hs.tree.addRecords _, fun f => ⟨nofun, fun hFault => absurd hFault (hClosed f)⟩, hs.sources⟩,
        (places_endToken hs hDeliveries).mono hLater, fun _ => Or.inr ⟨?_, hAll ▸ List.prefix_rfl⟩⟩
      · rw [hAll]
        change S.records ++ ((s.stream.deliveries.flatMap fun d => d.gathered.records) ++ []) = _
        rw [hDeliveries]
        exact List.append_nil _
      · cases hEnd : S.ending with
        | ok g => exact ⟨g, rfl⟩
        | error f => exact absurd hEnd (hClosed f)
    | error f =>
      rw [fetch_error hDeliveries hEnding]
      refine ⟨τ, .refl τ, hs, Or.inr ⟨trivial, (hs.ending f).mp hEnding, ?_⟩⟩
      rw [← hs.deliveries, hDeliveries, List.append_nil]

theorem traces_next : Traces S True τ next fun τ' t => S.Places τ'.read t.position := by
  intro s hs
  refine ⟨?_, heedless_next⟩
  cases hCache : s.cache with
  | cons t ts =>
    rw [next_cached hCache]
    have hTokens := hs.cache
    have hUnfinished := hs.unfinished
    rw [hCache] at hTokens hUnfinished
    obtain ⟨ht, hRest⟩ := Stream.holds_cons.mp hTokens
    exact ⟨τ, .refl τ, { hs with
      cache := hRest
      unfinished := fun u hu => hUnfinished u (List.mem_cons_of_mem t hu) }, ht⟩
  | nil =>
    rw [next_of_nil hCache]
    exact (traces_fetch.mono (fun _ _ _ ht => ht.1) s hs).1

/-- A change of a session that goes the same way however the stream ends. -/
theorem traces_modify {f : Session → Session}
    (hEnd : ∀ s ending, f (s.ended ending) = (f s).ended ending)
    (hf : ∀ s, s.Placed S τ → (f s).Placed S τ) :
    Traces S reading τ (modify f : Parsing PUnit) fun _ _ => True :=
  fun s hs => ⟨⟨τ, .refl τ, hf s hs, trivial⟩, Heedless.modify (hEnd s)⟩

theorem traces_fill (n : Nat) : Traces S True τ (fill n) fun τ' t? =>
    ∀ t ∈ t?, S.Places τ'.read t.position ∧ (t.isFinish = true → S.Closes τ') := by
  induction n generalizing τ with
  | zero => exact Traces.pure nofun
  | succ n ih =>
    unfold fill
    refine traces_fetch.bind fun τ₁ t _ ht => Traces.ite (fun _ => Traces.pure ?_) fun hNew => ?_
    · rintro u hu
      cases hu
      exact ht
    · refine (traces_modify (fun _ _ => rfl) fun s hs => ?_).bind fun _ _ _ _ => ih
      refine { hs with
        cache := hs.cache.append (Stream.holds_cons.mpr ⟨ht.1, Stream.holds_nil⟩)
        unfinished := List.forall_mem_append.mpr ⟨hs.unfinished, fun u hu => ?_⟩ }
      rw [List.mem_singleton.mp hu]
      exact Bool.eq_false_iff.mpr hNew

theorem traces_peekEnd (i : Nat) : Traces S True τ (peek i) fun τ' t =>
    S.Places τ'.read t.position ∧ (t.isFinish = true → S.Closes τ') := by
  intro s hs
  refine ⟨?_, heedless_peek i⟩
  have hFill := (traces_fill (i + 1 - s.cache.length) s hs).1
  unfold peek
  rw [bind_of_ok (show (get : Parsing Session) s = .ok s s from rfl)]
  cases hRun : fill (i + 1 - s.cache.length) s with
  | error f u =>
    rw [hRun] at hFill
    rw [bind_of_error hRun]
    exact hFill
  | ok t? u =>
    rw [hRun] at hFill
    obtain ⟨τ₁, hLater, hu, ht⟩ := hFill
    rw [bind_of_ok hRun]
    cases t? with
    | some t => exact ⟨τ₁, hLater, hu, ht t rfl⟩
    | none =>
      have hLength := length_fill hRun
      have hLt : i < u.cache.length := by omega
      refine ⟨τ₁, hLater, hu, ?_⟩
      rw [List.getElem?_eq_getElem hLt]
      have hMem := List.getElem_mem hLt
      refine ⟨hu.cache _ hMem, fun hFinish => ?_⟩
      rw [Option.getD_some, hu.unfinished _ hMem] at hFinish
      cases hFinish

theorem traces_peek (i : Nat) :
    Traces S True τ (peek i) fun τ' t => S.Places τ'.read t.position :=
  (traces_peekEnd i).mono fun _ _ _ ht => ht.1

theorem traces_putBack {t : Token} (ht : S.Places τ.read t.position) :
    Traces S reading τ (putBack t) fun _ _ => True := by
  unfold putBack
  refine Traces.ite (fun _ => Traces.pure trivial) fun hKept =>
    traces_modify (fun _ _ => rfl) fun s hs => ?_
  exact { hs with
    cache := Stream.holds_cons.mpr ⟨ht, hs.cache⟩
    unfinished := List.forall_mem_cons.mpr ⟨Bool.eq_false_iff.mpr hKept, hs.unfinished⟩ }

theorem traces_tokensLeft : Traces S reading τ tokensLeft fun _ _ => True :=
  Traces.get (fun _ _ => rfl) fun _ _ => Traces.pure trivial

theorem traces_generateName (stem : String) :
    Traces S reading τ (generateName stem) fun _ _ => True :=
  fun _ hs => ⟨⟨τ, .refl τ, { hs with }, trivial⟩, Heedless.of_forall fun _ => rfl⟩

/-! ## Comments -/

theorem traces_commentsAhead : Traces S True τ commentsAhead fun _ _ => True := by
  unfold commentsAhead
  have hComments : ∀ {τ : Trace}, Traces S True τ
      (do let s ← get; return s.comments) fun _ (_ : List Token) => True :=
    Traces.get (fun _ _ => rfl) fun _ _ => Traces.pure trivial
  refine Traces.get (fun _ _ => rfl) fun s _ => ?_
  refine Traces.ite (fun _ => ?_) fun _ => hComments
  exact (traces_peek 0).bind fun _ _ _ _ => hComments

theorem traces_skipAdjacentComments :
    Traces S True τ skipAdjacentComments fun _ _ => True := by
  unfold skipAdjacentComments
  exact (traces_peek 0).bind fun _ _ _ _ => traces_modify (fun _ _ => rfl) fun s hs => { hs with }

theorem traces_commentsBefore : Traces S True τ commentsBefore fun _ _ => True := by
  unfold commentsBefore
  exact (traces_peek 0).bind fun _ _ _ _ => traces_commentsAhead.bind fun _ _ _ _ =>
    Traces.pure trivial

theorem traces_attachBefore {id : EntityId} (hId : τ.Knows id) (comments : List Token) :
    Traces S reading τ (attachBefore id comments) fun _ _ => True :=
  traces_annotate hId (Entity.annotates_attach comments) fun e => by rw [Entity.span_attach]

theorem traces_attachAfter {id : EntityId} (hId : τ.Knows id) (line : Nat) :
    Traces S True τ (attachAfter id line) fun _ _ => True := by
  unfold attachAfter
  refine (traces_entity id).bind fun _ e hLater₁ _ =>
    traces_commentsAhead.bind fun _ comments hLater₂ _ => ?_
  dsimp only
  refine Traces.ite (fun _ => Traces.pure trivial) fun _ => ?_
  refine (traces_annotate (hId.mono (hLater₁.trans hLater₂))
    (fun e => Entity.annotates_attach_succeeding _ e) fun e => ?_).bind
      fun _ _ _ _ => traces_skipAdjacentComments
  exact congrArg Span.first (e.span_attach _)

theorem traces_endAt {id : EntityId} (hId : τ.Knows id) (t : Token) :
    Traces S reading τ (endAt id t) fun _ _ => True :=
  traces_annotate hId (fun _ => rfl) fun _ => rfl

end Parsing

end IdlReader
