import IdlReader.Grammar.Declarator
import IdlReader.Proofs.Grammar.Ending
import IdlReader.Proofs.Tree.Access

/-!
# Reading given tokens

When the tokens to come are known, the actions that read them succeed. On the way, comments and
recorded directives come into the tree, which retains everything else (`Tree.Retains`).

* `ends_next`, `ends_peek`, `ends_putBack`: tokens.
* `ends_commentsBefore`, `ends_attachAfter`: comments.
-/

namespace IdlReader

/-- Whether an entity differs from another one only in where it ends, its comments and what is
recorded. -/
structure Entity.Retains (e e' : Entity) : Prop where
  kind : e'.kind = e.kind
  name : e'.name = e.name
  parent : e'.parent = e.parent
  children : e'.children = e.children
  scope : e'.scope = e.scope
  forward : e'.forward = e.forward
  anonymous : e'.anonymous = e.anonymous
  definition : e'.definition? = e.definition?
  declaration : e'.declaration? = e.declaration?

theorem Entity.Retains.refl (e : Entity) : e.Retains e := ⟨rfl, rfl, rfl, rfl, rfl, rfl, rfl, rfl, rfl⟩

theorem Entity.Retains.trans {e e' e'' : Entity} (h : e.Retains e') (h' : e'.Retains e'') :
    e.Retains e'' where
  kind := h'.kind.trans h.kind
  name := h'.name.trans h.name
  parent := h'.parent.trans h.parent
  children := h'.children.trans h.children
  scope := h'.scope.trans h.scope
  forward := h'.forward.trans h.forward
  anonymous := h'.anonymous.trans h.anonymous
  definition := h'.definition.trans h.definition
  declaration := h'.declaration.trans h.declaration

theorem Entity.retains_attach (comments : List Token) (e : Entity) :
    e.Retains (e.attach comments) := by
  unfold Entity.attach
  dsimp only
  split
  · exact .refl e
  · exact ⟨rfl, rfl, rfl, rfl, rfl, rfl, rfl, rfl, rfl⟩

namespace Tree

/-- Whether a tree differs from another one only in comments, in where entities end and in recorded
directives. -/
structure Retains (t t' : Tree) : Prop where
  size : t.size ≤ t'.size
  caseSensitive : t'.caseSensitive = t.caseSensitive
  scopes : t'.scopes = t.scopes
  entity : ∀ i, i < t.size → (t.get i).Retains (t'.get i)

/-- Whether a tree retains another one, and all that it has more are recorded directives. -/
structure Records (t t' : Tree) : Prop extends Retains t t' where
  added : ∀ i, t.size ≤ i → i < t'.size → (t'.get i).kind = .directive

/-- Whether what is known about a tree stays true when directives are recorded. -/
def Lasting (I : Tree → Prop) : Prop := ∀ t t', Records t t' → I t → I t'

variable {t t' t'' : Tree}

theorem Retains.refl (t : Tree) : Retains t t := ⟨Nat.le_refl _, rfl, rfl, fun _ _ => .refl _⟩

theorem Retains.trans (h : Retains t t') (h' : Retains t' t'') : Retains t t'' where
  size := Nat.le_trans h.size h'.size
  caseSensitive := h'.caseSensitive.trans h.caseSensitive
  scopes := h'.scopes.trans h.scopes
  entity := fun i hi => (h.entity i hi).trans (h'.entity i (Nat.lt_of_lt_of_le hi h.size))

theorem Records.refl (t : Tree) : Records t t :=
  ⟨.refl t, fun _ hi hLt => absurd hi (Nat.not_le_of_lt hLt)⟩

theorem Records.trans (h : Records t t') (h' : Records t' t'') : Records t t'' where
  toRetains := h.toRetains.trans h'.toRetains
  added := by
    intro i hi hLt
    by_cases hOld : i < t'.size
    · rw [(h'.entity i hOld).kind]
      exact h.added i hi hOld
    · exact h'.added i (Nat.le_of_not_lt hOld) hLt

theorem records_modify {id : EntityId} {f : Entity → Entity}
    (hf : Entity.Retains (t.get id) (f (t.get id))) : Records t (t.modify id f) where
  size := Nat.le_of_eq (size_modify _ _ _).symm
  caseSensitive := rfl
  scopes := rfl
  entity := by
    intro i _
    rw [get_modify]
    split
    · rename_i hi
      rw [hi.1]
      exact hf
    · exact .refl _
  added := by
    intro i hi hLt
    rw [size_modify] at hLt
    exact absurd hi (Nat.not_le_of_lt hLt)

theorem retains_listing (id : EntityId) (e : Entity) : e.Retains (listing id e) := by
  unfold listing
  split
  · rename_i records hData
    refine ⟨rfl, rfl, rfl, rfl, rfl, rfl, rfl, ?_, ?_⟩
    · simp [Entity.definition?, hData]
    · simp [Entity.declaration?, hData]
  · exact .refl e

theorem records_addRecords (hPos : 0 < t.size) (records : List Record) :
    Records t (t.addRecords records) := by
  induction records generalizing t with
  | nil => exact .refl t
  | cons r rs ih =>
    have hSize := size_addRecords_singleton t r
    have hFirst : Records t (t.addRecords [r]) := by
      refine ⟨⟨by omega, rfl, rfl, fun i hi => ?_⟩, fun i hi hLt => ?_⟩
      · have hNe : i ≠ t.size := Nat.ne_of_lt hi
        rw [addRecords_singleton, id_addRecord, get_modify_of_ne hNe, get_addRecord hPos, if_neg hNe]
        split
        · rename_i hRoot
          rw [hRoot]
          exact retains_listing _ _
        · exact .refl _
      · have hNew : i = t.size := by omega
        rw [hNew, (get_addRecords_singleton_size hPos r).kind]
        rfl
    exact hFirst.trans (ih (by omega))

end Tree

open IdlReader.Tree

/-- Whether certain tokens are to come in a session, with nothing wrong behind them, and something
is known about its tree. -/
structure Session.Awaits (s : Session) (env : Environment) (ts : List Token) (I : Tree → Prop) :
    Prop where
  env : s.env = env
  tokens : s.cache ++ s.stream.tokens = ts
  unfinished : ∀ t ∈ ts, t.isFinish = false
  ending : ∃ g, s.stream.ending = .ok g
  pos : 0 < s.tree.size
  tree : I s.tree

theorem Session.Awaits.mono {s : Session} {env : Environment} {ts : List Token} {I J : Tree → Prop}
    (h : s.Awaits env ts I) (hIJ : I s.tree → J s.tree) : s.Awaits env ts J :=
  ⟨h.env, h.tokens, h.unfinished, h.ending, h.pos, hIJ h.tree⟩

namespace Parsing

variable {α : Type} {s : Session} {env : Environment} {t : Token} {ts : List Token}
  {I : Tree → Prop} {E : Fault → Prop}

/-! ## Tokens -/

/-- Taking the next token off the stream. -/
theorem ends_fetch (hTokens : s.stream.tokens = t :: ts) (hPos : 0 < s.tree.size) :
    Ends fetch s (fun u s' => u = t ∧ s'.env = s.env ∧ s'.cache = s.cache ∧
      s'.stream.tokens = ts ∧ s'.stream.ending = s.stream.ending ∧ s.tree.Records s'.tree) E := by
  unfold fetch
  refine Ends.get ?_
  cases hDeliveries : s.stream.deliveries with
  | nil =>
    rw [Stream.tokens, hDeliveries] at hTokens
    cases hTokens
  | cons d ds =>
    rw [Stream.tokens, hDeliveries, List.map_cons] at hTokens
    obtain ⟨hToken, hRest⟩ := List.cons.inj hTokens
    exact ⟨hToken, rfl, rfl, hRest, rfl, records_addRecords hPos _⟩

/-- Behind the last token stands the end. -/
theorem ends_fetch_finish (h : s.Awaits env [] I) (hI : Lasting I) :
    Ends fetch s (fun u s' => u.isFinish = true ∧ s'.Awaits env [] I) E := by
  obtain ⟨hCache, hTokens⟩ := List.append_eq_nil_iff.mp h.tokens
  have hDeliveries : s.stream.deliveries = [] := List.map_eq_nil_iff.mp hTokens
  obtain ⟨g, hEnding⟩ := h.ending
  have hRecords := records_addRecords h.pos g.records
  unfold fetch
  refine Ends.get ?_
  rw [hDeliveries]
  dsimp only
  rw [hEnding]
  refine ⟨?_, h.env, ?_, h.unfinished, ⟨{}, rfl⟩, Nat.lt_of_lt_of_le h.pos hRecords.size,
    hI _ _ hRecords h.tree⟩
  · cases hLast : s.last <;> rfl
  · change s.cache ++ s.stream.deliveries.map Delivery.token = []
    rw [hCache, hDeliveries]
    rfl

theorem ends_next (h : s.Awaits env (t :: ts) I) (hI : Lasting I) :
    Ends next s (fun u s' => u = t ∧ s'.Awaits env ts I) E := by
  have hLater : ∀ u ∈ ts, u.isFinish = false := fun u hu =>
    h.unfinished u (List.mem_cons_of_mem t hu)
  unfold next
  refine Ends.get ?_
  have hTokens := h.tokens
  cases hCache : s.cache with
  | cons u us =>
    rw [hCache, List.cons_append] at hTokens
    obtain ⟨hToken, hRest⟩ := List.cons.inj hTokens
    exact ⟨hToken, h.env, hRest, hLater, h.ending, h.pos, h.tree⟩
  | nil =>
    rw [hCache, List.nil_append] at hTokens
    refine (ends_fetch hTokens h.pos).mono ?_
    rintro u s' ⟨hToken, hEnv, hSame, hRest, hEnding, hRecords⟩
    refine ⟨hToken, hEnv.trans h.env, ?_, hLater, ?_, Nat.lt_of_lt_of_le h.pos hRecords.size,
      hI _ _ hRecords h.tree⟩
    · rw [hSame, hCache, hRest]
      rfl
    · rw [hEnding]
      exact h.ending

/-- Taking tokens into the cache as long as there are any. -/
theorem ends_fill (hI : Lasting I) {n : Nat} (h : s.Awaits env ts I)
    (hEnough : s.cache.length + n ≤ ts.length) :
    Ends (fill n) s (fun u? s' => u? = none ∧ s'.Awaits env ts I ∧
      s'.cache.length = s.cache.length + n) E := by
  induction n generalizing s with
  | zero => exact ⟨rfl, h, rfl⟩
  | succ n ih =>
    have hTokens := h.tokens
    cases hStream : s.stream.tokens with
    | nil =>
      rw [hStream, List.append_nil] at hTokens
      rw [hTokens] at hEnough
      omega
    | cons u us =>
      rw [hStream] at hTokens
      unfold fill
      refine (ends_fetch hStream h.pos).bind ?_
      rintro v s₁ ⟨rfl, hEnv, hCache, hRest, hEnding, hRecords⟩
      have hFinish : v.isFinish = false := by
        refine h.unfinished v ?_
        rw [← hTokens]
        exact List.mem_append_right _ List.mem_cons_self
      rw [if_neg (by simp [hFinish])]
      refine Ends.modify ?_
      refine (ih (s := { s₁ with cache := s₁.cache ++ [v] }) ?_ ?_).mono ?_
      · refine ⟨hEnv.trans h.env, ?_, h.unfinished, ?_, Nat.lt_of_lt_of_le h.pos hRecords.size,
          hI _ _ hRecords h.tree⟩
        · change (s₁.cache ++ [v]) ++ s₁.stream.tokens = ts
          rw [hCache, hRest, List.append_assoc, List.singleton_append, hTokens]
        · change ∃ g, s₁.stream.ending = .ok g
          rw [hEnding]
          exact h.ending
      · simp only [List.length_append, List.length_singleton, hCache]
        omega
      · rintro u? s' ⟨rfl, hAwaits, hLength⟩
        refine ⟨rfl, hAwaits, ?_⟩
        simp only [List.length_append, List.length_singleton, hCache] at hLength
        omega

theorem ends_peek (h : s.Awaits env ts I) (hI : Lasting I) {i : Nat} (ht : ts[i]? = some t) :
    Ends (peek i) s (fun u s' => u = t ∧ s'.Awaits env ts I) E := by
  obtain ⟨hLt, -⟩ := List.getElem?_eq_some_iff.mp ht
  have hLength := congrArg List.length h.tokens
  rw [List.length_append] at hLength
  unfold peek
  refine Ends.get ?_
  have hFill : Ends (fill (i + 1 - s.cache.length)) s (fun u? s' => u? = none ∧
      s'.Awaits env ts I ∧ i < s'.cache.length) E := by
    by_cases hCache : i < s.cache.length
    · have hNone : i + 1 - s.cache.length = 0 := by omega
      rw [hNone]
      exact ⟨rfl, h, hCache⟩
    · refine (ends_fill hI h (by omega)).mono ?_
      rintro u? s' ⟨hNone, hAwaits, hFilled⟩
      exact ⟨hNone, hAwaits, by omega⟩
  refine hFill.bind ?_
  rintro u? s' ⟨rfl, hAwaits, hCached⟩
  refine Ends.get (Ends.pure ⟨?_, hAwaits⟩)
  have hSame : s'.cache[i]? = some t := by
    rw [← ht, ← hAwaits.tokens, List.getElem?_append_left hCached]
  rw [hSame]
  rfl

theorem ends_peek_finish (h : s.Awaits env [] I) (hI : Lasting I) :
    Ends (peek 0) s (fun u s' => u.isFinish = true ∧ s'.Awaits env [] I) E := by
  obtain ⟨hCache, -⟩ := List.append_eq_nil_iff.mp h.tokens
  unfold peek
  refine Ends.get ?_
  have hOne : 0 + 1 - s.cache.length = 0 + 1 := by rw [hCache]; rfl
  rw [hOne]
  have hFill : Ends (fill (0 + 1)) s (fun u? s' => (∃ u, u? = some u ∧ u.isFinish = true) ∧
      s'.Awaits env [] I) E := by
    unfold fill
    refine (ends_fetch_finish h hI).bind ?_
    rintro u s' ⟨hFinish, hAwaits⟩
    rw [if_pos hFinish]
    exact Ends.pure ⟨⟨u, rfl, hFinish⟩, hAwaits⟩
  refine hFill.bind ?_
  rintro u? s' ⟨⟨u, rfl, hFinish⟩, hAwaits⟩
  exact Ends.pure ⟨hFinish, hAwaits⟩

/-- Looking at the next token changes nothing that matters. -/
theorem ends_ahead (h : s.Awaits env ts I) (hI : Lasting I) :
    Ends (peek 0) s (fun _ s' => s'.Awaits env ts I) E := by
  cases ts with
  | nil => exact (ends_peek_finish h hI).mono fun _ _ hEnd => hEnd.2
  | cons t ts => exact (ends_peek h hI rfl).mono fun _ _ hPeek => hPeek.2

theorem ends_putBack (h : s.Awaits env ts I) (ht : t.isFinish = false) :
    Ends (putBack t) s (fun _ s' => s'.Awaits env (t :: ts) I) E := by
  unfold putBack
  rw [if_neg (by simp [ht])]
  refine ⟨h.env, congrArg (t :: ·) h.tokens, ?_, h.ending, h.pos, h.tree⟩
  intro u hu
  rcases List.mem_cons.mp hu with rfl | hu
  · exact ht
  · exact h.unfinished u hu

/-- The bound on the tokens to come is two more than their number. -/
theorem Ends.tokensLeft {β : Type} {f : Nat → Parsing β} {P : β → Session → Prop}
    (h : s.Awaits env ts I) (hf : Ends (f (ts.length + 2)) s P E) :
    Ends (tokensLeft >>= f) s P E := by
  have hLength := congrArg List.length h.tokens
  rw [List.length_append, Stream.tokens, List.length_map] at hLength
  have hCount : s.stream.deliveries.length + s.cache.length + 2 = ts.length + 2 := by omega
  change Ends (f (s.stream.deliveries.length + s.cache.length + 2)) s P E
  rw [hCount]
  exact hf

/-! ## Comments -/

theorem ends_modifyEntity (h : s.Awaits env ts I) {id : EntityId} {f : Entity → Entity}
    {J : Tree → Prop} (hJ : I s.tree → J (s.tree.modify id f)) :
    Ends (modifyEntity id f) s (fun _ s' => s'.Awaits env ts J) E :=
  ⟨h.env, h.tokens, h.unfinished, h.ending, by
    change 0 < (s.tree.modify id f).size
    rw [size_modify]
    exact h.pos, hJ h.tree⟩

/-- A change of what is not retained. -/
theorem ends_note (h : s.Awaits env ts I) (hI : Lasting I) {id : EntityId} {f : Entity → Entity}
    (hf : ∀ e, Entity.Retains e (f e)) :
    Ends (modifyEntity id f) s (fun _ s' => s'.Awaits env ts I) E :=
  ends_modifyEntity h fun hTree => hI _ _ (records_modify (hf _)) hTree

theorem ends_commentsAhead (h : s.Awaits env ts I) (hI : Lasting I) :
    Ends commentsAhead s (fun _ s' => s'.Awaits env ts I) E := by
  unfold commentsAhead
  refine Ends.get ?_
  dsimp only
  split
  · exact (ends_ahead h hI).bind fun _ _ h' => Ends.get (Ends.pure h')
  · exact Ends.get (Ends.pure h)

theorem ends_commentsBefore (h : s.Awaits env ts I) (hI : Lasting I) :
    Ends commentsBefore s (fun _ s' => s'.Awaits env ts I) E := by
  unfold commentsBefore
  refine (ends_ahead h hI).bind fun _ _ h' => ?_
  exact (ends_commentsAhead h' hI).bind fun _ _ h'' => Ends.pure h''

theorem ends_skipAdjacentComments (h : s.Awaits env ts I) (hI : Lasting I) :
    Ends skipAdjacentComments s (fun _ s' => s'.Awaits env ts I) E := by
  unfold skipAdjacentComments
  refine (ends_ahead h hI).bind ?_
  intro _ s' h'
  exact ⟨h'.env, h'.tokens, h'.unfinished, h'.ending, h'.pos, h'.tree⟩

theorem ends_attachBefore (h : s.Awaits env ts I) (hI : Lasting I) (id : EntityId)
    (comments : List Token) :
    Ends (attachBefore id comments) s (fun _ s' => s'.Awaits env ts I) E :=
  ends_note h hI (Entity.retains_attach comments)

theorem ends_attachAfter (h : s.Awaits env ts I) (hI : Lasting I) (id : EntityId) (line : Nat) :
    Ends (attachAfter id line) s (fun _ s' => s'.Awaits env ts I) E := by
  unfold attachAfter
  refine Ends.entity ?_
  refine (ends_commentsAhead h hI).bind ?_
  intro comments s' h'
  dsimp only
  split
  · exact Ends.pure h'
  · refine (ends_note h' hI ?_).bind fun _ _ h'' => ends_skipAdjacentComments h'' hI
    intro e
    have hAttach := Entity.retains_attach (succeedingComments (s.tree.get id).source line comments) e
    exact ⟨hAttach.kind, hAttach.name, hAttach.parent, hAttach.children, hAttach.scope,
      hAttach.forward, hAttach.anonymous, hAttach.definition, hAttach.declaration⟩

theorem ends_endAt (h : s.Awaits env ts I) (hI : Lasting I) (id : EntityId) (t : Token) :
    Ends (endAt id t) s (fun _ s' => s'.Awaits env ts I) E :=
  ends_note h hI fun _ => ⟨rfl, rfl, rfl, rfl, rfl, rfl, rfl, rfl, rfl⟩

end Parsing

end IdlReader
