import IdlReader.Proofs.Mirror.Repetition

/-!
# In front of a place in the stream

Two readers have the same tokens to come up to a place at which one of them meets a definition that
is declared by its name only. Until they come there they do the same, as far as they have not
examined what stands behind the place. How many of the tokens to come were examined is counted: an
action that starts behind `k` examined tokens leaves as many as it says, whatever it reads.

At the end of a statement readers may have looked at the next token, without having examined it: the
token is only taken into the cache with the comments in front of it, of which there are none.

* `Sees.bind`, `Sees.mono`: actions one after the other, and weaker bounds.
* `sees_next`, `sees_peek`, `sees_putBack`: tokens.
* `sees_attachAfter`: comments behind an entity, where nothing is examined.
* `sees_addEntity`, `sees_nameEntity`: entities.
-/

namespace IdlReader

open IdlReader.Tree

/-- A place in a stream at which one of two readers meets a definition that is declared by its name
only. -/
structure Fork where
  declared : WrittenForward
  /-- What is gathered in front of the place. -/
  gathered : Gathered
  bare : gathered.comments = []
  /-- The token that the other reader meets there, unless it is the end. -/
  next : Option Token
  unfinished : ∀ t ∈ next, t.isFinish = false
  /-- What is delivered behind it. -/
  rest : List Delivery
  ending : Except Fault Gathered
  hOver : next = none → rest = [] ∧ ending = .ok {}

namespace Fork

/-- How many tokens the first reader has to come behind the place. -/
def size (F : Fork) : Nat := F.next.toList.length + F.rest.length

/-- What the first reader has to come at the place. -/
def deliveries (F : Fork) : List Delivery := F.next.toList.map (⟨F.gathered, ·⟩) ++ F.rest

/-- How the stream of the first reader ends as long as it is not at the place. -/
def endingAhead (F : Fork) : Except Fault Gathered :=
  if F.next.isSome then F.ending else .ok F.gathered

/-- What the second reader has to come behind the keyword. -/
def behind (F : Fork) : List Delivery :=
  ⟨{}, F.declared.name⟩ :: ⟨{}, F.declared.semicolon⟩ :: (F.next.toList.map (⟨{}, ·⟩) ++ F.rest)

theorem length_deliveries (F : Fork) : F.deliveries.length = F.size := by
  rw [deliveries, List.length_append, List.length_map, size]

theorem length_behind (F : Fork) : F.behind.length = F.size + 2 := by
  rw [behind, List.length_cons, List.length_cons, List.length_append, List.length_map, size]

end Fork

variable {F : Fork} {s s' u : Session}

/-- Whether readers have the same tokens to come in front of a place. -/
inductive Session.Ahead (F : Fork) (s s' : Session) : Prop where
  /-- Neither of them has looked over the place. -/
  | before (ds : List Delivery) (hCache : s'.cache = s.cache) (hComments : s'.comments = s.comments)
      (hLast : s'.last = s.last) (hDeliveries : s.stream.deliveries = ds ++ F.deliveries)
      (hDeliveries' : s'.stream.deliveries =
        ds ++ ⟨F.gathered, F.declared.keyword⟩ :: F.behind)
      (hEnding : s.stream.ending = F.endingAhead) (hEnding' : s'.stream.ending = F.ending)
  /-- Both have looked at one token behind the place. -/
  | across (ts : List Token) (hCache : s.cache = ts ++ F.next.toList)
      (hCache' : s'.cache = ts ++ [F.declared.keyword]) (hComments : s.comments = [])
      (hComments' : s'.comments = []) (hLast : ∀ t ∈ F.next, s.last = some t)
      (hDeliveries : s.stream.deliveries = F.rest) (hDeliveries' : s'.stream.deliveries = F.behind)
      (hEnding : s.stream.ending = F.ending) (hEnding' : s'.stream.ending = F.ending)

/-- Whether readers in front of a place have read the same. -/
structure Session.Forks (F : Fork) (s s' : Session) : Prop where
  tree : s'.tree = s.tree
  env : s'.env = s.env
  generated : s'.generated = s.generated
  ahead : s.Ahead F s'

/-- How many tokens are to come in a session. -/
def Session.pending (s : Session) : Nat := s.cache.length + s.stream.deliveries.length

namespace Session

theorem Ahead.comments (h : s.Ahead F s') : s'.comments = s.comments := by
  cases h with
  | before _ _ hComments => exact hComments
  | across _ _ _ hComments hComments' => rw [hComments, hComments']

/-- Only the place and what stands behind it makes a difference. -/
theorem Ahead.pending (h : s.Ahead F s') : s'.pending = s.pending + 3 := by
  unfold Session.pending
  cases h with
  | before ds hCache _ _ hDeliveries hDeliveries' =>
    rw [hCache, hDeliveries, hDeliveries', List.length_append, List.length_append, List.length_cons,
      F.length_behind, F.length_deliveries]
    omega
  | across ts hCache hCache' _ _ _ hDeliveries hDeliveries' =>
    rw [hCache, hCache', hDeliveries, hDeliveries', F.length_behind, List.length_append,
      List.length_append, Fork.size, List.length_singleton]
    omega

theorem Forks.withTree (h : s.Forks F s') (t : Tree) :
    Forks F { s with tree := t } { s' with tree := t } := by
  refine ⟨rfl, h.env, h.generated, ?_⟩
  cases h.ahead with
  | before ds hCache hComments hLast hDeliveries hDeliveries' hEnding hEnding' =>
    exact .before ds hCache hComments hLast hDeliveries hDeliveries' hEnding hEnding'
  | across ts hCache hCache' hComments hComments' hLast hDeliveries hDeliveries' hEnding hEnding' =>
    exact .across ts hCache hCache' hComments hComments' hLast hDeliveries hDeliveries' hEnding
      hEnding'

end Session

namespace Parsing

variable {α β : Type} {k : Nat}

/-- Whether an action that starts behind `k` examined tokens leaves at most `l` examined ones, and
does the same for another reader if all that is examined stands in front of the place. -/
def Sees (F : Fork) (k : Nat) (x x' : Parsing α) (s : Session) (l : α → Session → Nat) : Prop :=
  ∀ a u, x s = .ok a u → u.pending + k ≤ s.pending + l a u ∧
    ∀ s', s.Forks F s' → F.size + l a u ≤ u.pending →
      ∃ u', x' s' = .ok a u' ∧ u.Forks F u'

/-! ## Combination -/

theorem Sees.pure (a : α) : Sees F k (pure a) (pure a) s fun _ _ => k := by
  intro b u hRun
  cases hRun
  exact ⟨Nat.le_refl _, fun s' h _ => ⟨s', rfl, h⟩⟩

/-- A result of which the bound depends. -/
theorem Sees.result {a : α} {l : α → Session → Nat} (h : k ≤ l a s) :
    Sees F k (Pure.pure a) (Pure.pure a) s l := by
  intro b u hRun
  cases hRun
  exact ⟨Nat.add_le_add_left h _, fun s' hForks _ => ⟨s', rfl, hForks⟩⟩

theorem Sees.mono {x x' : Parsing α} {k' : Nat} {l l' : α → Session → Nat} (h : Sees F k x x' s l)
    (hk : k' ≤ k) (hl : ∀ a u, x s = .ok a u → l a u ≤ l' a u) : Sees F k' x x' s l' := by
  intro a u hRun
  obtain ⟨hPending, hSame⟩ := h a u hRun
  have hLe := hl a u hRun
  exact ⟨by omega, fun s' hForks hSize => hSame s' hForks (by omega)⟩

/-- A weaker bound on what is examined. -/
theorem Sees.weaken {x x' : Parsing α} {l l' : Nat} (h : Sees F k x x' s fun _ _ => l)
    (hl : l ≤ l') : Sees F k x x' s fun _ _ => l' := h.mono (Nat.le_refl k) fun _ _ _ => hl

theorem Sees.bind {x x' : Parsing α} {f f' : α → Parsing β} {l : α → Session → Nat}
    {m : β → Session → Nat} (hx : Sees F k x x' s l)
    (hf : ∀ a u, x s = .ok a u → Sees F (l a u) (f a) (f' a) u m) :
    Sees F k (x >>= f) (x' >>= f') s m := by
  intro b v hRun
  obtain ⟨a, u, hx₁, hf₁⟩ := bind_eq_ok.mp hRun
  obtain ⟨hPending, hSame⟩ := hx a u hx₁
  obtain ⟨hPending', hSame'⟩ := hf a u hx₁ b v hf₁
  refine ⟨by omega, fun s' hForks hSize => ?_⟩
  obtain ⟨u', hx', hForks'⟩ := hSame s' hForks (by omega)
  obtain ⟨v', hf', hForks''⟩ := hSame' u' hForks' hSize
  exact ⟨v', bind_eq_ok.mpr ⟨a, u', hx', hf'⟩, hForks''⟩

theorem Sees.ite {c : Prop} [Decidable c] {x x' y y' : Parsing α} {l : α → Session → Nat}
    (hx : c → Sees F k x x' s l) (hy : ¬ c → Sees F k y y' s l) :
    Sees F k (if c then x else y) (if c then x' else y') s l := by
  split
  · exact hx ‹_›
  · exact hy ‹_›

/-! ## Faults -/

theorem sees_throw (f : Fault) (x' : Parsing α) {l : α → Session → Nat} :
    Sees F k (throwThe Fault f : Parsing α) x' s l := by
  intro a u hRun
  cases hRun

theorem sees_fail (cause : Cause) (x' : Parsing α) {l : α → Session → Nat} :
    Sees F k (fail cause : Parsing α) x' s l := sees_throw _ x'

theorem sees_failAtToken (cause : Cause) (t : Token) (x' : Parsing α) {l : α → Session → Nat} :
    Sees F k (failAtToken cause t : Parsing α) x' s l := sees_throw _ x'

theorem sees_failAtToken_bind (cause : Cause) (t : Token) {f : α → Parsing β} (x' : Parsing β)
    {l : β → Session → Nat} : Sees F k (failAtToken cause t >>= f) x' s l := by
  intro b u hRun
  obtain ⟨a, v, ha, -⟩ := bind_eq_ok.mp hRun
  cases ha

/-! ## The tree -/

theorem Sees.tree {f f' : Tree → Parsing β} {l : β → Session → Nat}
    (h : Sees F k (f s.tree) (f' s.tree) s l) : Sees F k (tree >>= f) (tree >>= f') s l := by
  intro b u hRun
  obtain ⟨hPending, hSame⟩ := h b u hRun
  refine ⟨hPending, fun s' hForks hSize => ?_⟩
  obtain ⟨u', hRun', hForks'⟩ := hSame s' hForks hSize
  rw [← hForks.tree] at hRun'
  exact ⟨u', hRun', hForks'⟩

theorem Sees.entity {f f' : Entity → Parsing β} {id : EntityId} {l : β → Session → Nat}
    (h : Sees F k (f (s.tree.get id)) (f' (s.tree.get id)) s l) :
    Sees F k (entity id >>= f) (entity id >>= f') s l := by
  change Sees F k (Parsing.tree >>= fun t => f (t.get id))
    (Parsing.tree >>= fun t => f' (t.get id)) s l
  exact Sees.tree h

/-- What depends on the environment only. -/
theorem Sees.get {f f' : Session → Parsing β} {l : β → Session → Nat}
    (h : ∀ s₁ s₂ : Session, s₁.env = s.env → s₂.env = s.env → Sees F k (f s₁) (f' s₂) s l) :
    Sees F k (get >>= f) (get >>= f') s l := by
  intro b u hRun
  refine ⟨(h s s rfl rfl b u hRun).1, fun s' hForks hSize => ?_⟩
  exact (h s s' rfl hForks.env b u hRun).2 s' hForks hSize

theorem sees_orFail (x : Except Cause α) : Sees F k (orFail x) (orFail x) s fun _ _ => k := by
  cases x with
  | ok a => exact .pure a
  | error cause => exact sees_fail cause _

theorem sees_orThrow (x : Except Fault α) :
    Sees F k (Expression.orThrow x : Parsing α) (Expression.orThrow x) s fun _ _ => k := by
  cases x with
  | ok a => exact .pure a
  | error f => exact sees_throw f _

theorem sees_modifyTree (f : Tree → Tree) :
    Sees F k (modifyTree f) (modifyTree f) s fun _ _ => k := by
  intro _ u hRun
  cases hRun
  refine ⟨Nat.le_refl _, fun s' hForks _ => ⟨_, rfl, ?_⟩⟩
  change Session.Forks F { s with tree := f s.tree } { s' with tree := f s'.tree }
  rw [hForks.tree]
  exact hForks.withTree _

theorem sees_modifyEntity (id : EntityId) (f : Entity → Entity) :
    Sees F k (modifyEntity id f) (modifyEntity id f) s fun _ _ => k := sees_modifyTree _

theorem sees_modifyDeclaration (id : EntityId) (f : Declaration → Declaration) :
    Sees F k (modifyDeclaration id f) (modifyDeclaration id f) s fun _ _ => k :=
  sees_modifyEntity _ _

theorem sees_addEntity (parent : EntityId) (kind : EntityKind) (source : SourceId) (span : Span)
    (data : EntityData) : Sees F k (addEntity parent kind source span data)
      (addEntity parent kind source span data) s fun _ _ => k :=
  Sees.tree <| (sees_orFail _).bind fun _ _ _ => (sees_modifyTree _).bind fun _ _ _ => .pure _

theorem sees_nameEntity (id : EntityId) (name : String) (forward listed : Bool) :
    Sees F k (nameEntity id name forward listed) (nameEntity id name forward listed) s
      fun _ _ => k :=
  Sees.tree <| (sees_orFail _).bind fun _ _ _ => (sees_modifyTree _).bind fun _ _ _ =>
    (sees_orFail _).bind fun _ _ _ => (sees_modifyTree _).bind fun _ _ _ => .pure _

/-! ## Tokens -/

/-- How many tokens are examined when the token `t` was taken. The end is not taken: it is met again. -/
def after (k : Nat) (t : Token) : Nat := if t.isFinish then max k 1 else k - 1

theorem after_of_not_isFinish {t : Token} (h : t.isFinish = false) : after k t = k - 1 := by
  unfold after
  rw [h]
  rfl

theorem after_of_is {t : Token} {text : String} (h : t.is text = true) : after k t = k - 1 :=
  after_of_not_isFinish (Token.not_isFinish_of_is h)

theorem after_mono {k' : Nat} (h : k ≤ k') (t : Token) : after k t ≤ after k' t := by
  unfold after
  split <;> omega

theorem le_after (k : Nat) (t : Token) : k - 1 ≤ after k t := by
  unfold after
  split <;> omega

theorem after_one_le (k : Nat) (t : Token) : after 1 t ≤ after k t := by
  unfold after
  split <;> omega

theorem isFinish_endToken (last : Option Token) : (endToken last).isFinish = true := by
  cases last <;> rfl

/-- Taking a token off the stream. -/
theorem pending_fetch {t : Token} (h : fetch s = .ok t u) :
    u.pending + k ≤ s.pending + after k t := by
  unfold Session.pending
  rcases fetch_eq_ok h with ⟨d, ds, hDeliveries, -, rfl⟩ | ⟨g, hDeliveries, -, rfl, rfl⟩
  · have hLe := le_after k t
    rw [hDeliveries, List.length_cons]
    dsimp only
    omega
  · unfold after
    rw [isFinish_endToken, if_pos rfl]
    dsimp only
    omega

/-- In front of the place both readers take the same token. -/
theorem fetch_before {t : Token} {d : Delivery} {ds : List Delivery} (hForks : s.Forks F s')
    (hCache : s'.cache = s.cache) (hDeliveries : s.stream.deliveries = d :: ds ++ F.deliveries)
    (hDeliveries' : s'.stream.deliveries =
      d :: ds ++ ⟨F.gathered, F.declared.keyword⟩ :: F.behind)
    (hEnding : s.stream.ending = F.endingAhead) (hEnding' : s'.stream.ending = F.ending)
    (h : fetch s = .ok t u) : t = d.token ∧ ∃ u', fetch s' = .ok t u' ∧ u.Forks F u' ∧
      u'.cache = u.cache ∧ u.cache = s.cache ∧ u.stream.deliveries = ds ++ F.deliveries ∧
      u'.stream.deliveries = ds ++ ⟨F.gathered, F.declared.keyword⟩ :: F.behind ∧
      u.stream.ending = F.endingAhead ∧ u'.stream.ending = F.ending := by
  rw [fetch_delivery hDeliveries] at h
  cases h
  refine ⟨rfl, _, fetch_delivery hDeliveries', ⟨?_, hForks.env, hForks.generated, ?_⟩, hCache, rfl, rfl,
    rfl, hEnding, hEnding'⟩
  · dsimp only
    rw [hForks.tree]
  · exact .before ds hCache rfl rfl rfl rfl hEnding hEnding'

theorem sees_next : Sees F k next next s fun t _ => after k t := by
  intro t u hRun
  cases hCache : s.cache with
  | nil =>
    rw [next_of_nil hCache] at hRun
    refine ⟨pending_fetch hRun, fun s' hForks hSize => ?_⟩
    have hLt : F.size < s.stream.deliveries.length := by
      have hFetch := pending_fetch (k := 1) hRun
      have hLe := after_one_le k t
      unfold Session.pending at hFetch hSize
      rw [cache_fetch hRun, hCache, List.length_nil] at hFetch hSize
      dsimp only at hSize
      omega
    cases hForks.ahead with
    | before ds hCache' hComments hLast hDeliveries hDeliveries' hEnding hEnding' =>
      cases ds with
      | nil =>
        rw [hDeliveries, List.nil_append, F.length_deliveries] at hLt
        exact absurd hLt (Nat.lt_irrefl _)
      | cons d ds =>
        obtain ⟨-, u', hRun', hForks', -⟩ :=
          fetch_before hForks hCache' hDeliveries hDeliveries' hEnding hEnding' hRun
        exact ⟨u', (next_of_nil (hCache'.trans hCache)).trans hRun', hForks'⟩
    | across us hCached hCache' hComments hComments' hLast hDeliveries hDeliveries' hEnding hEnding' =>
      rw [hDeliveries] at hLt
      exact absurd (Nat.le_add_left _ _) (Nat.not_le_of_lt hLt)
  | cons v ts =>
    rw [next_cached hCache] at hRun
    cases hRun
    have hLe := le_after k t
    unfold Session.pending
    dsimp only
    rw [hCache, List.length_cons]
    refine ⟨by omega, fun s' hForks hSize => ?_⟩
    cases hForks.ahead with
    | before ds hCache' hComments hLast hDeliveries hDeliveries' hEnding hEnding' =>
      rw [hCache] at hCache'
      exact ⟨_, next_cached hCache', hForks.tree, hForks.env, hForks.generated,
        .before ds rfl hComments hLast hDeliveries hDeliveries' hEnding hEnding'⟩
    | across us hCached hCache' hComments hComments' hLast hDeliveries hDeliveries' hEnding hEnding' =>
      cases us with
      | nil =>
        -- The token behind the place was taken.
        rw [hCache, List.nil_append] at hCached
        rw [hDeliveries, Fork.size, ← hCached, List.length_cons] at hSize
        omega
      | cons v us =>
        rw [hCache] at hCached
        cases hCached
        exact ⟨_, next_cached hCache', hForks.tree, hForks.env, hForks.generated,
          .across us rfl rfl hComments hComments' hLast hDeliveries hDeliveries' hEnding hEnding'⟩

theorem sees_putBack (t : Token) :
    Sees F k (putBack t) (putBack t) s fun _ _ => if t.isFinish then k else k + 1 := by
  unfold putBack
  split
  · exact .pure _
  · intro _ u hRun
    cases hRun
    refine ⟨?_, fun s' hForks _ => ⟨_, rfl, ?_⟩⟩
    · unfold Session.pending
      dsimp only
      rw [List.length_cons]
      omega
    · refine ⟨hForks.tree, hForks.env, hForks.generated, ?_⟩
      cases hForks.ahead with
      | before ds hCache hComments hLast hDeliveries hDeliveries' hEnding hEnding' =>
        exact .before ds (congrArg (t :: ·) hCache) hComments hLast hDeliveries hDeliveries' hEnding hEnding'
      | across ts hCache hCache' hComments hComments' hLast hDeliveries hDeliveries' hEnding hEnding' =>
        exact .across (t :: ts) (congrArg (t :: ·) hCache) (congrArg (t :: ·) hCache') hComments hComments'
          hLast hDeliveries hDeliveries' hEnding hEnding'

/-- A token that was taken is put back: it stays examined. -/
theorem sees_putBack_after (t : Token) :
    Sees F (after k t) (putBack t) (putBack t) s fun _ _ => max k 1 := by
  refine (sees_putBack t).weaken ?_
  unfold after
  split <;> omega

/-- As many tokens are to come, and three more. -/
theorem Sees.tokensLeft {f f' : Nat → Parsing β} {l : β → Session → Nat}
    (h : ∀ n n', n ≤ n' → Sees F k (f n) (f' n') s l) :
    Sees F k (tokensLeft >>= f) (tokensLeft >>= f') s l := by
  intro b u hRun
  have hRun : f (s.stream.deliveries.length + s.cache.length + 2) s = .ok b u := hRun
  refine ⟨(h _ _ (Nat.le_refl _) b u hRun).1, fun s' hForks hSize => ?_⟩
  have hPending := hForks.ahead.pending
  unfold Session.pending at hPending
  exact (h _ (s'.stream.deliveries.length + s'.cache.length + 2) (by omega) b u hRun).2 s' hForks hSize

/-! ## Looking ahead -/

theorem pending_fill {n : Nat} {t? : Option Token} (h : fill n s = .ok t? u) : u.pending ≤ s.pending := by
  induction n generalizing s with
  | zero =>
    cases h
    exact Nat.le_refl _
  | succ n ih =>
    unfold fill at h
    obtain ⟨t, v, hFetch, h⟩ := bind_eq_ok.mp h
    have hPending := pending_fetch (k := 1) hFetch
    unfold after at hPending
    split at h
    · rename_i hFinish
      cases h
      rw [if_pos hFinish] at hPending
      omega
    · rename_i hFinish
      have hRest := ih (s := { v with cache := v.cache ++ [t] }) h
      rw [if_neg hFinish] at hPending
      unfold Session.pending at hRest hPending ⊢
      dsimp only at hRest
      rw [List.length_append, List.length_singleton] at hRest
      omega

/-- In front of the place both readers look at the same tokens, and one token behind it may be looked
at as well. -/
theorem fill_before {n : Nat} {t? : Option Token} {ds : List Delivery} (hForks : s.Forks F s')
    (hCache : s'.cache = s.cache) (hLast : s'.last = s.last)
    (hDeliveries : s.stream.deliveries = ds ++ F.deliveries)
    (hDeliveries' : s'.stream.deliveries = ds ++ ⟨F.gathered, F.declared.keyword⟩ :: F.behind)
    (hEnding : s.stream.ending = F.endingAhead) (hEnding' : s'.stream.ending = F.ending)
    (hn : n ≤ ds.length + 1) (h : fill n s = .ok t? u) :
    ∃ t?' u', fill n s' = .ok t?' u' ∧ u.Forks F u' ∧
      (n ≤ ds.length → t?' = t? ∧ u'.cache = u.cache ∧ u'.last = u.last) := by
  induction n generalizing s s' ds with
  | zero =>
    cases h
    exact ⟨none, s', rfl, hForks, fun _ => ⟨rfl, hCache, hLast⟩⟩
  | succ n ih =>
    unfold fill at h ⊢
    cases ds with
    | cons d ds =>
      rw [bind_of_ok (fetch_delivery hDeliveries)] at h
      rw [bind_of_ok (fetch_delivery hDeliveries')]
      have hTree : s'.tree.addRecords d.gathered.records = s.tree.addRecords d.gathered.records := by
        rw [hForks.tree]
      split at h
      · rename_i hFinish
        cases h
        rw [if_pos hFinish]
        exact ⟨_, _, rfl, ⟨hTree, hForks.env, hForks.generated,
          .before ds hCache rfl rfl rfl rfl hEnding hEnding'⟩, fun _ => ⟨rfl, hCache, rfl⟩⟩
      · rename_i hFinish
        rw [if_neg hFinish]
        have hCached : s'.cache ++ [d.token] = s.cache ++ [d.token] := by rw [hCache]
        have hAhead : Session.Forks F
            { s with
              comments := d.gathered.comments, tree := s.tree.addRecords d.gathered.records
              stream := { s.stream with deliveries := ds ++ F.deliveries }
              last := some d.token, cache := s.cache ++ [d.token] }
            { s' with
              comments := d.gathered.comments, tree := s'.tree.addRecords d.gathered.records
              stream := { s'.stream with
                deliveries := ds ++ ⟨F.gathered, F.declared.keyword⟩ :: F.behind }
              last := some d.token, cache := s'.cache ++ [d.token] } :=
          ⟨hTree, hForks.env, hForks.generated, .before ds hCached rfl rfl rfl rfl hEnding hEnding'⟩
        obtain ⟨t?', u', hRun', hForks', hSame⟩ := ih hAhead hCached rfl rfl rfl hEnding
          hEnding' (Nat.le_of_succ_le_succ hn) h
        exact ⟨t?', u', hRun', hForks', fun hLe => hSame (Nat.le_of_succ_le_succ hLe)⟩
    | nil =>
      -- The token behind the place is looked at.
      obtain rfl : n = 0 := by simpa using hn
      rw [List.nil_append] at hDeliveries hDeliveries'
      have hTree : s'.tree.addRecords F.gathered.records = s.tree.addRecords F.gathered.records := by
        rw [hForks.tree]
      have hCached : s'.cache ++ [F.declared.keyword] = s.cache ++ [F.declared.keyword] := by rw [hCache]
      rw [bind_of_ok (fetch_delivery hDeliveries'),
        if_neg (Bool.eq_false_iff.mp F.declared.keyword_not_isFinish)]
      refine ⟨none, _, rfl, ?_, fun hLe => absurd hLe (Nat.not_succ_le_zero 0)⟩
      cases hNext : F.next with
      | some t =>
        have hFinish := F.unfinished t hNext
        rw [Fork.deliveries, hNext] at hDeliveries
        rw [bind_of_ok (fetch_delivery hDeliveries), if_neg (Bool.eq_false_iff.mp hFinish)] at h
        cases h
        have hEnd : s.stream.ending = F.ending := by rw [hEnding, Fork.endingAhead, hNext]; rfl
        refine ⟨hTree, hForks.env, hForks.generated, .across s.cache ?_ hCached F.bare F.bare ?_ rfl rfl
          hEnd hEnding'⟩
        · rw [hNext]
          rfl
        · rw [hNext]
          rintro _ ⟨⟩
          rfl
      | none =>
        obtain ⟨hRest, hOver⟩ := F.hOver hNext
        rw [Fork.deliveries, hNext, hRest] at hDeliveries
        have hEnd : s.stream.ending = .ok F.gathered := by rw [hEnding, Fork.endingAhead, hNext]; rfl
        rw [bind_of_ok (fetch_ending hDeliveries hEnd), if_pos (isFinish_endToken _)] at h
        cases h
        refine ⟨hTree, hForks.env, hForks.generated, .across s.cache ?_ hCached F.bare F.bare ?_ ?_ rfl
          hOver.symm hEnding'⟩
        · rw [hNext]
          exact (List.append_nil _).symm
        · rw [hNext]
          exact fun t ht => absurd ht (Option.not_mem_none t)
        · exact hDeliveries.trans hRest.symm

theorem fill_forks {i : Nat} {t? : Option Token} (hForks : s.Forks F s')
    (hEnough : F.size + i ≤ s.pending) (h : fill (i + 1 - s.cache.length) s = .ok t? u) :
    ∃ t?' u', fill (i + 1 - s'.cache.length) s' = .ok t?' u' ∧ u.Forks F u' ∧
      (F.size + i < u.pending → t?' = t? ∧
        u'.cache[i]?.getD (endToken u'.last) = u.cache[i]?.getD (endToken u.last)) := by
  have hLess := pending_fill h
  cases hForks.ahead with
  | before ds hCache hComments hLast hDeliveries hDeliveries' hEnding hEnding' =>
    have hPending : s.pending = s.cache.length + (ds.length + F.size) := by
      rw [Session.pending, hDeliveries, List.length_append, F.length_deliveries]
    obtain ⟨t?', u', hRun', hForks', hSame⟩ := fill_before hForks hCache hLast hDeliveries hDeliveries'
      hEnding hEnding' (by omega) h
    rw [hCache]
    refine ⟨t?', u', hRun', hForks', fun hSize => ?_⟩
    obtain ⟨hToken, hCache', hLast'⟩ := hSame (by omega)
    exact ⟨hToken, by rw [hCache', hLast']⟩
  | across ts hCache hCache' hComments hComments' hLast hDeliveries hDeliveries' hEnding hEnding' =>
    have hPending : s.pending = ts.length + F.size := by
      rw [Session.pending, hCache, hDeliveries, List.length_append, Fork.size, Nat.add_assoc]
    have hLength' : s'.cache.length = ts.length + 1 := by rw [hCache', List.length_append]; rfl
    have hNone' : i + 1 - s'.cache.length = 0 := by omega
    rw [hNone']
    refine ⟨none, s', rfl, ?_⟩
    by_cases hNone : i + 1 - s.cache.length = 0
    · rw [hNone] at h
      cases h
      refine ⟨hForks, fun hSize => ⟨rfl, ?_⟩⟩
      have hLt : i < ts.length := by omega
      rw [hCache, hCache', List.getElem?_append_left hLt, List.getElem?_append_left hLt,
        List.getElem?_eq_getElem hLt]
      rfl
    · -- Nothing but the end stands behind the place, and it is met again.
      cases hNext : F.next with
      | some t =>
        have hLength : s.cache.length = ts.length + 1 := by
          rw [hCache, hNext, List.length_append]
          rfl
        omega
      | none =>
        obtain ⟨hRest, hOver⟩ := F.hOver hNext
        have hLength : s.cache.length = ts.length := by
          rw [hCache, hNext, List.length_append]
          rfl
        have hOne : i + 1 - s.cache.length = 0 + 1 := by omega
        rw [hOne] at h
        unfold fill at h
        rw [bind_of_ok (fetch_ending (hDeliveries.trans hRest) (hEnding.trans hOver)),
          if_pos (isFinish_endToken _)] at h
        cases h
        refine ⟨⟨hForks.tree, hForks.env, hForks.generated, .across ts hCache hCache' rfl hComments' hLast
          hDeliveries hDeliveries' hOver.symm hEnding'⟩, fun hSize => ?_⟩
        unfold Session.pending at hSize hPending
        dsimp only at hSize
        omega

/-- Both readers look ahead alike, and over the place by not more than one token. What they see in
front of the place is the same. -/
theorem peek_forks {i : Nat} {t : Token} (h : peek i s = .ok t u) : u.pending ≤ s.pending ∧
    ∀ s', s.Forks F s' → F.size + i ≤ u.pending → ∃ t' u', peek i s' = .ok t' u' ∧ u.Forks F u' ∧
      (F.size + i < u.pending → t' = t) := by
  unfold peek at h ⊢
  rw [bind_get] at h
  obtain ⟨t?, v, hFill, h⟩ := bind_eq_ok.mp h
  have hSame : v = u ∧ t = t?.getD (v.cache[i]?.getD (endToken v.last)) := by
    cases t? with
    | some t =>
      cases h
      exact ⟨rfl, rfl⟩
    | none =>
      cases h
      exact ⟨rfl, rfl⟩
  obtain ⟨rfl, rfl⟩ := hSame
  refine ⟨pending_fill hFill, fun s' hForks hSize => ?_⟩
  obtain ⟨t?', v', hFill', hForks', hToken⟩ :=
    fill_forks hForks (Nat.le_trans hSize (pending_fill hFill)) hFill
  refine ⟨t?'.getD (v'.cache[i]?.getD (endToken v'.last)), v', ?_, hForks', fun hLt => ?_⟩
  · rw [bind_get]
    refine bind_eq_ok.mpr ⟨t?', v', hFill', ?_⟩
    cases t?' <;> rfl
  · rw [(hToken hLt).1, (hToken hLt).2]

/-- What is looked at is examined. -/
theorem sees_peek (i : Nat) : Sees F k (peek i) (peek i) s fun _ _ => max k (i + 1) := by
  intro t u hRun
  obtain ⟨hPending, hSame⟩ := peek_forks (F := F) hRun
  refine ⟨Nat.add_le_add hPending (Nat.le_max_left k (i + 1)), fun s' hForks hSize => ?_⟩
  have hSize : F.size + max k (i + 1) ≤ u.pending := hSize
  obtain ⟨t', u', hRun', hForks', hToken⟩ := hSame s' hForks (by omega)
  rw [hToken (by omega)] at hRun'
  exact ⟨u', hRun', hForks'⟩

/-- What is looked at need not be examined. -/
theorem Sees.peek {f f' : Token → Parsing β} {l : β → Session → Nat} {i : Nat} (hi : i ≤ k)
    (h : ∀ t t' u, peek i s = .ok t u → Sees F k (f t) (f' t') u l) :
    Sees F k (peek i >>= f) (peek i >>= f') s l := by
  intro b v hRun
  obtain ⟨t, u, hPeek, hRun⟩ := bind_eq_ok.mp hRun
  obtain ⟨hPending, hSame⟩ := peek_forks (F := F) hPeek
  have hLess := (h t t u hPeek b v hRun).1
  refine ⟨by omega, fun s' hForks hSize => ?_⟩
  obtain ⟨t', u', hPeek', hForks', -⟩ := hSame s' hForks (by omega)
  obtain ⟨v', hRun', hForks''⟩ := (h t t' u hPeek b v hRun).2 u' hForks' hSize
  exact ⟨v', bind_eq_ok.mpr ⟨t', u', hPeek', hRun'⟩, hForks''⟩

theorem sees_generateName (stem : String) :
    Sees F k (generateName stem) (generateName stem) s fun _ _ => k := by
  unfold generateName
  intro name u hRun
  cases hRun
  refine ⟨Nat.le_refl _, fun s' hForks _ => ?_⟩
  rw [bind_get, hForks.generated]
  refine ⟨_, rfl, hForks.tree, hForks.env, rfl, ?_⟩
  cases hForks.ahead with
  | before ds hCache hComments hLast hDeliveries hDeliveries' hEnding hEnding' =>
    exact .before ds hCache hComments hLast hDeliveries hDeliveries' hEnding hEnding'
  | across ts hCache hCache' hComments hComments' hLast hDeliveries hDeliveries' hEnding hEnding' =>
    exact .across ts hCache hCache' hComments hComments' hLast hDeliveries hDeliveries' hEnding hEnding'

/-! ## Comments -/

/-- The comments in the session. -/
theorem sees_comments : Sees F k (do let s ← get; return s.comments : Parsing (List Token))
    (do let s ← get; return s.comments) s fun _ _ => k := by
  intro comments u hRun
  cases hRun
  refine ⟨Nat.le_refl _, fun s' hForks _ => ⟨s', ?_, hForks⟩⟩
  rw [← hForks.ahead.comments]
  rfl

theorem sees_commentsAhead : Sees F k commentsAhead commentsAhead s fun _ _ => k := by
  have hBoth : ∀ {u : Session}, Sees F k
      (do if s.comments.isEmpty then let _ ← peek 0
          let s ← get
          return s.comments : Parsing (List Token))
      (do if s.comments.isEmpty then let _ ← peek 0
          let s ← get
          return s.comments) u fun _ _ => k := by
    intro u
    exact Sees.ite (fun _ => Sees.peek (Nat.zero_le k) fun _ _ _ _ => sees_comments) fun _ => sees_comments
  intro comments u hRun
  unfold commentsAhead at hRun ⊢
  rw [bind_get] at hRun
  obtain ⟨hPending, hSame⟩ := hBoth comments u hRun
  refine ⟨hPending, fun s' hForks hSize => ?_⟩
  rw [bind_get, hForks.ahead.comments]
  exact hSame s' hForks hSize

theorem sees_skipAdjacentComments :
    Sees F k skipAdjacentComments skipAdjacentComments s fun _ _ => k := by
  unfold skipAdjacentComments
  refine Sees.peek (Nat.zero_le k) fun _ _ u _ => ?_
  intro _ v hRun
  cases hRun
  refine ⟨Nat.le_refl _, fun s' hForks _ => ⟨_, rfl, hForks.tree, hForks.env, hForks.generated, ?_⟩⟩
  cases hForks.ahead with
  | before ds hCache hComments hLast hDeliveries hDeliveries' hEnding hEnding' =>
    exact .before ds hCache (congrArg (dropAdjacent none) hComments) hLast hDeliveries hDeliveries' hEnding
      hEnding'
  | across ts hCache hCache' hComments hComments' hLast hDeliveries hDeliveries' hEnding hEnding' =>
    exact .across ts hCache hCache' (congrArg (dropAdjacent none) hComments)
      (congrArg (dropAdjacent none) hComments') hLast hDeliveries hDeliveries' hEnding hEnding'

theorem sees_commentsBefore :
    Sees F k commentsBefore commentsBefore s fun _ _ => max k 1 :=
  (sees_peek 0).bind fun _ _ _ => sees_commentsAhead.bind fun _ _ _ => .pure _

theorem sees_attachBefore (id : EntityId) (comments : List Token) :
    Sees F k (attachBefore id comments) (attachBefore id comments) s fun _ _ => k :=
  sees_modifyEntity _ _

theorem sees_attachAfter (id : EntityId) (line : Nat) :
    Sees F k (attachAfter id line) (attachAfter id line) s fun _ _ => k := by
  unfold attachAfter
  refine Sees.entity (sees_commentsAhead.bind fun _ _ _ => ?_)
  exact Sees.ite (fun _ => .pure _) fun _ => (sees_modifyEntity _ _).bind fun _ _ _ =>
    sees_skipAdjacentComments

theorem sees_endAt (id : EntityId) (t : Token) : Sees F k (endAt id t) (endAt id t) s fun _ _ => k :=
  sees_modifyEntity _ _

end Parsing

end IdlReader
