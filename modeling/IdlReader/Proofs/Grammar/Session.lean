import IdlReader.Proofs.Grammar.Addition

/-!
# Tokens, comments and entities

What the actions on sessions that the grammar is made of do to the tree. The tokens that they
give are lexical, so names stay names.

* `grows_next`, `grows_peek`, `grows_putBack`: tokens.
* `isName_generated`: generated names.
* `grows_addEntity`, `grows_nameEntity`: the two actions that are not quiet.
-/

namespace IdlReader

theorem Text.isName_append {s t : List Char} (hs : isName s = true)
    (ht : ∀ c ∈ t, isWord c = true) : isName (s ++ t) = true := by
  cases s with
  | nil => cases hs
  | cons c s =>
    rw [isName, Bool.and_eq_true, List.all_eq_true] at hs
    rw [List.cons_append, isName, Bool.and_eq_true, List.all_append, Bool.and_eq_true,
      List.all_eq_true, List.all_eq_true]
    exact ⟨hs.1, hs.2, ht⟩

/-- A stem with a number behind it is a name. -/
theorem isName_generated {stem : String} (h : IsName stem) (n : Nat) :
    IsName (stem ++ "_" ++ toString n) := by
  have hDigits : ∀ c ∈ (toString n).toList, Text.isWord c = true := by
    intro c hc
    rw [Nat.toString_eq_ofList_toDigits, String.toList_ofList] at hc
    have hDigit := Nat.isDigit_of_mem_toDigits (by decide) (by decide) hc
    rw [Text.isWord, Char.isAlphanum, hDigit, Bool.or_true, Bool.true_or]
  have hLine : ∀ c ∈ ['_'], Text.isWord c = true := by
    intro c hc
    rw [List.mem_singleton.mp hc]
    rfl
  unfold IsName at h ⊢
  rw [String.toList_append, String.toList_append]
  exact Text.isName_append (Text.isName_append h hLine) hDigits

theorem isName_stem (kind : EntityKind) : IsName kind.stem := by
  cases kind <;> decide

theorem Token.not_isFinish_of_kind {t : Token} {k : TokenKind} (hKind : t.kind = k)
    (hNe : k ≠ .finish) : t.isFinish = false := by
  unfold Token.isFinish
  rw [hKind]
  exact beq_eq_false_iff_ne.mpr hNe

theorem Token.not_isFinish_of_isWord {t : Token} (h : t.isWord = true) : t.isFinish = false := by
  rcases Bool.or_eq_true_iff.mp h with hKind | hKind
  · exact not_isFinish_of_kind (beq_iff_eq.mp hKind) nofun
  · exact not_isFinish_of_kind (beq_iff_eq.mp hKind) nofun

theorem Token.not_isFinish_of_isKeyword {t : Token} (h : t.isKeyword = true) :
    t.isFinish = false := not_isFinish_of_kind (beq_iff_eq.mp h) nofun

theorem Token.not_isFinish_of_is {t : Token} {text : String} (h : t.is text = true) :
    t.isFinish = false := by
  cases hFinish : t.isFinish with
  | false => rfl
  | true =>
    unfold Token.is Token.isPlain at h
    rw [beq_iff_eq.mp hFinish] at h
    cases h

open IdlReader.Tree

namespace Parsing

variable {α β : Type} {R : Tree → Tree → Prop} {s : Session}

/-! ## Faults -/

theorem grows_throw (f : Fault) {Q : α → Session → Prop} :
    Grows R (throwThe Fault f : Parsing α) s Q := by
  intro a s' h
  cases h

theorem grows_fail (cause : Cause) {Q : α → Session → Prop} :
    Grows R (fail cause : Parsing α) s Q := grows_throw _

theorem grows_failAt (cause : Cause) (p : Position) {Q : α → Session → Prop} :
    Grows R (failAt cause p : Parsing α) s Q := grows_throw _

theorem grows_failAtToken (cause : Cause) (t : Token) {Q : α → Session → Prop} :
    Grows R (failAtToken cause t) s Q := grows_throw _

theorem grows_failAt_bind (cause : Cause) (p : Position) {f : α → Parsing β}
    {Q : β → Session → Prop} : Grows R (failAt cause p >>= f) s Q := by
  intro b s' h
  obtain ⟨a, s₁, ha, -⟩ := bind_eq_ok.mp h
  cases ha

theorem grows_failAtToken_bind (cause : Cause) (t : Token) {f : α → Parsing β}
    {Q : β → Session → Prop} : Grows R (failAtToken cause t >>= f) s Q :=
  grows_failAt_bind cause t.position

theorem keeps_throw (f : Fault) : Keeps (throwThe Fault f : Parsing α) := fun _ _ => grows_throw f

theorem keeps_fail (cause : Cause) : Keeps (fail cause : Parsing α) := fun _ _ => grows_fail cause

theorem keeps_failAtToken (cause : Cause) (t : Token) : Keeps (failAtToken cause t : Parsing α) :=
  fun _ _ => grows_failAtToken cause t

theorem keeps_failAt_bind (cause : Cause) (p : Position) {f : α → Parsing β} :
    Keeps (failAt cause p >>= f) := by
  intro s _ b s' h
  obtain ⟨a, s₁, ha, -⟩ := bind_eq_ok.mp h
  cases ha

theorem keeps_failAtToken_bind (cause : Cause) (t : Token) {f : α → Parsing β} :
    Keeps (failAtToken cause t >>= f) := keeps_failAt_bind cause t.position

/-! ## Reading the state -/

section Reading

variable {f : α → Parsing β} {Q : β → Session → Prop}

theorem Grows.get {f : Session → Parsing β} (h : Grows R (f s) s Q) : Grows R (get >>= f) s Q := h

theorem Grows.tree {f : Tree → Parsing β} (h : Grows R (f s.tree) s Q) :
    Grows R (tree >>= f) s Q := h

theorem Grows.entity {f : Entity → Parsing β} {id : EntityId}
    (h : Grows R (f (s.tree.get id)) s Q) : Grows R (entity id >>= f) s Q := h

theorem Grows.tokensLeft {f : Nat → Parsing β} (h : ∀ n, Grows R (f n) s Q) :
    Grows R (tokensLeft >>= f) s Q := h _

theorem Grows.orFail {f : α → Parsing β} {x : Except Cause α}
    (h : ∀ a, x = .ok a → Grows R (f a) s Q) : Grows R (orFail x >>= f) s Q := by
  cases x with
  | ok a => exact h a rfl
  | error cause =>
    intro b s' hb
    obtain ⟨a, s₁, ha, -⟩ := bind_eq_ok.mp hb
    cases ha

theorem keeps_get_bind {f : Session → Parsing β} (h : ∀ s, Keeps (f s)) : Keeps (get >>= f) :=
  fun s hs => Grows.get (h s s hs)

theorem keeps_entity_bind {f : Entity → Parsing β} {id : EntityId} (h : ∀ e, Keeps (f e)) :
    Keeps (entity id >>= f) := fun s hs => Grows.entity (h (s.tree.get id) s hs)

theorem keeps_tokensLeft_bind {f : Nat → Parsing α} (h : ∀ n, Keeps (f n)) :
    Keeps (tokensLeft >>= f) := fun _ hs => Grows.tokensLeft fun n => h n _ hs

theorem keeps_orThrow (x : Except Fault α) : Keeps (Expression.orThrow x) := by
  cases x with
  | ok a => exact Keeps.pure a
  | error f => exact keeps_throw f

end Reading

/-! ## Changing the state -/

theorem grows_modify {f : Session → Session} {Q : PUnit → Session → Prop} (hSound : (f s).Sound)
    (hR : R s.tree (f s).tree) (hQ : Q ⟨⟩ (f s)) : Grows R (modify f : Parsing PUnit) s Q := by
  intro a s' h
  cases h
  exact ⟨hSound, hR, hQ⟩

variable [Growth R]

theorem grows_modifyTree (hs : s.Sound) {f : Tree → Tree} (hR : R s.tree (f s.tree))
    (hNew : ∀ i, s.tree.size ≤ i → i < (f s.tree).size → (f s.tree).Entry i) :
    Grows R (modifyTree f) s fun _ s' => s'.tree = f s.tree :=
  grows_modify (hs.steps (Course.steps hR) hNew) hR rfl

theorem keeps_annotate {id : EntityId} {f : Entity → Entity}
    (hf : ∀ e, Entity.Annotates e (f e)) : Keeps (modifyEntity id f) := by
  intro s hs
  refine (grows_modifyTree hs ?_ (entry_of_size (size_modify _ _ _))).mono
    fun _ _ _ _ _ => trivial
  exact .single (.annotate hf)

/-- A step that completes a declaration. -/
theorem grows_modifyDeclaration (hs : s.Sound) {id : EntityId} {f : Declaration → Declaration}
    (hStep : Step s.tree (s.tree.modify id (Entity.mapDeclaration f))) :
    Grows Calming (modifyDeclaration id f) s
      fun _ s' => s'.tree = s.tree.modify id (Entity.mapDeclaration f) := by
  unfold modifyDeclaration modifyEntity
  refine grows_modifyTree hs ?_ (entry_of_size (size_modify _ _ _))
  have hQuiet := quiet_modify (fun e => Entity.alike_mapDeclaration _ e) hStep
  exact ⟨hQuiet.steps, hQuiet.calm⟩

/-! ## Tokens -/

theorem grows_gather (hs : s.Sound) (g : Gathered) :
    Grows R (gather g) s fun _ s' => s'.cache = s.cache ∧ s'.stream = s.stream := by
  have hNoted := noted_addRecords hs.reachable.size_pos g.records
  have hSound := hs.steps hNoted.quiet.steps fun i hi hLt hKind =>
    (hNoted.adds.new i hi hLt (by rw [hKind]; decide)).elim
  unfold gather
  refine grows_modify ?_ (Growth.noted hNoted) ⟨rfl, rfl⟩
  exact ⟨hSound.reachable, hSound.entries, hs.cache, hs.stream⟩

theorem lexical_endToken (last : Option Token) : (endToken last).Lexical := by
  cases last with
  | none => exact lexical_of_not_isWord rfl
  | some t => exact lexical_of_not_isWord rfl

theorem grows_fetch (hs : s.Sound) : Grows R fetch s fun t _ => t.Lexical := by
  unfold fetch
  refine Grows.get ?_
  split
  · rename_i d ds hDeliveries
    have hStream : Lexical (d.token :: ds.map Delivery.token) := by
      have hTokens := hs.stream
      rw [Stream.Lexical, Stream.tokens, hDeliveries] at hTokens
      exact hTokens
    obtain ⟨hToken, hRest⟩ := lexical_cons.mp hStream
    refine (grows_gather hs d.gathered).bind ?_
    rintro _ s₁ hs₁ _ -
    refine Grows.bind (P := fun _ _ => True) (grows_modify ?_ ?_ trivial) ?_
    · exact ⟨hs₁.reachable, hs₁.entries, hs₁.cache, hRest⟩
    · exact Course.refl _
    · intro _ s₂ hs₂ _ _
      exact Grows.pure hs₂ hToken
  · split
    · exact grows_throw _
    · rename_i g _
      refine (grows_gather hs g).bind ?_
      rintro _ s₁ hs₁ _ -
      refine Grows.bind (P := fun _ _ => True) (grows_modify ?_ ?_ trivial) ?_
      · exact ⟨hs₁.reachable, hs₁.entries, hs₁.cache, hs₁.stream⟩
      · exact Course.refl _
      · intro _ s₂ hs₂ _ _
        exact Grows.pure hs₂ (lexical_endToken _)

theorem grows_next (hs : s.Sound) : Grows R next s fun t _ => t.Lexical := by
  unfold next
  refine Grows.get ?_
  split
  · rename_i t ts hCache
    have hTokens := hs.cache
    rw [hCache] at hTokens
    obtain ⟨ht, hRest⟩ := lexical_cons.mp hTokens
    refine Grows.bind (P := fun _ _ => True) ?_ fun _ s₁ hs₁ _ _ => Grows.pure hs₁ ht
    intro _ s₁ h
    cases h
    exact ⟨⟨hs.reachable, hs.entries, hRest, hs.stream⟩, Course.refl _, trivial⟩
  · exact grows_fetch hs

theorem grows_fill (n : Nat) (hs : s.Sound) :
    Grows R (fill n) s fun t? _ => ∀ t ∈ t?, t.Lexical := by
  induction n generalizing s with
  | zero => exact Grows.pure hs nofun
  | succ n ih =>
    unfold fill
    refine (grows_fetch hs).bind ?_
    intro t s₁ hs₁ _ ht
    split
    · refine Grows.pure hs₁ ?_
      rintro u hu
      cases hu
      exact ht
    · refine Grows.bind (P := fun _ _ => True) (grows_modify ?_ ?_ trivial) ?_
      · refine ⟨hs₁.reachable, hs₁.entries, ?_, hs₁.stream⟩
        exact lexical_append.mpr ⟨hs₁.cache, lexical_cons.mpr ⟨ht, lexical_nil⟩⟩
      · exact Course.refl _
      · intro _ s₂ hs₂ _ _
        exact ih hs₂

theorem grows_peek (i : Nat) (hs : s.Sound) : Grows R (peek i) s fun t _ => t.Lexical := by
  unfold peek
  refine Grows.get ?_
  refine (grows_fill _ hs).bind ?_
  intro t? s₁ hs₁ _ ht
  split
  · exact Grows.pure hs₁ (ht _ rfl)
  · refine Grows.get (Grows.pure hs₁ ?_)
    cases hGet : s₁.cache[i]? with
    | none => exact lexical_endToken _
    | some t => exact hs₁.cache t (List.mem_of_getElem? hGet)

theorem grows_putBack (hs : s.Sound) {t : Token} (ht : t.Lexical) :
    Grows R (putBack t) s fun _ _ => True := by
  unfold putBack
  split
  · exact Grows.pure hs trivial
  · refine grows_modify ?_ (Course.refl _) trivial
    exact ⟨hs.reachable, hs.entries, lexical_cons.mpr ⟨ht, hs.cache⟩, hs.stream⟩

omit [Growth R] in
theorem fetch_delivery {d : Delivery} {ds : List Delivery} (h : s.stream.deliveries = d :: ds) :
    fetch s = .ok d.token { s with
      comments := d.gathered.comments, tree := s.tree.addRecords d.gathered.records,
      stream := { s.stream with deliveries := ds }, last := some d.token } := by
  obtain ⟨env, tree, ⟨deliveries, ending, sources⟩, cache, comments, generated, last⟩ := s
  cases h
  rfl

omit [Growth R] in
theorem fetch_ending {g : Gathered} (h : s.stream.deliveries = [])
    (hEnding : s.stream.ending = .ok g) :
    fetch s = .ok (endToken s.last) { s with
      comments := g.comments, tree := s.tree.addRecords g.records,
      stream := { s.stream with ending := .ok {} } } := by
  obtain ⟨env, tree, ⟨deliveries, ending, sources⟩, cache, comments, generated, last⟩ := s
  cases h
  cases hEnding
  rfl

omit [Growth R] in
theorem fetch_error {f : Fault} (h : s.stream.deliveries = [])
    (hEnding : s.stream.ending = .error f) : fetch s = .error f s := by
  obtain ⟨env, tree, ⟨deliveries, ending, sources⟩, cache, comments, generated, last⟩ := s
  cases h
  cases hEnding
  rfl

omit [Growth R] in
/-- What taking a token off the stream does. -/
theorem fetch_eq_ok {t : Token} {u : Session} (h : fetch s = .ok t u) :
    (∃ d ds, s.stream.deliveries = d :: ds ∧ t = d.token ∧ u = { s with
      comments := d.gathered.comments, tree := s.tree.addRecords d.gathered.records,
      stream := { s.stream with deliveries := ds }, last := some d.token }) ∨
    ∃ g, s.stream.deliveries = [] ∧ s.stream.ending = .ok g ∧ t = endToken s.last ∧ u = { s with
      comments := g.comments, tree := s.tree.addRecords g.records,
      stream := { s.stream with ending := .ok {} } } := by
  cases hDeliveries : s.stream.deliveries with
  | cons d ds =>
    rw [fetch_delivery hDeliveries] at h
    cases h
    exact Or.inl ⟨d, ds, rfl, rfl, rfl⟩
  | nil =>
    cases hEnding : s.stream.ending with
    | ok g =>
      rw [fetch_ending hDeliveries hEnding] at h
      cases h
      exact Or.inr ⟨g, rfl, rfl, rfl, rfl⟩
    | error f =>
      rw [fetch_error hDeliveries hEnding] at h
      cases h

omit [Growth R] in
theorem cache_fetch {s' : Session} {t : Token} (h : fetch s = .ok t s') : s'.cache = s.cache := by
  rcases fetch_eq_ok h with ⟨d, ds, -, -, rfl⟩ | ⟨g, -, -, -, rfl⟩ <;> rfl

omit [Growth R] in
theorem next_cached {t : Token} {ts : List Token} (h : s.cache = t :: ts) :
    next s = .ok t { s with cache := ts } := by
  obtain ⟨env, tree, stream, cache, comments, generated, last⟩ := s
  cases h
  rfl

omit [Growth R] in
theorem next_of_nil (h : s.cache = []) : next s = fetch s := by
  obtain ⟨env, tree, stream, cache, comments, generated, last⟩ := s
  cases h
  rfl

omit [Growth R] in
theorem peek_cached {t : Token} {ts : List Token} (h : s.cache = t :: ts) : peek 0 s = .ok t s := by
  obtain ⟨env, tree, stream, cache, comments, generated, last⟩ := s
  cases h
  have hNone : 0 + 1 - (t :: ts).length = 0 := by simp
  unfold peek
  rw [bind_get]
  dsimp only
  rw [hNone]
  rfl

omit [Growth R] in
/-- Looking at the first token that was not looked at yet. -/
theorem peek_delivery {d : Delivery} {ds : List Delivery} (h : s.stream.deliveries = d :: ds)
    (hFinish : d.token.isFinish = false) : peek s.cache.length s = .ok d.token { s with
      comments := d.gathered.comments, tree := s.tree.addRecords d.gathered.records,
      stream := { s.stream with deliveries := ds }, last := some d.token
      cache := s.cache ++ [d.token] } := by
  have hOne : s.cache.length + 1 - s.cache.length = 1 := Nat.add_sub_cancel_left _ _
  have hFill : fill 1 s = .ok none { s with
      comments := d.gathered.comments, tree := s.tree.addRecords d.gathered.records,
      stream := { s.stream with deliveries := ds }, last := some d.token
      cache := s.cache ++ [d.token] } := by
    unfold fill
    rw [bind_of_ok (fetch_delivery h), hFinish]
    rfl
  unfold peek
  rw [bind_get]
  dsimp only
  rw [hOne, bind_of_ok hFill]
  dsimp only
  rw [bind_get]
  dsimp only
  rw [List.getElem?_concat_length]
  rfl

omit [Growth R] in
/-- Looking at the end. -/
theorem peek_ending {g : Gathered} (hCache : s.cache = []) (h : s.stream.deliveries = [])
    (hEnding : s.stream.ending = .ok g) : peek 0 s = .ok (endToken s.last) { s with
      comments := g.comments, tree := s.tree.addRecords g.records,
      stream := { s.stream with ending := .ok {} } } := by
  have hEnd : (endToken s.last).isFinish = true := by cases s.last <;> rfl
  have hOne : 0 + 1 - s.cache.length = 1 := by rw [hCache, List.length_nil]
  have hFill : fill 1 s = .ok (some (endToken s.last)) { s with
      comments := g.comments, tree := s.tree.addRecords g.records,
      stream := { s.stream with ending := .ok {} } } := by
    unfold fill
    rw [bind_of_ok (fetch_ending h hEnding), hEnd]
    rfl
  unfold peek
  rw [bind_get]
  dsimp only
  rw [hOne, bind_of_ok hFill]
  rfl

omit [Growth R] in
/-- A token that was looked at comes next, unless it is the end. -/
theorem cache_peek {s' : Session} {t : Token} (h : peek 0 s = .ok t s')
    (hFinish : t.isFinish = false) : ∃ ts, s'.cache = t :: ts := by
  unfold peek at h
  obtain ⟨s₀, s₁, hGet, h⟩ := bind_eq_ok.mp h
  cases hGet
  obtain ⟨t?, s₂, hFill, h⟩ := bind_eq_ok.mp h
  cases hCache : s.cache with
  | cons u ts =>
    rw [hCache] at hFill
    have hNone : 0 + 1 - (u :: ts).length = 0 := by simp
    rw [hNone] at hFill
    cases hFill
    obtain ⟨s₃, s₄, hGet, h⟩ := bind_eq_ok.mp h
    cases hGet
    rw [hCache] at h
    cases h
    exact ⟨ts, hCache⟩
  | nil =>
    rw [hCache] at hFill
    have hOne : 0 + 1 - ([] : List Token).length = 0 + 1 := rfl
    rw [hOne] at hFill
    unfold fill at hFill
    obtain ⟨u, s₃, hFetch, hFill⟩ := bind_eq_ok.mp hFill
    have hEmpty : s₃.cache = [] := (cache_fetch hFetch).trans hCache
    split at hFill
    · rename_i hEnd
      cases hFill
      cases h
      rw [hEnd] at hFinish
      cases hFinish
    · obtain ⟨_, s₄, hModify, hFill⟩ := bind_eq_ok.mp hFill
      cases hModify
      cases hFill
      obtain ⟨s₅, s₆, hGet, h⟩ := bind_eq_ok.mp h
      cases hGet
      dsimp only at h
      rw [hEmpty] at h
      cases h
      exact ⟨[], rfl⟩

theorem grows_ahead (hs : s.Sound) : Grows Noted (peek 0) s fun t s' =>
    t.isFinish = false → ∃ ts, s'.cache = t :: ts := by
  intro t s' h
  obtain ⟨hs', hNoted, -⟩ := grows_peek (R := Noted) 0 hs t s' h
  exact ⟨hs', hNoted, cache_peek h⟩

/-- A token that was looked at is taken. -/
theorem grows_taken (hs : s.Sound) : Grows Noted next s fun t _ =>
    t.Lexical ∧ ∀ u ts, s.cache = u :: ts → t = u := by
  intro t s' h
  obtain ⟨hs', hNoted, ht⟩ := grows_next (R := Noted) hs t s' h
  refine ⟨hs', hNoted, ht, fun u ts hCache => ?_⟩
  rw [next_cached hCache] at h
  cases h
  rfl

omit [Growth R] in
/-- Tokens that were taken into the cache. -/
theorem length_fill {n : Nat} {s' : Session} (h : fill n s = .ok none s') :
    s'.cache.length = s.cache.length + n := by
  induction n generalizing s with
  | zero =>
    cases h
    rfl
  | succ n ih =>
    unfold fill at h
    obtain ⟨t, u, hFetch, h⟩ := bind_eq_ok.mp h
    split at h
    · cases h
    · obtain ⟨_, v, hModify, h⟩ := bind_eq_ok.mp h
      cases hModify
      rw [ih h, List.length_append, cache_fetch hFetch, List.length_singleton]
      omega

theorem keeps_next : Keeps next := fun _ hs => (grows_next hs).mono fun _ _ _ _ _ => trivial

theorem keeps_peek (i : Nat) : Keeps (peek i) :=
  fun _ hs => (grows_peek i hs).mono fun _ _ _ _ _ => trivial

theorem grows_generateName (hs : s.Sound) {stem : String} (h : IsName stem) :
    Grows R (generateName stem) s fun name _ => IsName name := by
  unfold generateName
  refine Grows.get ?_
  refine Grows.bind (P := fun _ _ => True) ?_ fun _ s₁ hs₁ _ _ =>
    Grows.pure hs₁ (isName_generated h _)
  intro _ s₁ hSet
  cases hSet
  exact ⟨⟨hs.reachable, hs.entries, hs.cache, hs.stream⟩, Course.refl _, trivial⟩

/-! ## Comments -/

theorem keeps_commentsAhead : Keeps commentsAhead := by
  unfold commentsAhead
  refine keeps_get_bind ?_
  intro s
  dsimp only
  split
  · exact (keeps_peek 0).bind fun _ => keeps_get_bind fun _ => Keeps.pure _
  · exact keeps_get_bind fun _ => Keeps.pure _

theorem keeps_skipAdjacentComments : Keeps skipAdjacentComments := by
  unfold skipAdjacentComments
  refine (keeps_peek 0).bind ?_
  intro _ s hs
  exact grows_modify ⟨hs.reachable, hs.entries, hs.cache, hs.stream⟩ (Course.refl _) trivial

theorem keeps_commentsBefore : Keeps commentsBefore := by
  unfold commentsBefore
  exact (keeps_peek 0).bind fun _ => keeps_commentsAhead.bind fun _ => Keeps.pure _

theorem keeps_attachBefore (id : EntityId) (comments : List Token) :
    Keeps (attachBefore id comments) := keeps_annotate (Entity.annotates_attach comments)

theorem keeps_attachAfter (id : EntityId) (line : Nat) : Keeps (attachAfter id line) := by
  unfold attachAfter
  refine keeps_entity_bind ?_
  intro e
  refine keeps_commentsAhead.bind ?_
  intro comments
  dsimp only
  split
  · exact Keeps.pure _
  · exact (keeps_annotate fun e => Entity.annotates_attach_succeeding _ e).bind fun _ =>
      keeps_skipAdjacentComments

theorem keeps_endAt (id : EntityId) (t : Token) : Keeps (endAt id t) :=
  keeps_annotate fun _ => rfl

/-! ## Entities -/

omit [Growth R] in
/-- What adding an entity does. -/
theorem addEntity_eq_ok {parent id : EntityId} {kind : EntityKind} {source : SourceId} {span : Span}
    {data : EntityData} {u : Session} : addEntity parent kind source span data s = .ok id u ↔
      s.tree.add parent kind source span data = .ok (id, u.tree) ∧
        u = { s with tree := u.tree } := by
  unfold addEntity
  constructor
  · intro hRun
    obtain ⟨t, s₀, hTree, hRun⟩ := bind_eq_ok.mp hRun
    cases hTree
    cases hAdd : s.tree.add parent kind source span data with
    | error cause =>
      rw [hAdd] at hRun
      obtain ⟨x, s₁, hFail, -⟩ := bind_eq_ok.mp hRun
      cases hFail
    | ok x =>
      rw [hAdd] at hRun
      cases hRun
      exact ⟨rfl, rfl⟩
  · rintro ⟨hAdd, hu⟩
    refine bind_eq_ok.mpr ⟨s.tree, s, rfl, bind_eq_ok.mpr ⟨(id, u.tree), s, ?_, ?_⟩⟩
    · rw [hAdd]
      rfl
    · rw [hu]
      rfl

omit [Growth R] in
theorem orFail_eq_ok {x : Except Cause α} {a : α} {u : Session} :
    orFail x s = .ok a u ↔ x = .ok a ∧ u = s := by
  cases x with
  | ok b =>
    constructor
    · intro h
      cases h
      exact ⟨rfl, rfl⟩
    · rintro ⟨⟨⟩, rfl⟩
      rfl
  | error cause =>
    constructor
    · intro h
      cases h
    · rintro ⟨⟨⟩, -⟩

omit [Growth R] in
/-- What giving a name does. -/
theorem nameEntity_eq_ok {id found : EntityId} {name : String} {forward listed : Bool}
    {u : Session} : nameEntity id name forward listed s = .ok found u ↔
      s.tree.setName id name forward listed = .ok (found, u.tree) ∧
        u = { s with tree := u.tree } := by
  unfold nameEntity
  constructor
  · intro hRun
    obtain ⟨t, s₀, hTree, hRun⟩ := bind_eq_ok.mp hRun
    cases hTree
    obtain ⟨place, s₁, hFirst, hRun⟩ := bind_eq_ok.mp hRun
    obtain ⟨hPlace, rfl⟩ := orFail_eq_ok.mp hFirst
    obtain ⟨_, s₂, hRename, hRun⟩ := bind_eq_ok.mp hRun
    cases hRename
    obtain ⟨⟨found', t'⟩, s₃, hSecond, hRun⟩ := bind_eq_ok.mp hRun
    obtain ⟨hEnter, rfl⟩ := orFail_eq_ok.mp hSecond
    cases hRun
    exact ⟨IdlReader.bind_eq_ok.mpr ⟨place, hPlace, hEnter⟩, rfl⟩
  · rintro ⟨hSet, hu⟩
    obtain ⟨place, hPlace, hEnter⟩ := IdlReader.bind_eq_ok.mp hSet
    refine bind_eq_ok.mpr ⟨s.tree, s, rfl, bind_eq_ok.mpr ⟨place, s, orFail_eq_ok.mpr ⟨hPlace, rfl⟩, ?_⟩⟩
    refine bind_eq_ok.mpr ⟨⟨⟩, _, rfl, bind_eq_ok.mpr ⟨(found, u.tree), _,
      orFail_eq_ok.mpr ⟨hEnter, rfl⟩, ?_⟩⟩
    rw [hu]
    rfl

omit [Growth R] in
theorem addEntity_eq_error {parent : EntityId} {kind : EntityKind} {source : SourceId} {span : Span}
    {data : EntityData} {u : Session} {f : Fault}
    (h : addEntity parent kind source span data s = .error f u) :
    ∃ cause, s.tree.add parent kind source span data = .error cause ∧ f = Fault.of cause ∧
      u = s := by
  unfold addEntity at h
  rw [bind_of_ok (show tree s = .ok s.tree s from rfl)] at h
  cases hAdd : s.tree.add parent kind source span data with
  | ok added =>
    rw [hAdd] at h
    cases h
  | error cause =>
    rw [hAdd] at h
    cases h
    exact ⟨cause, rfl, rfl, rfl⟩

omit [Growth R] in
/-- A name is refused where it is to stand, or when it is written down and entered. -/
theorem nameEntity_eq_error {id : EntityId} {name : String} {forward listed : Bool}
    {u : Session} {f : Fault} (h : nameEntity id name forward listed s = .error f u) :
    ∃ cause, f = Fault.of cause ∧ (s.tree.namePlace id name = .error cause ∧ u = s ∨
      ∃ place, s.tree.namePlace id name = .ok place ∧
        (s.tree.rename id name).enterName place id name forward listed = .error cause ∧
        u = { s with tree := s.tree.rename id name }) := by
  unfold nameEntity at h
  rw [bind_of_ok (show tree s = .ok s.tree s from rfl)] at h
  cases hPlace : s.tree.namePlace id name with
  | error cause =>
    rw [hPlace] at h
    cases h
    exact ⟨cause, rfl, Or.inl ⟨rfl, rfl⟩⟩
  | ok place =>
    rw [hPlace] at h
    cases hEnter : (s.tree.rename id name).enterName place id name forward listed with
    | error cause =>
      change (orFail ((s.tree.rename id name).enterName place id name forward listed) >>= _)
        { s with tree := s.tree.rename id name } = _ at h
      rw [hEnter] at h
      cases h
      exact ⟨cause, rfl, Or.inr ⟨place, rfl, hEnter, rfl⟩⟩
    | ok r =>
      change (orFail ((s.tree.rename id name).enterName place id name forward listed) >>= _)
        { s with tree := s.tree.rename id name } = _ at h
      rw [hEnter] at h
      cases h

/-- An entity is added without a name. -/
theorem grows_addEntity (hs : s.Sound) {parent : EntityId} {kind : EntityKind} {source : SourceId}
    {span : Span} {data : EntityData} (hReady : s.tree.Ready parent) (hStarts : data.Starts kind)
    (hParameter : kind = .parameter ↔ (s.tree.get parent).kind = .operation)
    (hRefers : ∀ d, data = .declaration d → s.tree.Refers d.type)
    (hEntry : kind = .enumEntry → (s.tree.get parent).kind = .enum ∧
      ∀ d, data = .declaration d → d.type.definition = some parent) :
    Grows Steps (addEntity parent kind source span data) s fun id s' => s'.tree.Open id ∧
      s.tree.add parent kind source span data = .ok (id, s'.tree) := by
  unfold addEntity
  refine Grows.tree (Grows.orFail ?_)
  rintro ⟨id, t'⟩ hAdd
  have hStep : Step s.tree t' := .add hReady hStarts hParameter hRefers hAdd
  refine (grows_modifyTree hs (.single hStep) (entry_add hReady.lt hEntry hAdd)).bind ?_
  intro _ s' hs' _ hTree
  have hTree : s'.tree = t' := hTree
  refine Grows.pure hs' ?_
  rw [hTree]
  exact ⟨open_add hs.reachable.size_pos hReady.calm hAdd, hAdd⟩

/-- The entity without a name gets one. A definition that is not only declared, and every
declaration, then stands for itself. -/
theorem grows_nameEntity (hs : s.Sound) {id : EntityId} {name : String} {forward listed : Bool}
    (hOpen : s.tree.Open id) (hName : IsName name)
    (hForward : forward = true → (s.tree.get id).kind.isDefinition = true)
    (hListed : listed = true ↔ (s.tree.get id).kind ≠ .parameter) :
    Grows Steps (nameEntity id name forward listed) s fun found s' =>
      (s'.tree.Calm ∧ s'.tree.Named found ∧ (s'.tree.get found).kind = (s.tree.get id).kind ∧
        (forward = false → (s'.tree.get found).forward = false)) ∧
      s.tree.setName id name forward listed = .ok (found, s'.tree) := by
  intro found u hRun
  obtain ⟨hSet, hu⟩ := nameEntity_eq_ok.mp hRun
  have hStep : Step s.tree u.tree := .name hOpen hName hForward hListed hSet
  have hNaming := naming_of_setName hOpen.lt hSet
  have hSize : u.tree.size = s.tree.size := by
    obtain ⟨e, hRenames, -⟩ := hNaming.renames
    exact hRenames.size
  have hSound := hs.steps (.single hStep) (entry_of_size hSize)
  rw [← hu] at hSound
  exact ⟨hSound, .single hStep, ⟨calm_name hOpen hName hNaming,
    (wellFormed_of_reachable hs.reachable).named_naming hOpen hName hNaming⟩, hSet⟩

end Parsing

end IdlReader
