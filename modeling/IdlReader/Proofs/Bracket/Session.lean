import IdlReader.Proofs.Grammar.Session
import IdlReader.Proofs.Bracket.Tree

/-!
# Brackets that are taken from a session

The grammar takes brackets in pairs, or it keeps what stands between them among the tokens of a
declaration and leaves the brackets inside to the evaluation. So what an action takes amounts to
nothing, if the tokens that are kept are bracketed in the tree that it leads to
(`Session.Clears`). Brackets that were taken and not matched yet are in the hands of the action.

An action may rely on tidy sessions: words are names, also those that the scopes of the tree know,
words of the language itself name no definitions, and the end of the input is not among the tokens.

* `Balances.bind`: actions one after the other.
* `balances_next`, `balances_putBack`, `balances_peek`: tokens.
* `clears_addEntity`, `clears_nameEntity`, `clears_modifyDeclaration`: what the tree keeps.
-/

namespace IdlReader

open IdlReader.Tree

/-! ## Sessions -/

namespace Session

/-- The tokens that are still to come. -/
def ahead (s : Session) : List Token := s.cache ++ s.stream.tokens

/-- The brackets that are still to come. -/
def brackets (s : Session) : List Bracket := IdlReader.brackets s.ahead

/-- Whether words are names, and the end of the input is not kept among the tokens. -/
structure Tidy (s : Session) : Prop where
  proper : ∀ t ∈ s.ahead, t.Proper
  unfinished : ∀ t ∈ s.ahead, t.isFinish = false
  worded : s.tree.Worded
  unreserved : s.tree.Unreserved

/-- Whether what is taken between two sessions, behind the brackets `us` that were in hand and up
to those that are in hand then, amounts to nothing, if what the tree keeps is bracketed. -/
structure Clears (n : Nat) (us : List Bracket) (s : Session) (us' : List Bracket) (s' : Session) :
    Prop where
  tidy : s'.Tidy
  spares : s.tree.Spares n s'.tree
  amounts : s'.tree.Closed → Amounts (us ++ s.brackets) (us' ++ s'.brackets)

variable {s s' s'' : Session} {us us' us'' : List Bracket} {n m : Nat}

theorem Tidy.congr (h : s.Tidy) (hWorded : s'.tree.Worded) (hUnreserved : s'.tree.Unreserved)
    (hSubset : ∀ t ∈ s'.ahead, t ∈ s.ahead) : s'.Tidy where
  proper := fun t ht => h.proper t (hSubset t ht)
  unfinished := fun t ht => h.unfinished t (hSubset t ht)
  worded := hWorded
  unreserved := hUnreserved

theorem Clears.trans (h : s.Clears m us us' s') (h' : s'.Clears n us' us'' s'') (hLe : n ≤ m) :
    s.Clears n us us'' s'' where
  tidy := h'.tidy
  spares := h.spares.trans h'.spares hLe
  amounts := fun hClosed => (h.amounts (h'.spares.closed hClosed)).trans (h'.amounts hClosed)

end Session

namespace Parsing

variable {α β : Type} {s : Session} {n m : Nat} {us us' : List Bracket} {vs : α → List Bracket}
  {ws : β → List Bracket}

/-! ## Combination -/

/-- Whether an action in the session `s` takes nothing but what amounts to nothing, besides what
is in hand in front of it and behind it, and gives what has the property `Q`. It leaves the first
`n` entities what they keep. -/
def Clears (n : Nat) (us : List Bracket) (x : Parsing α) (s : Session) (vs : α → List Bracket)
    (Q : α → Session → Prop) : Prop :=
  ∀ a s', x s = .ok a s' → s.Clears n us (vs a) s' ∧ Q a s'

/-- Whether an action does so in every tidy session, and leaves all entities what they keep. -/
def Balances (us : List Bracket) (x : Parsing α) (vs : α → List Bracket) (P : α → Prop) : Prop :=
  ∀ s : Session, s.Tidy → Clears s.tree.size us x s vs fun a _ => P a

/-- Whether an action leaves what is in hand. -/
abbrev Plain (x : Parsing α) : Prop := ∀ us, Balances us x (fun _ => us) fun _ => True

namespace Clears

variable {Q : α → Session → Prop} {R : β → Session → Prop}

theorem pure {a : α} (hs : s.Tidy) (hLe : n ≤ s.tree.size) (hAmounts : Amounts us (vs a))
    (hQ : Q a s) : Clears n us (pure a) s vs Q := by
  intro b s' hRun
  cases hRun
  exact ⟨⟨hs, .refl hLe, fun _ => hAmounts.before _⟩, hQ⟩

theorem bind {x : Parsing α} {f : α → Parsing β} (hx : Clears m us x s vs Q) (hLe : n ≤ m)
    (hf : ∀ a s', s'.Tidy → s.tree.Spares m s'.tree → Q a s' → Clears n (vs a) (f a) s' ws R) :
    Clears n us (x >>= f) s ws R := by
  intro b s'' hRun
  obtain ⟨a, s', ha, hb⟩ := bind_eq_ok.mp hRun
  obtain ⟨hFirst, hQ⟩ := hx a s' ha
  obtain ⟨hSecond, hR⟩ := hf a s' hFirst.tidy hFirst.spares hQ b s'' hb
  exact ⟨hFirst.trans hSecond hLe, hR⟩

theorem mono {x : Parsing α} {R : α → Session → Prop} (hx : Clears n us x s vs Q)
    (h : ∀ a s', s'.Tidy → s.tree.Spares n s'.tree → Q a s' → R a s') : Clears n us x s vs R :=
  fun a s' hRun => ⟨(hx a s' hRun).1,
    h a s' (hx a s' hRun).1.tidy (hx a s' hRun).1.spares (hx a s' hRun).2⟩

theorem weaken {x : Parsing α} (hx : Clears m us x s vs Q) (hLe : n ≤ m) :
    Clears n us x s vs Q := by
  intro a s' hRun
  obtain ⟨hClears, hQ⟩ := hx a s' hRun
  exact ⟨⟨hClears.tidy, hClears.spares.weaken hLe, hClears.amounts⟩, hQ⟩

/-- What is in hand may be left out if it amounts to nothing. -/
theorem hand {x : Parsing α} (hx : Clears n us' x s vs Q) (hAmounts : Amounts us us') :
    Clears n us x s vs Q := by
  intro a s' hRun
  obtain ⟨hClears, hQ⟩ := hx a s' hRun
  exact ⟨⟨hClears.tidy, hClears.spares,
    fun hClosed => (hAmounts.before _).trans (hClears.amounts hClosed)⟩, hQ⟩

theorem ite {c : Prop} [Decidable c] {x y : Parsing α} (hx : c → Clears n us x s vs Q)
    (hy : ¬ c → Clears n us y s vs Q) : Clears n us (if c then x else y) s vs Q := by
  split
  · exact hx ‹_›
  · exact hy ‹_›

/-- A fault that is raised in front of further actions. -/
theorem failAtToken_bind (cause : Cause) (t : Token) {f : β → Parsing α} :
    Clears n us (Parsing.failAtToken cause t >>= f) s vs Q := by
  intro b s' hRun
  obtain ⟨a, s₁, ha, -⟩ := bind_eq_ok.mp hRun
  cases ha

end Clears

namespace Balances

variable {P : α → Prop} {R : β → Prop}

theorem pure {a : α} (hAmounts : Amounts us (vs a)) (hP : P a) : Balances us (pure a) vs P :=
  fun _ hs => .pure hs (Nat.le_refl _) hAmounts hP

theorem bind {x : Parsing α} {f : α → Parsing β} (hx : Balances us x vs P)
    (hf : ∀ a, P a → Balances (vs a) (f a) ws R) : Balances us (x >>= f) ws R :=
  fun s hs => (hx s hs).bind (Nat.le_refl _) fun a s' hs' hSpares hP =>
    (hf a hP s' hs').weaken hSpares.size

theorem mono {x : Parsing α} {R : α → Prop} (hx : Balances us x vs P) (h : ∀ a, P a → R a) :
    Balances us x vs R := fun s hs => (hx s hs).mono fun a _ _ _ => h a

theorem hand {x : Parsing α} (hx : Balances us' x vs P) (hAmounts : Amounts us us') :
    Balances us x vs P := fun s hs => (hx s hs).hand hAmounts

/-- What is in hand at the end may be left out if it amounts to nothing. -/
theorem settle {x : Parsing α} {vs' : α → List Bracket} (hx : Balances us x vs P)
    (h : ∀ a, P a → Amounts (vs a) (vs' a)) : Balances us x vs' P := by
  intro s hs a s' hRun
  obtain ⟨hClears, hP⟩ := hx s hs a s' hRun
  exact ⟨⟨hClears.tidy, hClears.spares,
    fun hClosed => (hClears.amounts hClosed).trans ((h a hP).before _)⟩, hP⟩

theorem ite {c : Prop} [Decidable c] {x y : Parsing α} (hx : c → Balances us x vs P)
    (hy : ¬ c → Balances us y vs P) : Balances us (if c then x else y) vs P := by
  split
  · exact hx ‹_›
  · exact hy ‹_›

/-! ## Faults -/

theorem throw (f : Fault) : Balances us (throwThe Fault f : Parsing α) vs P := by
  intro s _ a s' hRun
  cases hRun

theorem fail (cause : Cause) : Balances us (IdlReader.fail cause : Parsing α) vs P := throw _

theorem failAtToken (cause : Cause) (t : Token) :
    Balances us (Parsing.failAtToken cause t : Parsing α) vs P := throw _

/-- A fault that is raised in front of further actions. -/
theorem failAtToken_bind (cause : Cause) (t : Token) {f : β → Parsing α} :
    Balances us (Parsing.failAtToken cause t >>= f) vs P :=
  fun _ _ => .failAtToken_bind cause t

/-! ## The state -/

theorem get {f : Session → Parsing β} (h : ∀ s, Balances us (f s) ws R) :
    Balances us (get >>= f) ws R := fun s => h s s

theorem tokensLeft {f : Nat → Parsing β} (h : ∀ n, Balances us (f n) ws R) :
    Balances us (tokensLeft >>= f) ws R := fun s => h _ s

theorem tree {f : Tree → Parsing β} (h : ∀ t, t.Worded → Balances us (f t) ws R) :
    Balances us (tree >>= f) ws R := fun s hs => h s.tree hs.worded s hs

theorem entity {f : Entity → Parsing β} {id : EntityId} (h : ∀ e, Balances us (f e) ws R) :
    Balances us (entity id >>= f) ws R := fun s => h _ s

end Balances

/-! ## Tokens -/

/-- What taking a token off the stream does: it was the first one, or the stream is at its end. -/
theorem fetch_tidy (hs : s.Tidy) {t : Token} {u : Session} (h : fetch s = .ok t u) :
    u.Tidy ∧ s.tree.Spares s.tree.size u.tree ∧ u.cache = s.cache ∧
      (t.isFinish = false ∧ s.stream.tokens = t :: u.stream.tokens ∨
        t.isFinish = true ∧ s.stream.tokens = [] ∧ u.stream.tokens = []) := by
  have hCache := cache_fetch h
  rcases fetch_eq_ok h with ⟨d, ds, hDeliveries, rfl, rfl⟩ | ⟨g, hDeliveries, -, rfl, rfl⟩
  · have hTokens : s.stream.tokens = d.token :: ds.map Delivery.token := by
      rw [Stream.tokens, hDeliveries, List.map_cons]
    have hMem : d.token ∈ s.ahead := by
      rw [Session.ahead, hTokens]
      exact List.mem_append_right _ List.mem_cons_self
    refine ⟨hs.congr (hs.worded.addRecords _) (hs.unreserved.addRecords _) fun t ht => ?_,
      spares_addRecords _, hCache, Or.inl ⟨hs.unfinished _ hMem, hTokens⟩⟩
    rw [Session.ahead, hTokens]
    rcases List.mem_append.mp ht with hOld | hNew
    · exact List.mem_append_left _ hOld
    · exact List.mem_append_right _ (List.mem_cons_of_mem _ hNew)
  · have hTokens : s.stream.tokens = [] := by rw [Stream.tokens, hDeliveries, List.map_nil]
    have hFinish : (endToken s.last).isFinish = true := by cases s.last <;> rfl
    exact ⟨hs.congr (hs.worded.addRecords _) (hs.unreserved.addRecords _) fun t ht => ht,
      spares_addRecords _, hCache, Or.inr ⟨hFinish, hTokens, hTokens⟩⟩

theorem next_tidy (hs : s.Tidy) {t : Token} {u : Session} (h : next s = .ok t u) :
    u.Tidy ∧ s.tree.Spares s.tree.size u.tree ∧
      (t.isFinish = false ∧ s.ahead = t :: u.ahead ∨
        t.isFinish = true ∧ s.ahead = [] ∧ u.ahead = []) := by
  cases hCache : s.cache with
  | cons v vs =>
    rw [next_cached hCache] at h
    cases h
    have hAhead : s.ahead = t :: (vs ++ s.stream.tokens) := by
      rw [Session.ahead, hCache, List.cons_append]
    have hFinish := hs.unfinished t (hAhead ▸ List.mem_cons_self)
    exact ⟨hs.congr hs.worded hs.unreserved fun v hv => hAhead ▸ List.mem_cons_of_mem t hv,
      .refl (Nat.le_refl _), Or.inl ⟨hFinish, hAhead⟩⟩
  | nil =>
    rw [next_of_nil hCache] at h
    obtain ⟨hTidy, hSpares, hSame, hTokens⟩ := fetch_tidy hs h
    rw [hCache] at hSame
    unfold Session.ahead
    rw [hCache, hSame, List.nil_append, List.nil_append]
    exact ⟨hTidy, hSpares, hTokens⟩

/-- Tokens that are taken into the cache are still to come. The end is met only if there are fewer
tokens than wanted. -/
theorem fill_tidy (n : Nat) (hs : s.Tidy) {t? : Option Token} {u : Session}
    (h : fill n s = .ok t? u) :
    u.Tidy ∧ s.tree.Spares s.tree.size u.tree ∧ u.ahead = s.ahead ∧
      ∀ t ∈ t?, t.isFinish = true ∧ s.ahead.length < s.cache.length + n := by
  induction n generalizing s with
  | zero =>
    cases h
    exact ⟨hs, .refl (Nat.le_refl _), rfl, nofun⟩
  | succ n ih =>
    unfold fill at h
    obtain ⟨t, s₁, hFetch, h⟩ := bind_eq_ok.mp h
    obtain ⟨hTidy, hSpares, hCache, hTokens⟩ := fetch_tidy hs hFetch
    rcases hTokens with ⟨hFinish, hTokens⟩ | ⟨hFinish, hBefore, hBehind⟩
    · rw [if_neg (by rw [hFinish]; exact Bool.false_ne_true)] at h
      obtain ⟨_, s₂, hModify, h⟩ := bind_eq_ok.mp h
      cases hModify
      have hAhead : (s₁.cache ++ [t]) ++ s₁.stream.tokens = s.ahead := by
        rw [Session.ahead, hTokens, hCache, List.append_assoc, List.singleton_append]
      have hTidy' : Session.Tidy { s₁ with cache := s₁.cache ++ [t] } :=
        hs.congr hTidy.worded hTidy.unreserved fun v hv => hAhead ▸ hv
      obtain ⟨hTidy₂, hSpares₂, hAhead₂, hEnd⟩ := ih hTidy' h
      refine ⟨hTidy₂, hSpares.after hSpares₂, hAhead₂.trans hAhead, fun v hv => ?_⟩
      obtain ⟨hFinish₂, hShort⟩ := hEnd v hv
      have hLength := congrArg List.length hAhead
      rw [Session.ahead] at hShort
      dsimp only at hShort
      rw [hLength, List.length_append, List.length_singleton, hCache] at hShort
      exact ⟨hFinish₂, by omega⟩
    · rw [if_pos hFinish] at h
      cases h
      refine ⟨hTidy, hSpares, ?_, ?_⟩
      · rw [Session.ahead, Session.ahead, hBefore, hBehind, hCache]
      · rintro v hv
        cases hv
        rw [Session.ahead, hBefore, List.append_nil]
        exact ⟨hFinish, by omega⟩

theorem proper_of_isFinish {t : Token} (h : t.isFinish = true) : t.Proper := by
  refine proper_of_not_isWord ?_
  rw [Token.isWord, Token.isIdentifier, Token.isKeyword, beq_iff_eq.mp h]
  rfl

/-- A token that is looked at is still to come, or it is the end. -/
theorem peek_tidy (i : Nat) (hs : s.Tidy) {t : Token} {u : Session} (h : peek i s = .ok t u) :
    u.Tidy ∧ s.tree.Spares s.tree.size u.tree ∧ u.ahead = s.ahead ∧ t.Proper ∧
      (t.isFinish = false ∧ u.cache[i]? = some t ∨ t.isFinish = true ∧ u.ahead.length ≤ i) := by
  unfold peek at h
  rw [bind_get] at h
  obtain ⟨t?, s₁, hFill, h⟩ := bind_eq_ok.mp h
  obtain ⟨hTidy, hSpares, hAhead, hEnd⟩ := fill_tidy _ hs hFill
  cases t? with
  | some v =>
    cases h
    obtain ⟨hFinish, hShort⟩ := hEnd _ rfl
    refine ⟨hTidy, hSpares, hAhead, proper_of_isFinish hFinish, Or.inr ⟨hFinish, ?_⟩⟩
    rw [hAhead]
    rw [Session.ahead, List.length_append] at hShort ⊢
    omega
  | none =>
    have hLt : i < s₁.cache.length := by
      have hLength := length_fill hFill
      omega
    have hGet := List.getElem?_eq_getElem hLt
    have hMem : s₁.cache[i] ∈ s₁.ahead := List.mem_append_left _ (List.getElem_mem hLt)
    dsimp only at h
    rw [bind_get, hGet] at h
    cases h
    exact ⟨hTidy, hSpares, hAhead, hTidy.proper _ hMem,
      Or.inl ⟨hTidy.unfinished _ hMem, hGet⟩⟩

/-- Brackets of sessions with the same tokens to come. -/
theorem clears_of_ahead {u : Session} (hTidy : u.Tidy) (hSpares : s.tree.Spares n u.tree)
    (hAhead : u.ahead = s.ahead) : s.Clears n us us u := by
  refine ⟨hTidy, hSpares, fun _ => ?_⟩
  rw [Session.brackets, Session.brackets, hAhead]
  exact .refl _

theorem balances_next (us : List Bracket) :
    Balances us next (fun t => us ++ brackets [t]) Token.Proper := by
  intro s hs t u hRun
  obtain ⟨hTidy, hSpares, hAhead⟩ := next_tidy hs hRun
  rcases hAhead with ⟨-, hAhead⟩ | ⟨hFinish, hBefore, hBehind⟩
  · refine ⟨⟨hTidy, hSpares, fun _ => ?_⟩, hs.proper t (hAhead ▸ List.mem_cons_self)⟩
    rw [Session.brackets, hAhead, brackets_cons, List.append_assoc]
    exact .refl _
  · refine ⟨⟨hTidy, hSpares, fun _ => ?_⟩, proper_of_isFinish hFinish⟩
    dsimp only
    rw [Session.brackets, Session.brackets, hBefore, hBehind, brackets_of_isFinish hFinish,
      List.append_nil]
    exact .refl _

theorem balances_peek (i : Nat) (us : List Bracket) :
    Balances us (peek i) (fun _ => us) Token.Proper := by
  intro s hs t u hRun
  obtain ⟨hTidy, hSpares, hAhead, hProper, -⟩ := peek_tidy i hs hRun
  exact ⟨clears_of_ahead hTidy hSpares hAhead, hProper⟩

/-- A token that was looked at comes next, unless it is the end. -/
theorem clears_ahead (hs : s.Tidy) (us : List Bracket) :
    Clears s.tree.size us (peek 0) s (fun _ => us) fun t u =>
      (t.isFinish = false → ∃ ts, u.cache = t :: ts) ∧ (t.isFinish = true → u.ahead = []) := by
  intro t u hRun
  obtain ⟨hTidy, hSpares, hAhead, -, hEnd⟩ := peek_tidy 0 hs hRun
  refine ⟨clears_of_ahead hTidy hSpares hAhead, cache_peek hRun, fun hFinish => ?_⟩
  rcases hEnd with ⟨hNot, -⟩ | ⟨-, hLength⟩
  · rw [hFinish] at hNot
    cases hNot
  · exact List.eq_nil_of_length_eq_zero (Nat.le_zero.mp hLength)

/-- A token that was looked at is taken. -/
theorem clears_taken (hs : s.Tidy) {t : Token} (hCache : ∃ ts, s.cache = t :: ts)
    (us : List Bracket) :
    Clears s.tree.size us next s (fun _ => us ++ brackets [t]) fun u _ => u = t := by
  intro u s' hRun
  obtain ⟨hClears, -⟩ := balances_next us s hs u s' hRun
  obtain ⟨ts, hCache⟩ := hCache
  rw [next_cached hCache] at hRun
  cases hRun
  exact ⟨hClears, rfl⟩

theorem balances_putBack {t : Token} (ht : t.Proper) (us : List Bracket) :
    Balances (us ++ brackets [t]) (putBack t) (fun _ => us) fun _ => True := by
  unfold putBack
  refine Balances.ite (fun hFinish => Balances.pure ?_ trivial) fun hKept s hs a u hRun => ?_
  · rw [brackets_of_isFinish hFinish, List.append_nil]
    exact .refl _
  · cases hRun
    refine ⟨⟨⟨List.forall_mem_cons.mpr ⟨ht, hs.proper⟩, ?_, hs.worded, hs.unreserved⟩,
      .refl (Nat.le_refl _), fun _ => ?_⟩, trivial⟩
    · exact List.forall_mem_cons.mpr ⟨Bool.eq_false_iff.mpr hKept, hs.unfinished⟩
    · have hAhead : brackets [t] ++ s.brackets = brackets (t :: s.ahead) := (brackets_cons _ _).symm
      rw [List.append_assoc, hAhead]
      exact .refl _

/-- A token that is no bracket does not count. -/
theorem Balances.drop {t : Token} (h : brackets [t] = []) {x : Parsing α} {P : α → Prop}
    (hx : Balances us x vs P) : Balances (us ++ brackets [t]) x vs P := by
  rw [h, List.append_nil]
  exact hx

theorem plain_putBack {t : Token} (ht : t.Proper) (h : brackets [t] = []) : Plain (putBack t) := by
  intro us
  have hBalances := balances_putBack ht us
  rwa [h, List.append_nil] at hBalances

/-- Names that are generated have a line in them. -/
theorem generated_notMem_keywords (stem : String) (n : Nat) :
    stem ++ "_" ++ toString n ∉ Lexicon.keywords := by
  have hKeywords : ∀ w ∈ Lexicon.keywords, '_' ∉ w.toList := by decide
  intro hMem
  exact hKeywords _ hMem (by simp)

theorem balances_generateName {stem : String} (h : IsName stem) (us : List Bracket) :
    Balances us (generateName stem) (fun _ => us) fun name =>
      IsName name ∧ name ∉ Lexicon.keywords := by
  intro s hs name u hRun
  cases hRun
  exact ⟨clears_of_ahead (hs.congr hs.worded hs.unreserved fun _ ht => ht) (.refl (Nat.le_refl _)) rfl,
    isName_generated h _, generated_notMem_keywords stem _⟩

/-! ## Entities -/

theorem clears_modifyTree {f : Tree → Tree} (hs : s.Tidy)
    (hSpares : Spares n s.tree (f s.tree)) (hWorded : (f s.tree).Worded)
    (hUnreserved : (f s.tree).Unreserved) (hAmounts : (f s.tree).Closed → Amounts us us') :
    Clears n us (modifyTree f) s (fun _ => us') fun _ u => u.tree = f s.tree := by
  intro a u hRun
  cases hRun
  exact ⟨⟨hs.congr hWorded hUnreserved fun _ ht => ht, hSpares,
    fun hClosed => (hAmounts hClosed).before _⟩, rfl⟩

/-- A change of an entity that leaves what it keeps. -/
theorem plain_modifyEntity (id : EntityId) {f : Entity → Entity}
    (hf : ∀ e, (f e).written? = e.written?) (hAlike : ∀ e, Entity.Alike e (f e)) :
    Plain (modifyEntity id f) := by
  intro us s hs
  have hWorded : (s.tree.modify id f).Worded := hs.worded.congr rfl
  have hUnreserved := hs.unreserved.modify id hAlike
  have hClears := clears_modifyTree (f := fun t => t.modify id f) hs (spares_modify id hf) hWorded
    hUnreserved fun _ => Amounts.refl us
  exact hClears.mono fun _ _ _ _ _ => trivial

theorem clears_addEntity (hs : s.Tidy) (us : List Bracket) (parent : EntityId) (kind : EntityKind)
    (source : SourceId) (span : Span) (data : EntityData) :
    Clears s.tree.size us (addEntity parent kind source span data) s (fun _ => us) fun id u =>
      s.tree.size ≤ id ∧ id < u.tree.size ∧ (u.tree.get id).kind = kind ∧
        (u.tree.get id).data = data := by
  intro id u hRun
  unfold addEntity at hRun
  obtain ⟨t, s₁, hTree, hRun⟩ := bind_eq_ok.mp hRun
  cases hTree
  obtain ⟨⟨id', t'⟩, s₂, hAdd, hRun⟩ := bind_eq_ok.mp hRun
  cases hOutcome : s.tree.add parent kind source span data with
  | error cause =>
    rw [hOutcome] at hAdd
    cases hAdd
  | ok r =>
    rw [hOutcome] at hAdd
    cases hAdd
    cases hRun
    obtain ⟨-, rfl, hSize, -, -, hGet⟩ := add_eq_ok hOutcome
    refine ⟨clears_of_ahead (hs.congr (hs.worded.add hOutcome) (hs.unreserved.add hOutcome) fun _ ht => ht)
      (spares_of_lt (Nat.le_of_lt (Nat.lt_of_lt_of_eq (Nat.lt_succ_self _) hSize.symm))
        fun i hi => ?_) rfl, Nat.le_refl _, Nat.lt_of_lt_of_eq (Nat.lt_succ_self _) hSize.symm,
      ?_, ?_⟩
    · rw [hGet, if_neg (Nat.ne_of_lt hi)]
    · rw [hGet, if_pos rfl]
    · rw [hGet, if_pos rfl]

/-- Giving a name. What is not only declared stands for itself. -/
theorem clears_nameEntity (hs : s.Tidy) (us : List Bracket) {id : EntityId} (hLt : id < s.tree.size)
    {name : String} (hName : IsName name)
    (hUnreserved : (s.tree.get id).definition?.isSome = true → name ∉ Lexicon.keywords)
    (forward listed : Bool) :
    Clears s.tree.size us (nameEntity id name forward listed) s (fun _ => us) fun found _ =>
      forward = false → found = id := by
  intro found u hRun
  obtain ⟨hSet, hu⟩ := nameEntity_eq_ok.mp hRun
  have hNaming := naming_of_setName hLt hSet
  obtain ⟨e, hRenames, hKind, -⟩ := hNaming.renames
  have hKinds : ∀ i, (u.tree.get i).kind = (s.tree.get i).kind := by
    intro i
    by_cases hi : i = id
    · rw [hi]
      exact hRenames.self.kind.trans hKind
    · exact (hRenames.others i hi).kind
  rw [hu]
  refine ⟨clears_of_ahead (hs.congr (hs.worded.naming hName hNaming)
    (hs.unreserved.naming hUnreserved hNaming) fun _ ht => ht)
    (spares_of_lt (Nat.le_of_eq hRenames.size.symm) fun i _ =>
      Entity.written?_congr (hKinds i) (hRenames.declaration i)) rfl, ?_⟩
  rintro rfl
  cases hNaming <;> rfl

/-- Adding a declaration that keeps nothing yet, and giving it its name. -/
theorem clears_added (hs : s.Tidy) (hLe : n ≤ s.tree.size) {parent : EntityId} {kind : EntityKind}
    {source : SourceId} {span : Span} {d : Declaration} (hd : d.written kind = { kind })
    {name : String} (hName : IsName name) (listed : Bool) {f : EntityId → Parsing β}
    {R : β → Session → Prop}
    (hf : ∀ id u, u.Tidy → n ≤ id → n ≤ u.tree.size → (u.tree.get id).written? = some { kind } →
      Clears n us (f id) u ws R) :
    Clears n us (do
      let id ← addEntity parent kind source span (.declaration d)
      let id ← nameEntity id name false listed
      f id) s ws R := by
  refine (clears_addEntity hs us _ _ _ _ _).bind hLe ?_
  rintro id s₁ hs₁ hSpares₁ ⟨hFresh, hLt, hKind, hData⟩
  have hUnreserved : (s₁.tree.get id).definition?.isSome = true → name ∉ Lexicon.keywords := by
    rw [Entity.definition?, hData]
    intro hSome
    cases hSome
  refine (clears_nameEntity hs₁ us hLt hName hUnreserved false listed).bind
    (Nat.le_trans hLe hSpares₁.size) fun found s₂ hs₂ hSpares₂ hFound => ?_
  rw [hFound rfl]
  refine hf id s₂ hs₂ (Nat.le_trans hLe hFresh)
    (Nat.le_trans hLe (Nat.le_trans hSpares₁.size hSpares₂.size)) ?_
  rw [hSpares₂.written id hLt, Entity.written?, Entity.declaration?, hData, Option.map_some, hKind,
    hd]

/-- A declaration that comes to keep tokens. What is in hand may then be left out. -/
theorem clears_modifyDeclaration (hs : s.Tidy) {id : EntityId} (hFresh : n ≤ id) {w : Written}
    (hw : (s.tree.get id).written? = some w) (w' : Written) (us' : List Bracket)
    {f : Declaration → Declaration}
    (hf : ∀ d : Declaration, d.written w.kind = w → (f d).written w.kind = w')
    (hOld : w'.Closed → w.Closed) (hAmounts : w'.Closed → Amounts us us') :
    Clears n us (modifyDeclaration id f) s (fun _ => us') fun _ u =>
      (u.tree.get id).written? = some w' := by
  have hLt := lt_of_written? hw
  have hNew : ((s.tree.modify id (Entity.mapDeclaration f)).get id).written? = some w' := by
    obtain ⟨d, hd, hWritten⟩ := Option.map_eq_some_iff.mp hw
    have hKind : (s.tree.get id).kind = w.kind := congrArg Written.kind hWritten
    have hSame : ((s.tree.get id).mapDeclaration f).kind = w.kind :=
      (Entity.alike_mapDeclaration f _).kind.trans hKind
    rw [hKind] at hWritten
    rw [get_modify_self hLt, Entity.written?, Entity.declaration?_mapDeclaration, hd, hSame]
    exact congrArg some (hf d hWritten)
  have hOthers : ∀ i, i ≠ id → ((s.tree.modify id (Entity.mapDeclaration f)).get i).written? =
      (s.tree.get i).written? := fun i hi => by rw [get_modify_of_ne hi]
  have hSpares : Spares n s.tree (s.tree.modify id (Entity.mapDeclaration f)) := by
    refine ⟨?_, fun i hi => hOthers i (Nat.ne_of_lt (Nat.lt_of_lt_of_le hi hFresh)), ?_⟩
    · rw [size_modify]
      exact Nat.le_of_lt (Nat.lt_of_le_of_lt hFresh hLt)
    · intro hClosed i v hv
      by_cases hi : i = id
      · rw [hi, hw] at hv
        cases hv
        exact hOld (hClosed id w' hNew)
      · exact hClosed i v ((hOthers i hi).trans hv)
  unfold modifyDeclaration modifyEntity
  refine Clears.mono (clears_modifyTree hs hSpares (hs.worded.congr rfl)
    (hs.unreserved.modify id fun e => Entity.alike_mapDeclaration f e)
    fun hClosed => hAmounts (hClosed id w' hNew)) fun _ u _ _ hTree => ?_
  rw [hTree]
  exact hNew

/-! ## Comments -/

theorem plain_commentsAhead : Plain commentsAhead := by
  intro us
  unfold commentsAhead
  refine Balances.get fun s => ?_
  have hComments : Balances us (do let s ← get; return s.comments : Parsing (List Token))
      (fun _ => us) fun _ => True := Balances.get fun _ => .pure (.refl _) trivial
  exact Balances.ite (fun _ => (balances_peek 0 us).bind fun _ _ => hComments) fun _ => hComments

theorem plain_skipAdjacentComments : Plain skipAdjacentComments := by
  intro us
  unfold skipAdjacentComments
  refine (balances_peek 0 us).bind fun _ _ s hs a u hRun => ?_
  cases hRun
  exact ⟨clears_of_ahead (hs.congr hs.worded hs.unreserved fun _ ht => ht) (.refl (Nat.le_refl _)) rfl,
    trivial⟩

theorem plain_commentsBefore : Plain commentsBefore := fun us =>
  (balances_peek 0 us).bind fun _ _ => (plain_commentsAhead us).bind fun _ _ =>
    .pure (.refl _) trivial

theorem plain_attachBefore (id : EntityId) (comments : List Token) :
    Plain (attachBefore id comments) :=
  plain_modifyEntity id (fun e => Entity.written?_annotates (Entity.annotates_attach comments e))
    fun e => (Entity.annotates_attach comments e).alike

theorem plain_attachAfter (id : EntityId) (line : Nat) : Plain (attachAfter id line) := by
  intro us
  unfold attachAfter
  refine Balances.entity fun e => (plain_commentsAhead us).bind fun comments _ => ?_
  dsimp only
  refine Balances.ite (fun _ => .pure (.refl _) trivial) fun _ => ?_
  refine (plain_modifyEntity id (fun e' => ?_) (fun e' => ?_) us).bind
    fun _ _ => plain_skipAdjacentComments us
  · have hAttach := Entity.written?_annotates
      (Entity.annotates_attach (succeedingComments e.source line comments) e')
    exact hAttach
  · have hAttach := (Entity.annotates_attach (succeedingComments e.source line comments) e').alike
    exact ⟨hAttach.kind, hAttach.name, hAttach.parent, hAttach.scope, hAttach.forward,
      hAttach.definition⟩

theorem plain_endAt (id : EntityId) (t : Token) : Plain (endAt id t) :=
  plain_modifyEntity id (fun _ => rfl) fun _ => ⟨rfl, rfl, rfl, rfl, rfl, rfl⟩

end Parsing

end IdlReader
