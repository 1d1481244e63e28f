import IdlReader.Proofs.Grammar.Bare
import IdlReader.Proofs.Grammar.Evaluation
import IdlReader.Proofs.Mirror.Lookup

/-!
# Actions on mirrored sessions

Sessions mirror each other if their trees do and the same tokens are to come. With an exact mirror
they have looked ahead as far as each other, and the same comments and directives are to come; with
any other one nothing is to come but comments and tokens of the same kinds and texts.

An action follows another one if it succeeds whenever the other one does, with a result that stands
for that of the other one, and leaves sessions that mirror each other again.

* `Follows.bind`, `Follows.ite`: actions one after the other, and branches.
* `follows_next`, `follows_peek`, `follows_putBack`: tokens.
* `follows_attachAfter`, `follows_endAt`: notes.
* `follows_addEntity`, `follows_nameEntity`: entities.
-/

namespace IdlReader

open IdlReader.Tree

/-- Whether both readers have the same tokens to come. -/
class Mirror.Reading (M : Mirror) : Prop where
  reading : M.reading

/-- Whether sessions differ in their trees only. -/
structure Session.Coincides (s s' : Session) : Prop where
  generated : s'.generated = s.generated
  cache : s'.cache = s.cache
  deliveries : s'.stream.deliveries = s.stream.deliveries
  ending : s'.stream.ending = s.stream.ending
  comments : s'.comments = s.comments
  last : s'.last = s.last

/-- Whether what is to come in a session stands for what is to come in another one. -/
inductive Session.Alike (M : Mirror) (s s' : Session) : Prop where
  | exact (hExact : M.exact) (hSame : s.Coincides s')
  | loose (hLoose : ¬ M.exact) (hGenerated : s'.generated = s.generated) {ts ts' : List Token}
      (hBare : s.Bare ts) (hBare' : s'.Bare ts') (hTokens : M.Tokens ts ts')

/-- Whether a session with a sound tree stands for another one. -/
structure Session.Mirrors (M : Mirror) (s s' : Session) : Prop where
  sound : s.Sound
  tree : s.tree.Mirrors M s'.tree
  env : s'.env = s.env
  ahead : M.reading → s.Alike M s'

variable {M : Mirror} {s s' : Session}

theorem Session.Alike.generated (h : s.Alike M s') : s'.generated = s.generated := by
  cases h with
  | exact _ hSame => exact hSame.generated
  | loose _ hGenerated => exact hGenerated

theorem Session.Alike.coincides (h : s.Alike M s') (hExact : M.exact) : s.Coincides s' := by
  cases h with
  | exact _ hSame => exact hSame
  | loose hLoose => exact absurd hExact hLoose

theorem Session.Alike.withTree (h : s.Alike M s') (t t' : Tree) :
    Session.Alike M { s with tree := t } { s' with tree := t' } := by
  cases h with
  | exact hExact hSame => exact .exact hExact { hSame with }
  | loose hLoose hGenerated hBare hBare' hTokens =>
    exact .loose hLoose hGenerated { hBare with } { hBare' with } hTokens

theorem Session.Mirrors.reflects (h : s.Mirrors M s') : Reflects M s.tree s'.tree :=
  ⟨h.tree, h.sound.reachable⟩

theorem Session.Mirrors.alike [M.Reading] (h : s.Mirrors M s') : s.Alike M s' :=
  h.ahead Mirror.Reading.reading

/-- Sessions that mirror each other with trees that do. -/
theorem Session.Mirrors.withTree (h : s.Mirrors M s') {t t' : Tree}
    (hSound : Session.Sound { s with tree := t }) (hTree : t.Mirrors M t') :
    Session.Mirrors M { s with tree := t } { s' with tree := t' } :=
  ⟨hSound, hTree, h.env, fun hReading => (h.ahead hReading).withTree t t'⟩

namespace Parsing

variable {α α' β β' : Type}

/-- Whether `x'` succeeds in the session `s'` whenever `x` does in the session `s`, with results
that have the property `Q` and sessions that mirror each other. -/
def Follows (M : Mirror) (x : Parsing α) (x' : Parsing α') (s s' : Session)
    (Q : α → α' → Prop) : Prop :=
  ∀ a u, x s = .ok a u → ∃ a' u', x' s' = .ok a' u' ∧ Q a a' ∧ u.Mirrors M u'

/-! ## Combination -/

theorem Follows.pure {Q : α → α' → Prop} {a : α} {a' : α'} (h : s.Mirrors M s') (hQ : Q a a') :
    Follows M (pure a) (pure a') s s' Q := by
  intro b u hRun
  cases hRun
  exact ⟨a', s', rfl, hQ, h⟩

theorem Follows.bind {x : Parsing α} {x' : Parsing α'} {f : α → Parsing β} {f' : α' → Parsing β'}
    {P : α → α' → Prop} {Q : β → β' → Prop} (hx : Follows M x x' s s' P)
    (hf : ∀ a a' u u', x s = .ok a u → P a a' → u.Mirrors M u' → Follows M (f a) (f' a') u u' Q) :
    Follows M (x >>= f) (x' >>= f') s s' Q := by
  intro b v hRun
  obtain ⟨a, u, hx₁, hf₁⟩ := bind_eq_ok.mp hRun
  obtain ⟨a', u', hx', hP, hMirrors⟩ := hx a u hx₁
  obtain ⟨b', v', hf', hQ, hMirrors'⟩ := hf a a' u u' hx₁ hP hMirrors b v hf₁
  exact ⟨b', v', bind_eq_ok.mpr ⟨a', u', hx', hf'⟩, hQ, hMirrors'⟩

/-- An action of which it is known what it does to the tree, and another one behind it. -/
theorem Follows.bind_grows {R : Tree → Tree → Prop} {x : Parsing α} {x' : Parsing α'}
    {f : α → Parsing β} {f' : α' → Parsing β'} {P : α → α' → Prop} {G : α → Session → Prop}
    {Q : β → β' → Prop} (hx : Follows M x x' s s' P) (hGrows : Grows R x s G)
    (hf : ∀ a a' u u', R s.tree u.tree → G a u → P a a' → u.Mirrors M u' →
      Follows M (f a) (f' a') u u' Q) : Follows M (x >>= f) (x' >>= f') s s' Q :=
  hx.bind fun a a' u u' hRun hP hu =>
    hf a a' u u' (hGrows a u hRun).2.1 (hGrows a u hRun).2.2 hP hu

theorem Follows.ite {c : Prop} [Decidable c] {x y : Parsing α} {x' y' : Parsing α'}
    {Q : α → α' → Prop} (hx : c → Follows M x x' s s' Q) (hy : ¬ c → Follows M y y' s s' Q) :
    Follows M (if c then x else y) (if c then x' else y') s s' Q := by
  split
  · exact hx ‹_›
  · exact hy ‹_›

/-- Two branches that go on in one way. -/
theorem Follows.ite_bind {c : Prop} [Decidable c] {x y : Parsing α} {x' y' : Parsing α'}
    {f : α → Parsing β} {f' : α' → Parsing β'} {P : α → α' → Prop} {Q : β → β' → Prop}
    (hx : c → Follows M x x' s s' P) (hy : ¬ c → Follows M y y' s s' P)
    (hf : ∀ a a' u u', (if c then x else y) s = .ok a u → P a a' → u.Mirrors M u' →
      Follows M (f a) (f' a') u u' Q) :
    Follows M (if c then x >>= f else y >>= f) (if c then x' >>= f' else y' >>= f') s s' Q := by
  by_cases hc : c
  · rw [if_pos hc] at hf
    rw [if_pos hc, if_pos hc]
    exact (hx hc).bind hf
  · rw [if_neg hc] at hf
    rw [if_neg hc, if_neg hc]
    exact (hy hc).bind hf

/-! ## Faults -/

/-- What fails is followed by everything. -/
theorem follows_throw (f : Fault) (x' : Parsing α') {Q : α → α' → Prop} :
    Follows M (throwThe Fault f : Parsing α) x' s s' Q := by
  intro a u hRun
  cases hRun

theorem follows_fail (cause : Cause) (x' : Parsing α') {Q : α → α' → Prop} :
    Follows M (fail cause : Parsing α) x' s s' Q := follows_throw _ x'

theorem follows_failAt (cause : Cause) (p : Position) (x' : Parsing α') {Q : α → α' → Prop} :
    Follows M (failAt cause p : Parsing α) x' s s' Q := follows_throw _ x'

theorem follows_failAtToken (cause : Cause) (t : Token) (x' : Parsing α') {Q : α → α' → Prop} :
    Follows M (failAtToken cause t : Parsing α) x' s s' Q := follows_throw _ x'

theorem follows_fail_bind (cause : Cause) {f : α → Parsing β} (x' : Parsing α')
    {Q : β → α' → Prop} : Follows M (fail cause >>= f) x' s s' Q := by
  intro b u hRun
  obtain ⟨a, v, ha, -⟩ := bind_eq_ok.mp hRun
  cases ha

theorem follows_failAt_bind (cause : Cause) (p : Position) {f : α → Parsing β} (x' : Parsing α')
    {Q : β → α' → Prop} : Follows M (failAt cause p >>= f) x' s s' Q := by
  intro b u hRun
  obtain ⟨a, v, ha, -⟩ := bind_eq_ok.mp hRun
  cases ha

theorem follows_failAtToken_bind (cause : Cause) (t : Token) {f : α → Parsing β} (x' : Parsing α')
    {Q : β → α' → Prop} : Follows M (failAtToken cause t >>= f) x' s s' Q :=
  follows_failAt_bind cause t.position x'

theorem follows_orAt {p p' : Position} {x : Parsing α} {x' : Parsing α'} {Q : α → α' → Prop}
    (h : Follows M x x' s s' Q) : Follows M (orAt p x) (orAt p' x') s s' Q := by
  intro a u hRun
  obtain ⟨a', u', hRun', hQ⟩ := h a u (orAt_eq_ok.mp hRun)
  exact ⟨a', u', orAt_eq_ok.mpr hRun', hQ⟩

/-! ## Reading the state -/

theorem Follows.get {f : Session → Parsing β} {f' : Session → Parsing β'} {Q : β → β' → Prop}
    (h : Follows M (f s) (f' s') s s' Q) : Follows M (get >>= f) (get >>= f') s s' Q := h

theorem Follows.tree {f : Tree → Parsing β} {f' : Tree → Parsing β'} {Q : β → β' → Prop}
    (h : Follows M (f s.tree) (f' s'.tree) s s' Q) :
    Follows M (tree >>= f) (tree >>= f') s s' Q := h

theorem Follows.entity {f : Entity → Parsing β} {f' : Entity → Parsing β'} {id id' : EntityId}
    {Q : β → β' → Prop} (h : Follows M (f (s.tree.get id)) (f' (s'.tree.get id')) s s' Q) :
    Follows M (entity id >>= f) (entity id' >>= f') s s' Q := h

/-- The outcome of a part that has no state. -/
theorem follows_orFail (h : s.Mirrors M s') (x : Except Cause α) :
    Follows M (orFail x) (orFail x) s s' Eq := by
  cases x with
  | ok a => exact Follows.pure h rfl
  | error cause => exact follows_fail cause _

theorem follows_orThrow (h : s.Mirrors M s') (x : Except Fault α) {x' : Except Fault α}
    (hx : ∀ a, x = .ok a → x' = .ok a) :
    Follows M (Expression.orThrow x : Parsing α) (Expression.orThrow x') s s' Eq := by
  cases x with
  | ok a =>
    rw [hx a rfl]
    exact Follows.pure h rfl
  | error f => exact follows_throw f _

theorem follows_orFailAt (h : s.Mirrors M s') (p p' : Position) (x : Except Cause α) :
    Follows M (Expression.orFailAt p x : Parsing α) (Expression.orFailAt p' x) s s' Eq := by
  cases x with
  | ok a => exact Follows.pure h rfl
  | error cause => exact follows_failAt cause p _

/-! ## Changing the tree -/

/-- A change of mirrored trees. -/
theorem follows_modifyTree (h : s.Mirrors M s') {f f' : Tree → Tree} (hSteps : Steps s.tree (f s.tree))
    (hNew : ∀ i, s.tree.size ≤ i → i < (f s.tree).size → (f s.tree).Entry i)
    (hf : (f s.tree).Mirrors M (f' s'.tree)) :
    Follows M (modifyTree f) (modifyTree f') s s' fun _ _ => True := by
  intro _ u hRun
  cases hRun
  exact ⟨_, _, rfl, trivial, h.withTree (h.sound.steps hSteps hNew) hf⟩

theorem follows_modifyEntity (h : s.Mirrors M s') {id : EntityId} {f f' : Entity → Entity}
    (hStep : Step s.tree (s.tree.modify id f))
    (hf : (s.tree.get id).Mirrors M id (s'.tree.get (M.entity id)) →
      (f (s.tree.get id)).Mirrors M id (f' (s'.tree.get (M.entity id)))) :
    Follows M (modifyEntity id f) (modifyEntity (M.entity id) f') s s' fun _ _ => True :=
  follows_modifyTree h (.single hStep) (entry_of_size (size_modify _ _ _)) (h.tree.modify id hf)

/-- A note on mirrored entities. -/
theorem follows_annotate (h : s.Mirrors M s') {id : EntityId} {f f' : Entity → Entity}
    (hAnnotates : ∀ e, Entity.Annotates e (f e))
    (hf : (s.tree.get id).Mirrors M id (s'.tree.get (M.entity id)) →
      (f (s.tree.get id)).Mirrors M id (f' (s'.tree.get (M.entity id)))) :
    Follows M (modifyEntity id f) (modifyEntity (M.entity id) f') s s' fun _ _ => True :=
  follows_modifyEntity h (.annotate hAnnotates) hf

/-- What mirrored declarations get behind their names. -/
theorem follows_complete (h : s.Mirrors M s') {id : EntityId} {f f' : Declaration → Declaration}
    (hf : ∀ d, Declaration.Completes d (f d))
    (hExceptions : ∀ d, ∀ x ∈ (f d).exceptions, x ∈ d.exceptions ∨ s.tree.IsException x)
    (hParameters : ∀ d, ∀ x ∈ (f d).parameters, x ∈ d.parameters ∨ x < s.tree.size)
    (hMirrors : ∀ d d', d.Mirrors M d' → (f d).Mirrors M (f' d')) :
    Follows M (modifyDeclaration id f) (modifyDeclaration (M.entity id) f') s s'
      fun _ _ => True :=
  follows_modifyEntity h (.complete hf hExceptions hParameters) fun hEntity =>
    hEntity.mapDeclaration hMirrors

/-- A change of what mirrored sessions have besides their trees. -/
theorem follows_modify (h : s.Mirrors M s') {f f' : Session → Session} (hSound : (f s).Sound)
    (hTree : (f s).tree = s.tree) (hTree' : (f' s').tree = s'.tree)
    (hEnv : (f s).env = s.env) (hEnv' : (f' s').env = s'.env) (hAlike : (f s).Alike M (f' s')) :
    Follows M (modify f : Parsing PUnit) (modify f' : Parsing PUnit) s s' fun _ _ => True := by
  intro _ u hRun
  cases hRun
  refine ⟨_, _, rfl, trivial, hSound, ?_, ?_, fun _ => hAlike⟩
  · rw [hTree, hTree']
    exact h.tree
  · rw [hEnv, hEnv']
    exact h.env

/-! ## Tokens -/

/-- The same places among tokens that mirror each other. -/
theorem mirrors_of_standsAt (hLoose : ¬ M.exact) {ts ts' : List Token} (h : M.Tokens ts ts') {i : Nat}
    {t t' : Token} (ht : t.StandsAt ts i) (ht' : t'.StandsAt ts' i) : t.Mirrors M t' := by
  have hLength := h.length_eq
  rcases ht with hGet | ⟨hNone, hKind, hText⟩
  · rcases ht' with hGet' | ⟨hNone', -⟩
    · obtain ⟨hLt, rfl⟩ := List.getElem?_eq_some_iff.mp hGet
      obtain ⟨hLt', rfl⟩ := List.getElem?_eq_some_iff.mp hGet'
      exact h.get hLt hLt'
    · rw [List.getElem?_eq_none_iff, ← hLength, ← List.getElem?_eq_none_iff, hGet] at hNone'
      cases hNone'
  · rcases ht' with hGet' | ⟨-, hKind', hText'⟩
    · rw [List.getElem?_eq_none_iff, hLength, ← List.getElem?_eq_none_iff, hGet'] at hNone
      cases hNone
    · exact ⟨hKind'.trans hKind.symm, hText'.trans hText.symm, fun hExact => absurd hExact hLoose⟩

/-- Actions that read mirrored tokens, where there is nothing else to come. -/
theorem follows_bare (hLoose : ¬ M.exact) (h : s.Mirrors M s') (hGenerated : s'.generated = s.generated)
    {x : Parsing α} {x' : Parsing α'} {us us' : List Token} (hTokens : M.Tokens us us')
    {L : α → Prop} (hGrows : Grows Steps x s fun a _ => L a) {A : α → Prop} {A' : α' → Prop}
    (hx : Ends x s (fun a u => A a ∧ u.Bare us ∧ s.Beside u) fun _ => False)
    (hx' : Ends x' s' (fun a u => A' a ∧ u.Bare us' ∧ s'.Beside u) fun _ => False)
    {Q : α → α' → Prop} (hQ : ∀ a a', L a → A a → A' a' → Q a a') : Follows M x x' s s' Q := by
  intro a u hRun
  obtain ⟨hSound, -, hL⟩ := hGrows a u hRun
  unfold Ends at hx hx'
  rw [hRun] at hx
  obtain ⟨hA, hBare, hBeside⟩ := hx
  cases hRun' : x' s' with
  | error f u' =>
    rw [hRun'] at hx'
    exact hx'.elim
  | ok a' u' =>
    rw [hRun'] at hx'
    obtain ⟨hA', hBare', hBeside'⟩ := hx'
    refine ⟨a', u', rfl, hQ a a' hL hA hA', hSound, ?_, ?_, fun _ => .loose hLoose ?_ hBare hBare' hTokens⟩
    · rw [hBeside.tree, hBeside'.tree]
      exact h.tree
    · rw [hBeside.env, hBeside'.env]
      exact h.env
    · rw [hBeside.generated, hBeside'.generated]
      exact hGenerated

theorem follows_fetch (h : s.Mirrors M s') (hExact : M.exact) (hSame : s.Coincides s') :
    Follows M fetch fetch s s' (Token.Meets M) := by
  intro t u hRun
  obtain ⟨hSound, -, hLexical⟩ := grows_fetch (R := Steps) h.sound t u hRun
  rcases fetch_eq_ok hRun with ⟨d, ds, hDeliveries, rfl, rfl⟩ | ⟨g, hNone, hEnding, rfl, rfl⟩
  · have hDeliveries' := hSame.deliveries.trans hDeliveries
    exact ⟨_, _, fetch_delivery hDeliveries', .refl hLexical, hSound, h.tree.addRecords _, h.env,
      fun _ => .exact hExact { hSame with comments := rfl, deliveries := rfl, last := rfl }⟩
  · have hNone' := hSame.deliveries.trans hNone
    have hEnding' := hSame.ending.trans hEnding
    have hEnd : endToken s'.last = endToken s.last := by rw [hSame.last]
    refine ⟨_, _, fetch_ending hNone' hEnding', ?_, hSound, h.tree.addRecords _, h.env,
      fun _ => .exact hExact { hSame with comments := rfl, ending := rfl }⟩
    rw [hEnd]
    exact .refl hLexical

section Tokens

variable [M.Reading]

theorem follows_next (h : s.Mirrors M s') : Follows M next next s s' (Token.Meets M) := by
  cases h.alike with
  | loose hLoose hGenerated hBare hBare' hTokens =>
    refine follows_bare hLoose h hGenerated (List.forall₂_drop 1 hTokens) (grows_next h.sound) hBare.ends_next
      hBare'.ends_next fun t t' hLexical ht ht' => ?_
    exact ⟨mirrors_of_standsAt hLoose hTokens ht ht', hLexical⟩
  | exact hExact hSame =>
    cases hCache : s.cache with
    | cons t ts =>
      intro u v hRun
      have hTokens := h.sound.cache
      rw [hCache] at hTokens
      obtain ⟨ht, hRest⟩ := lexical_cons.mp hTokens
      rw [next_cached hCache] at hRun
      cases hRun
      exact ⟨_, _, next_cached (hSame.cache.trans hCache), .refl ht,
        ⟨h.sound.reachable, h.sound.entries, hRest, h.sound.stream⟩, h.tree, h.env,
        fun _ => .exact hExact { hSame with cache := rfl }⟩
    | nil =>
      intro u v hRun
      rw [next_of_nil hCache] at hRun
      rw [next_of_nil (hSame.cache.trans hCache)]
      exact follows_fetch h hExact hSame u v hRun

theorem follows_fill (n : Nat) (hExact : M.exact) (h : s.Mirrors M s') :
    Follows M (fill n) (fill n) s s' (Option.Rel (Token.Meets M)) := by
  induction n generalizing s s' with
  | zero => exact Follows.pure h .none
  | succ n ih =>
    unfold fill
    refine (follows_fetch h hExact (h.alike.coincides hExact)).bind ?_
    intro t t' u u' hRun ht hu
    have hSame := hu.alike.coincides hExact
    rw [ht.isFinish]
    refine Follows.ite (fun _ => Follows.pure hu (.some ht)) fun _ => ?_
    refine (follows_modify hu ?_ rfl rfl rfl rfl (.exact hExact ?_)).bind fun _ _ v v' _ _ hv => ih hv
    · exact ⟨hu.sound.reachable, hu.sound.entries,
        lexical_append.mpr ⟨hu.sound.cache, lexical_cons.mpr ⟨ht.lexical, lexical_nil⟩⟩,
        hu.sound.stream⟩
    · exact { hSame with cache := by rw [hSame.cache, ht.exact hExact] }

theorem follows_peek (i : Nat) (h : s.Mirrors M s') :
    Follows M (peek i) (peek i) s s' (Token.Meets M) := by
  cases h.alike with
  | loose hLoose hGenerated hBare hBare' hTokens =>
    refine follows_bare hLoose h hGenerated hTokens (grows_peek i h.sound) (hBare.ends_peek i)
      (hBare'.ends_peek i) fun t t' hLexical ht ht' => ?_
    exact ⟨mirrors_of_standsAt hLoose hTokens ht ht', hLexical⟩
  | exact hExact hSame =>
    unfold peek
    refine Follows.get ?_
    rw [hSame.cache]
    refine (follows_fill _ hExact h).bind ?_
    intro t? t?' u u' hRun ht hu
    cases ht with
    | some ht => exact Follows.pure hu ht
    | none =>
      have hSame := hu.alike.coincides hExact
      refine Follows.get ?_
      rw [hSame.cache, hSame.last]
      refine Follows.pure hu (.refl ?_)
      cases hGet : u.cache[i]? with
      | none => exact lexical_endToken _
      | some t => exact hu.sound.cache t (List.mem_of_getElem? hGet)

theorem follows_putBack (h : s.Mirrors M s') {t t' : Token} (ht : t.Meets M t') :
    Follows M (putBack t) (putBack t') s s' fun _ _ => True := by
  cases h.alike with
  | @loose hLoose hGenerated ts ts' hBare hBare' hTokens =>
    have hNext : M.Tokens (if t.isFinish then ts else t :: ts)
        (if t'.isFinish then ts' else t' :: ts') := by
      rw [ht.isFinish]
      split
      · exact hTokens
      · exact .cons ht.toMirrors hTokens
    exact follows_bare hLoose h hGenerated hNext (grows_putBack h.sound ht.lexical)
      ((hBare.ends_putBack t).mono fun _ _ hEnd => ⟨trivial, hEnd⟩)
      ((hBare'.ends_putBack t').mono fun _ _ hEnd => ⟨trivial, hEnd⟩) fun _ _ _ _ _ => trivial
  | exact hExact hSame =>
    rw [ht.exact hExact]
    unfold putBack
    refine Follows.ite (fun _ => Follows.pure h trivial) fun _ => ?_
    refine follows_modify h ?_ rfl rfl rfl rfl (.exact hExact ?_)
    · exact ⟨h.sound.reachable, h.sound.entries, lexical_cons.mpr ⟨ht.lexical, h.sound.cache⟩,
        h.sound.stream⟩
    · exact { hSame with cache := by rw [hSame.cache] }

/-- As many tokens are to come in mirrored sessions. -/
theorem Follows.tokensLeft {f : Nat → Parsing β} {f' : Nat → Parsing β'} {Q : β → β' → Prop}
    (h : s.Mirrors M s') (hf : ∀ n, Follows M (f n) (f' n) s s' Q) :
    Follows M (tokensLeft >>= f) (tokensLeft >>= f') s s' Q := by
  have hCount : s'.stream.deliveries.length + s'.cache.length + 2 =
      s.stream.deliveries.length + s.cache.length + 2 := by
    cases h.alike with
    | loose _ _ hBare hBare' hTokens =>
      rw [hBare.tokensLeft_eq, hBare'.tokensLeft_eq, hTokens.length_eq]
    | exact _ hSame => rw [hSame.deliveries, hSame.cache]
  change Follows M (f (s.stream.deliveries.length + s.cache.length + 2))
    (f' (s'.stream.deliveries.length + s'.cache.length + 2)) s s' Q
  rw [hCount]
  exact hf _

theorem follows_generateName (h : s.Mirrors M s') (stem : String) :
    Follows M (generateName stem) (generateName stem) s s' Eq := by
  unfold generateName
  refine Follows.get ?_
  rw [h.alike.generated]
  refine Follows.bind (P := fun _ _ => True) ?_ fun _ _ _ _ _ _ hu => Follows.pure hu rfl
  refine follows_modify h ?_ rfl rfl rfl rfl ?_
  · exact ⟨h.sound.reachable, h.sound.entries, h.sound.cache, h.sound.stream⟩
  · cases h.alike with
    | loose hLoose _ hBare hBare' hTokens =>
      exact .loose hLoose rfl { hBare with } { hBare' with } hTokens
    | exact hExact hSame => exact .exact hExact { hSame with generated := rfl }

/-! ## Comments -/

theorem follows_commentsAhead (h : s.Mirrors M s') :
    Follows M commentsAhead commentsAhead s s' fun c c' => M.exact → c' = c := by
  cases h.alike with
  | loose hLoose hGenerated hBare hBare' hTokens =>
    have hGrows : Grows Steps commentsAhead s fun _ _ => True :=
      (keeps_commentsAhead.grows h.sound).mono fun _ _ _ _ _ => trivial
    exact follows_bare hLoose h hGenerated hTokens hGrows
      (hBare.ends_commentsAhead.mono fun _ _ hEnd => ⟨trivial, hEnd⟩)
      (hBare'.ends_commentsAhead.mono fun _ _ hEnd => ⟨trivial, hEnd⟩)
      fun _ _ _ _ _ hExact => absurd hExact hLoose
  | exact hExact hSame =>
    have hComments : ∀ {u u' : Session}, u.Mirrors M u' → Follows M
        (do let s ← get; return s.comments) (do let s ← get; return s.comments) u u'
        fun (c c' : List Token) => M.exact → c' = c :=
      fun hu => Follows.get (Follows.pure hu fun hExact => (hu.alike.coincides hExact).comments)
    unfold commentsAhead
    refine Follows.get ?_
    rw [hSame.comments]
    dsimp only
    refine Follows.ite (fun _ => ?_) fun _ => hComments h
    exact (follows_peek 0 h).bind fun _ _ _ _ _ _ hu => hComments hu

theorem follows_skipAdjacentComments (h : s.Mirrors M s') :
    Follows M skipAdjacentComments skipAdjacentComments s s' fun _ _ => True := by
  unfold skipAdjacentComments
  refine (follows_peek 0 h).bind ?_
  intro _ _ u u' _ _ hu
  refine follows_modify hu ?_ rfl rfl rfl rfl ?_
  · exact ⟨hu.sound.reachable, hu.sound.entries, hu.sound.cache, hu.sound.stream⟩
  · cases hu.alike with
    | loose hLoose hGenerated hBare hBare' hTokens =>
      exact .loose hLoose hGenerated { hBare with } { hBare' with } hTokens
    | exact hExact hSame => exact .exact hExact { hSame with comments := by rw [hSame.comments] }

theorem follows_commentsBefore (h : s.Mirrors M s') :
    Follows M commentsBefore commentsBefore s s' fun c c' => M.exact → c' = c := by
  unfold commentsBefore
  refine (follows_peek 0 h).bind ?_
  intro t t' u u' _ ht hu
  refine (follows_commentsAhead hu).bind ?_
  intro c c' v v' _ hc hv
  refine Follows.pure hv fun hExact => ?_
  rw [ht.exact hExact, hc hExact]

omit [M.Reading] in
theorem follows_attachBefore (h : s.Mirrors M s') (id : EntityId) {comments comments' : List Token}
    (hComments : M.exact → comments' = comments) :
    Follows M (attachBefore id comments) (attachBefore (M.entity id) comments') s s'
      fun _ _ => True :=
  follows_annotate h (Entity.annotates_attach comments) fun hEntity => hEntity.attach hComments

theorem follows_attachAfter (h : s.Mirrors M s') (id : EntityId) {line line' : Nat}
    (hLine : M.exact → line' = line) :
    Follows M (attachAfter id line) (attachAfter (M.entity id) line') s s' fun _ _ => True := by
  cases h.alike with
  | loose hLoose hGenerated hBare hBare' hTokens =>
    intro _ u hRun
    obtain ⟨hSound, -⟩ := keeps_attachAfter id line s h.sound _ u hRun
    have hEnd := hBare.ends_attachAfter (E := fun _ => False) id line
    have hEnd' := hBare'.ends_attachAfter (E := fun _ => False) (M.entity id) line'
    unfold Ends at hEnd hEnd'
    rw [hRun] at hEnd
    obtain ⟨hBareU, hEnv, hNames, comments, flags, hTree⟩ := hEnd
    cases hRun' : attachAfter (M.entity id) line' s' with
    | error f u' =>
      rw [hRun'] at hEnd'
      exact hEnd'.elim
    | ok a' u' =>
      rw [hRun'] at hEnd'
      obtain ⟨hBareU', hEnv', hNames', comments', flags', hTree'⟩ := hEnd'
      refine ⟨a', u', rfl, trivial, hSound, ?_, ?_, fun _ => .loose hLoose ?_ hBareU hBareU' hTokens⟩
      · rw [hTree, hTree']
        exact h.tree.modify id fun hEntity => hEntity.annotate fun hExact => absurd hExact hLoose
      · rw [hEnv, hEnv', h.env]
      · rw [hNames, hNames', hGenerated]
  | exact hExact hSame =>
    unfold attachAfter
    refine Follows.entity ?_
    rw [(h.tree.entity id).source hExact, hLine hExact]
    refine (follows_commentsAhead h).bind ?_
    intro c c' u u' _ hc hu
    rw [hc hExact]
    dsimp only
    refine Follows.ite (fun _ => Follows.pure hu trivial) fun _ => ?_
    refine (follows_annotate hu ?_ fun hEntity => ?_).bind
      fun _ _ _ _ _ _ hv => follows_skipAdjacentComments hv
    · intro e
      unfold Entity.attach Entity.Annotates
      dsimp only
      split <;> rfl
    · have hAttached := hEntity.attach
        fun _ => Eq.refl (succeedingComments (s.tree.get id).source line c)
      exact { hAttached with commentFlags := fun _ => by rw [hAttached.commentFlags hExact] }

omit [M.Reading] in
theorem follows_endAt (h : s.Mirrors M s') (id : EntityId) {t t' : Token} (ht : t.Meets M t') :
    Follows M (endAt id t) (endAt (M.entity id) t') s s' fun _ _ => True :=
  follows_annotate h (fun _ => rfl) fun hEntity =>
    { hEntity with last := fun hExact => ht.exact hExact ▸ M.ends_refl _ _ }

end Tokens

/-! ## Entities -/

theorem follows_addEntity (h : s.Mirrors M s') {parent : EntityId} {kind : EntityKind}
    {source source' : SourceId} {span span' : Span} {data data' : EntityData}
    (hSound : ∀ id u, addEntity parent kind source span data s = .ok id u → u.Sound)
    (hData : data.Mirrors M data') (hSource : M.exact → source' = source)
    (hSpan : M.exact → span' = span) :
    Follows M (addEntity parent kind source span data)
      (addEntity (M.entity parent) kind source' span' data') s s'
      fun id id' => id' = M.entity id := by
  intro id u hRun
  have hSound := hSound id u hRun
  obtain ⟨hAdd, hu⟩ := addEntity_eq_ok.mp hRun
  obtain ⟨t', hAdd', hTree⟩ := h.tree.add hAdd hData hSource hSpan
  refine ⟨M.entity id, { s' with tree := t' }, addEntity_eq_ok.mpr ⟨hAdd', rfl⟩, rfl, ?_⟩
  rw [hu] at hSound ⊢
  exact h.withTree hSound hTree

theorem follows_nameEntity (h : s.Mirrors M s') {id : EntityId} {name : String}
    {forward listed : Bool}
    (hSound : ∀ found u, nameEntity id name forward listed s = .ok found u → u.Sound) :
    Follows M (nameEntity id name forward listed) (nameEntity (M.entity id) name forward listed)
      s s' fun found found' => found' = M.entity found := by
  intro found u hRun
  have hSound := hSound found u hRun
  obtain ⟨hSet, hu⟩ := nameEntity_eq_ok.mp hRun
  obtain ⟨t', hSet', hTree⟩ := h.tree.setName h.sound.reachable hSet
  refine ⟨M.entity found, { s' with tree := t' }, nameEntity_eq_ok.mpr ⟨hSet', rfl⟩, rfl, ?_⟩
  rw [hu] at hSound ⊢
  exact h.withTree hSound hTree

end Parsing

end IdlReader
