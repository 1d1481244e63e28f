import IdlReader.Proofs.Fork.Content

/-!
# The way to a place

A place stands between two statements of some definition. Readers come to it behind statements, and
within definitions that statements open. Two readers that meet the same up to there go the same way.
At the place one of them reads a definition that is declared by its name only. If the name is known,
the other one stands for it from there on, and what it stands in goes on with what stands for the
same.

* `Session.Forks.meets`: what both readers meet at the place.
* `Known.exists_readStatement`: the statement that one of them reads.
* `Comes`: the way.
* `Comes.leads`: what is known at the place.
* `Comes.repeated`: the content that leads to the place, for both readers.
-/

namespace IdlReader

open IdlReader.Tree

/-- What an entity stands for may end where the mirror says. -/
theorem Tree.Mirrors.ended {M : Mirror} {t t' : Tree} (h : t.Mirrors M t') (id : EntityId)
    {q : Position} (hEnds : ∀ p, M.ends id p q) :
    t.Mirrors M (t'.modify (M.entity id) fun e => { e with span := ⟨e.span.first, q⟩ }) := by
  have hModify : (t.modify id fun e => e).Mirrors M
      (t'.modify (M.entity id) fun e => { e with span := ⟨e.span.first, q⟩ }) :=
    h.modify id fun hEntity => { hEntity with last := fun _ => hEnds _ }
  rwa [Tree.modify_self] at hModify

section Place

variable {F : Fork} {s s' u v v' : Session} {owner o m : EntityId} {t : Token} {n n' : Nat}

/-! ## The place -/

/-- Whether readers have come to the place and have looked at the next token. -/
structure Session.Meets (F : Fork) (s s' : Session) : Prop where
  tree : s'.tree = s.tree
  env : s'.env = s.env
  generated : s'.generated = s.generated
  cache : s.cache = F.next.toList
  cache' : s'.cache = [F.declared.keyword]
  comments : s.comments = []
  comments' : s'.comments = []
  last : ∀ t ∈ F.next, s.last = some t
  deliveries : s.stream.deliveries = F.rest
  deliveries' : s'.stream.deliveries = F.behind
  ending : s.stream.ending = F.ending
  ending' : s'.stream.ending = F.ending

/-- Whether nothing is to come. -/
structure Session.Over (s : Session) : Prop where
  cache : s.cache = []
  deliveries : s.stream.deliveries = []
  ending : s.stream.ending = .ok {}
  comments : s.comments = []

namespace Parsing

theorem peek_over (h : s.Over) : peek 0 s = .ok (endToken s.last) s := by
  have hPeek := peek_ending h.cache h.deliveries h.ending
  have hSame : s = { s with
      comments := [], tree := s.tree.addRecords []
      stream := { s.stream with ending := .ok {} } } := by
    obtain ⟨env, tree, ⟨deliveries, ending, sources⟩, cache, comments, generated, last⟩ := s
    obtain ⟨hCache, hDeliveries, hEnding, hComments⟩ := h
    dsimp only at hCache hDeliveries hEnding hComments
    rw [hEnding, hComments]
    rfl
  rw [hPeek]
  exact congrArg _ hSame.symm

theorem next_over (h : s.Over) (hRun : next s = .ok t u) : t.isFinish = true := by
  rw [next_of_nil h.cache, fetch_ending h.deliveries h.ending] at hRun
  cases hRun
  exact isFinish_endToken _

end Parsing

namespace Session

open Parsing

theorem Meets.over (h : s.Meets F s') (hNext : F.next = none) : s.Over := by
  obtain ⟨hRest, hEnding⟩ := F.hOver hNext
  exact ⟨by rw [h.cache, hNext]; rfl, h.deliveries.trans hRest, h.ending.trans hEnding, h.comments⟩

/-- Readers that have come to the place look at the next token, and meet it again. -/
theorem Forks.meets (h : s.Forks F s') (hPlace : s.pending = F.size) (hPeek : peek 0 s = .ok t u) :
    peek 0 u = .ok t u ∧ ∃ u', peek 0 s' = .ok F.declared.keyword u' ∧ u.Meets F u' := by
  have hKeyword := F.declared.keyword_not_isFinish
  unfold Session.pending at hPlace
  cases h.ahead with
  | before ds hCache hComments hLast hDeliveries hDeliveries' hEnding hEnding' =>
    rw [hDeliveries, List.length_append, F.length_deliveries] at hPlace
    obtain rfl : ds = [] := List.length_eq_zero_iff.mp (by omega)
    have hNone : s.cache = [] := List.length_eq_zero_iff.mp (by omega)
    have hTree : s'.tree.addRecords F.gathered.records = s.tree.addRecords F.gathered.records := by
      rw [h.tree]
    have hPeek' := peek_delivery hDeliveries' hKeyword
    rw [hCache, hNone] at hPeek'
    rw [List.nil_append] at hDeliveries
    cases hNext : F.next with
    | some v =>
      rw [Fork.deliveries, hNext] at hDeliveries
      have hSame := peek_delivery hDeliveries (F.unfinished v hNext)
      rw [hNone] at hSame
      cases hSame.symm.trans hPeek
      refine ⟨peek_cached rfl, _, hPeek', hTree, h.env, h.generated, ?_, rfl, F.bare, F.bare, ?_, rfl,
        rfl, ?_, hEnding'⟩
      · rw [hNext]
        rfl
      · rw [hNext]
        rintro _ ⟨⟩
        rfl
      · rw [hEnding, Fork.endingAhead, hNext]
        rfl
    | none =>
      obtain ⟨hRest, hOver⟩ := F.hOver hNext
      rw [Fork.deliveries, hNext, hRest] at hDeliveries
      have hEnd : s.stream.ending = .ok F.gathered := by rw [hEnding, Fork.endingAhead, hNext]; rfl
      cases (peek_ending hNone hDeliveries hEnd).symm.trans hPeek
      refine ⟨peek_over ⟨hNone, hDeliveries, rfl, F.bare⟩, _, hPeek', hTree, h.env, h.generated, ?_, rfl,
        F.bare, F.bare, ?_, ?_, rfl, hOver.symm, hEnding'⟩
      · rw [hNext]
        exact hNone
      · rw [hNext]
        exact fun t ht => absurd ht (Option.not_mem_none t)
      · exact hDeliveries.trans hRest.symm
  | across ts hCache hCache' hComments hComments' hLast hDeliveries hDeliveries' hEnding hEnding' =>
    rw [hCache, hDeliveries, List.length_append, Fork.size] at hPlace
    obtain rfl : ts = [] := List.length_eq_zero_iff.mp (by omega)
    have hMeets : s.Meets F s' := ⟨h.tree, h.env, h.generated, hCache, hCache', hComments, hComments',
      hLast, hDeliveries, hDeliveries', hEnding, hEnding'⟩
    have hSame : u = s := by
      cases hNext : F.next with
      | some v =>
        rw [hNext] at hCache
        cases (peek_cached hCache).symm.trans hPeek
        rfl
      | none =>
        cases (peek_over (hMeets.over hNext)).symm.trans hPeek
        rfl
    rw [hSame] at hPeek ⊢
    exact ⟨hPeek, s', peek_cached hCache', hMeets⟩

end Session

/-! ## The statement -/

namespace WrittenForward

variable {f : WrittenForward}

/-- What stands for what when a known name is declared once more. -/
def mirror (f : WrittenForward) {t : Tree} (h : t.Reachable) (owner m : EntityId) (reading : Prop) :
    Mirror :=
  .inserting h.size_pos t.scopes.size (f.slot owner t.scopes.size) m f.semicolon.position reading

end WrittenForward

/-- Behind the statement everything stands for what it was in front of it, but the first definition
ends at the semicolon. -/
theorem WrittenForward.Known.exists_readStatement (hKnown : F.declared.Known s.tree owner m)
    (hSound : s.Sound) (h : s.Meets F s') (content : EntityId → Parsing Unit) : ∃ u',
    Parsing.readStatement content owner s' = .ok ⟨⟩ u' ∧
      s.Mirrors (F.declared.mirror hSound.reachable owner m F.next.isSome) u' ∧
      (u'.tree.get m).span.last = F.declared.semicolon.position ∧
      (F.next = none → u'.Over) := by
  obtain ⟨t₁, t₂, hAdd, hSet, hCase, hSize, hScopes, hGet⟩ := hKnown.exists_setName hSound.reachable
  have hFirst := hKnown.lt hSound.reachable
  have hWritten : (t₂.get m).anonymous = false := by
    rw [hGet, if_neg (Nat.ne_of_lt hFirst)]
    exact hKnown.written
  have hTree : s.tree.Mirrors (F.declared.mirror hSound.reachable owner m F.next.isSome)
      (t₂.modify m fun e => { e with span := ⟨e.span.first, F.declared.semicolon.position⟩ }) := by
    have hInserted := Mirrors.inserted hSound.reachable m F.declared.semicolon.position F.next.isSome
      hCase hSize hScopes hGet
    have hEnded := hInserted.ended m (q := F.declared.semicolon.position)
      fun _ => Or.inr ⟨rfl, rfl⟩
    change s.tree.Mirrors _ (t₂.modify (shift s.tree.size m) _) at hEnded
    rwa [shift_of_lt hFirst] at hEnded
  have hEnd : ((t₂.modify m fun e => { e with
      span := ⟨e.span.first, F.declared.semicolon.position⟩ }).get m).span.last =
        F.declared.semicolon.position := by
    rw [get_modify_self (hSize ▸ Nat.lt_succ_of_lt hFirst)]
  have hAdmits : (s'.tree.get owner).kind.admits (.definition F.declared.kind) = true := by
    rw [h.tree]
    exact hKnown.admits
  rw [← h.tree] at hAdd hSet
  rcases Option.eq_none_or_eq_some F.next with hNext | ⟨t, hNext⟩
  · obtain ⟨hRest, hOver⟩ := F.hOver hNext
    have hDeliveries : s'.stream.deliveries = [⟨{}, F.declared.name⟩, ⟨{}, F.declared.semicolon⟩] := by
      rw [h.deliveries', Fork.behind, hNext, hRest]
      rfl
    refine ⟨_, Parsing.readStatement_forward content hAdmits h.cache' h.comments' hDeliveries hAdd hSet
      (Parsing.peek_over (s := { s' with
        tree := t₂, comments := [], last := some F.declared.semicolon, cache := []
        stream := { s'.stream with deliveries := [] } }) ⟨rfl, rfl, h.ending'.trans hOver, rfl⟩)
      rfl hWritten, ⟨hSound, hTree, h.env, fun hReading => ?_⟩,
      hEnd, fun _ => ⟨rfl, rfl, h.ending'.trans hOver, rfl⟩⟩
    change F.next.isSome = true at hReading
    rw [hNext] at hReading
    cases hReading
  · have hDeliveries : s'.stream.deliveries = ⟨{}, F.declared.name⟩ :: ⟨{}, F.declared.semicolon⟩ ::
        ⟨{}, t⟩ :: F.rest := by
      rw [h.deliveries', Fork.behind, hNext]
      rfl
    refine ⟨_, Parsing.readStatement_forward content hAdmits h.cache' h.comments' hDeliveries hAdd hSet
      (Parsing.peek_delivery (s := { s' with
        tree := t₂, comments := [], last := some F.declared.semicolon, cache := []
        stream := { s'.stream with deliveries := ⟨{}, t⟩ :: F.rest } }) rfl (F.unfinished t hNext))
      rfl hWritten, ⟨hSound, hTree, h.env, fun _ => .exact trivial ⟨h.generated, ?_, ?_, ?_, ?_, ?_⟩⟩,
      hEnd, fun hNone => ?_⟩
    · rw [h.cache, hNext]
      rfl
    · exact h.deliveries.symm
    · exact h.ending'.trans h.ending.symm
    · exact h.comments.symm
    · exact (h.last t hNext).symm
    · cases hNext.symm.trans hNone

end Place

/-! ## The way -/

namespace Parsing

variable {F : Fork} {s s' u v v' : Session} {owner o id m : EntityId} {t : Token} {n n' k : Nat}
  {st : Statement}

/-- Whether a statement is read in the content of an entity from a session to another one. -/
def Passes (n : Nat) (owner : EntityId) (s u : Session) : Prop :=
  ∃ t s₁, peek 0 s = .ok t s₁ ∧ t.isFinish = false ∧ t.is "\x7d" = false ∧
    readStatement (contentWithin n) owner s₁ = .ok ⟨⟩ u

/-- Whether a definition with content of its own is opened in the content of an entity from a session
to another one, where its content starts. -/
def Enters (owner : EntityId) (st : Statement) (id : EntityId) (s u : Session) : Prop :=
  ∃ t s₁ keyword kind s₂, peek 0 s = .ok t s₁ ∧ t.isFinish = false ∧ t.is "\x7d" = false ∧
    openStatement owner s₁ = .ok (st, keyword, some kind) s₂ ∧ kind ≠ .enum ∧
    st.ownerKind.admits (.definition kind) = true ∧
    openDefinition owner kind keyword st.modifiers.isLocal
      (if st.modifiers.declares then [] else st.comments) s₂ = .ok (id, false) u

/-- Whether the statements of an entity, read with a budget from a session on, lead to the content of
`o` in the session `v`: behind statements, or within a definition that one of them opens. -/
inductive Comes (o : EntityId) (v : Session) : (budget : Nat) → EntityId → Session → Prop where
  | here {n : Nat} : Comes o v (n + 1) o v
  | behind {n : Nat} {owner : EntityId} {s u : Session} (hPasses : Passes n owner s u)
      (h : Comes o v n owner u) : Comes o v (n + 1) owner s
  | within {n : Nat} {owner id : EntityId} {st : Statement} {s u : Session}
      (hEnters : Enters owner st id s u) (h : Comes o v n id u) : Comes o v (n + 1) owner s

/-- Reads the closing brace of a body. -/
def closeBody (id : EntityId) : Parsing Unit := do
  let t ← next
  if !t.is "\x7d" then failAtToken .closeBraceExpected t
  endAt id t

theorem readBody_of_ne {content : EntityId → Parsing Unit} {kind : EntityKind} (h : kind ≠ .enum) :
    readBody content id kind = content id >>= fun _ => closeBody id := by
  unfold readBody
  rw [if_neg h]
  rfl

theorem contentWithin_of_peek (hPeek : peek 0 s = .ok t u) (hFinish : t.isFinish = false)
    (hBrace : t.is "\x7d" = false) : contentWithin (n + 1) owner s =
      (readStatement (contentWithin n) owner >>= fun _ => contentWithin n owner) u := by
  rw [contentWithin, bind_of_ok hPeek, hFinish, hBrace]
  rfl

/-- To look at the next token makes no difference. -/
theorem contentWithin_peeked (hPeek : peek 0 s = .ok t u) (hAgain : peek 0 u = .ok t u) :
    contentWithin (n + 1) owner s = contentWithin (n + 1) owner u := by
  unfold contentWithin
  rw [bind_of_ok hPeek, bind_of_ok hAgain]

theorem Passes.contentWithin (h : Passes n owner s u) :
    contentWithin (n + 1) owner s = contentWithin n owner u := by
  obtain ⟨t, s₁, hPeek, hFinish, hBrace, hStatement⟩ := h
  rw [contentWithin_of_peek hPeek hFinish hBrace, bind_of_ok hStatement]

theorem Enters.contentWithin (h : Enters owner st id s u) (hOwner : st.owner = owner) :
    contentWithin (n + 1) owner s = (contentWithin n id >>= fun _ => closeBody id >>= fun _ =>
      st.readBehind id >>= fun _ => contentWithin n owner) u := by
  obtain ⟨t, s₁, keyword, kind, s₂, hPeek, hFinish, hBrace, hStatement, hKind, hAdmits, hOpen⟩ := h
  subst hOwner
  rw [contentWithin_of_peek hPeek hFinish hBrace, readStatement_eq, bind_assoc, bind_of_ok hStatement]
  unfold Statement.readRest
  dsimp only
  rw [hAdmits, readDefinition_eq, if_neg (by decide), bind_assoc, bind_assoc, bind_of_ok hOpen]
  dsimp only
  rw [if_neg (by decide), readBody_of_ne hKind]
  simp only [bind_assoc, pure_bind]

/-! ## What the way leads through -/

theorem grows_content (n : Nat) : ∀ (s : Session) (owner : EntityId), s.Sound →
    s.tree.Owner owner → (s.tree.get owner).kind ≠ .enum →
    Grows Steps (contentWithin n owner) s fun _ s' => Concludes owner s.tree s'.tree :=
  fun _ _ hs hOwner hKind => grows_contentWithin n hs ⟨hOwner, hKind⟩

theorem Passes.steps (h : Passes n owner s u) (hs : s.Sound) (hBody : Body s.tree owner) :
    u.Sound ∧ Continues owner s.tree u.tree := by
  obtain ⟨t, s₁, hPeek, -, -, hStatement⟩ := h
  obtain ⟨hs₁, hR, -⟩ := (keeps_peek 0).grows (R := Grown owner) hs t s₁ hPeek
  have hBody₁ := hBody.continues hR.continues
  obtain ⟨hu, hContinues, -⟩ := grows_readStatement (grows_content n) hs₁ hBody₁ ⟨⟩ u hStatement
  exact ⟨hu, Course.trans hR.continues hContinues⟩

/-- Whether a definition was opened in a session for a statement, so that its content is to be read. -/
structure Opening (st : Statement) (owner id : EntityId) (s u : Session) : Prop where
  place : st.owner = owner
  sound : u.Sound
  body : Body u.tree id
  named : u.tree.Named id
  admits : ∃ kind, st.ownerKind.admits (.definition kind) = true
  opened : ∃ t kind, Grown owner s.tree t ∧ st.Sound t ∧ Opened t u.tree owner id kind

theorem Enters.opening (h : Enters owner st id s u) (hs : s.Sound) (hBody : Body s.tree owner) :
    Opening st owner id s u := by
  obtain ⟨t, s₁, keyword, kind, s₂, hPeek, -, -, hStatement, hKind, hAdmits, hOpen⟩ := h
  obtain ⟨hs₁, hR₁, -⟩ := (keeps_peek 0).grows (R := Grown owner) hs t s₁ hPeek
  obtain ⟨hs₂, hR₂, hOwner, hSound, -, hDefinition⟩ :=
    grows_openStatement hs₁ (hBody.continues hR₁.continues) _ s₂ hStatement
  dsimp only at hOwner hSound hDefinition
  subst hOwner
  have hOwnerKind : (s₂.tree.get st.owner).kind ≠ .enum := hSound.kind ▸ hSound.content
  obtain ⟨hu, -, hNamed, hOpened⟩ := grows_openDefinition hs₂ hSound.owner hOwnerKind
    (hDefinition kind rfl) keyword st.modifiers.isLocal _ _ u hOpen
  have hOpened : Opened s₂.tree u.tree st.owner id kind := hOpened
  exact ⟨rfl, hu, ⟨hOpened.ready, hOpened.kind ▸ hKind⟩, hNamed, ⟨kind, hAdmits⟩, s₂.tree, kind, hR₁.trans hR₂, hSound,
    hOpened⟩

/-- Two readers in front of the place read the same statement. -/
theorem Passes.sees (h : Passes n owner s u) (hs : s.Sound) (hBody : Body s.tree owner)
    (hUnion : (s.tree.get owner).kind ≠ .union) (hn : n ≤ n') :
    u.pending ≤ s.pending ∧ ∀ s', s.Forks F s' → F.size ≤ u.pending →
      ∃ u', Passes n' owner s' u' ∧ u.Forks F u' := by
  obtain ⟨t, s₁, hPeek, hFinish, hBrace, hStatement⟩ := h
  obtain ⟨hs₁, hR, -⟩ := (keeps_peek 0).grows (R := Grown owner) hs t s₁ hPeek
  have hKind : (s₁.tree.get owner).kind ≠ .union := by
    rwa [(hs.extends hR).kind owner hBody.ready.ready.lt]
  obtain ⟨hLess, hSame⟩ := sees_peek (F := F) (k := 0) 0 t s₁ hPeek
  obtain ⟨hLess', hSame'⟩ := sees_readStatement (F := F)
    (fun hs h => sees_contentWithin hn (Nat.zero_le 1) hs h) hs₁ (hBody.continues hR.continues) ⟨⟩ u
    hStatement
  rw [if_neg hKind] at hLess'
  simp only [if_neg hKind] at hSame'
  dsimp only at hLess hLess' hSame
  refine ⟨by omega, fun s' hForks hSize => ?_⟩
  obtain ⟨s₁', hPeek', hForks₁⟩ := hSame s' hForks (by omega)
  obtain ⟨u', hStatement', hForks₂⟩ := hSame' s₁' hForks₁ hSize
  exact ⟨u', ⟨t, s₁', hPeek', hFinish, hBrace, hStatement'⟩, hForks₂⟩

/-- Two readers in front of the place open the same definition. -/
theorem Enters.sees (h : Enters owner st id s u) : u.pending ≤ s.pending ∧
    ∀ s', s.Forks F s' → F.size ≤ u.pending → ∃ u', Enters owner st id s' u' ∧ u.Forks F u' := by
  obtain ⟨t, s₁, keyword, kind, s₂, hPeek, hFinish, hBrace, hStatement, hKind, hAdmits, hOpen⟩ := h
  obtain ⟨hLess, hSame⟩ := sees_peek (F := F) (k := 0) 0 t s₁ hPeek
  obtain ⟨hLess', hSame'⟩ := sees_openStatement (F := F) owner _ s₂ hStatement
  obtain ⟨hLess'', hSame''⟩ := sees_openDefinition (F := F) owner kind keyword _ _ _ u hOpen
  simp only [Option.isSome_some, if_true] at hLess' hSame'
  simp only [Bool.false_eq_true, if_false] at hLess'' hSame''
  dsimp only at hLess hSame
  refine ⟨by omega, fun s' hForks hSize => ?_⟩
  obtain ⟨s₁', hPeek', hForks₁⟩ := hSame s' hForks (by omega)
  obtain ⟨s₂', hStatement', hForks₂⟩ := hSame' s₁' hForks₁ (by omega)
  obtain ⟨u', hOpen', hForks₃⟩ := hSame'' s₂' hForks₂ hSize
  exact ⟨u', ⟨t, s₁', keyword, kind, s₂', hPeek', hFinish, hBrace, hStatement', hKind, hAdmits, hOpen'⟩,
    hForks₃⟩

/-- A union has no definitions in its content. -/
theorem Opening.kind (h : Opening st owner id s u) (hs : s.Sound) (hBody : Body s.tree owner) :
    (s.tree.get owner).kind ≠ .union := by
  obtain ⟨t, -, hGrown, hSound, -⟩ := h.opened
  obtain ⟨kind, hAdmits⟩ := h.admits
  have hKind : st.ownerKind = (s.tree.get owner).kind := by
    rw [← hSound.kind, h.place]
    exact ((Course.steps hGrown).extends hs.reachable.size_pos).kind owner hBody.ready.ready.lt
  intro hUnion
  rw [hKind, hUnion] at hAdmits
  cases hAdmits

theorem Opening.size (h : Opening st owner id s u) (hs : s.Sound) : s.tree.size ≤ u.tree.size := by
  obtain ⟨t, kind, hGrown, -, hOpened⟩ := h.opened
  obtain ⟨t₁, hEntered, hNoted⟩ := hOpened.enters
  have hSteps : Steps s.tree u.tree := (hGrown.steps.trans hEntered.steps).trans (Course.steps hNoted)
  exact (hSteps.extends hs.reachable.size_pos).size

theorem Opening.stage (h : Opening st owner id s u) (os : List EntityId) :
    Stage.Advances ⟨s.tree, owner :: os, false⟩ ⟨u.tree, id :: owner :: os, false⟩ := by
  obtain ⟨t, kind, hGrown, -, hOpened⟩ := h.opened
  obtain ⟨t₁, hEntered, hNoted⟩ := hOpened.enters
  exact (hGrown.continues os).trans
    ((Relation.ReflTransGen.single (.enter hEntered)).trans ((hNoted.grown id).continues _))

/-- The place stands in what is being read, and the session is sound there. -/
theorem Comes.sound_body (h : Comes o v n owner s) (hs : s.Sound) (hBody : Body s.tree owner) :
    v.Sound ∧ Body v.tree o := by
  induction h with
  | here => exact ⟨hs, hBody⟩
  | behind hPasses _ ih =>
    obtain ⟨hu, hContinues⟩ := hPasses.steps hs hBody
    exact ih hu (hBody.continues hContinues)
  | within hEnters _ ih =>
    have hOpening := hEnters.opening hs hBody
    exact ih hOpening.sound hOpening.body

/-- The way to a place leads on. -/
structure Leads (o : EntityId) (v : Session) (owner : EntityId) (s : Session) : Prop where
  kind : (s.tree.get owner).kind ≠ .union
  pending : v.pending ≤ s.pending
  size : s.tree.size ≤ v.tree.size
  sound : v.Sound
  body : Body v.tree o
  stage : ∀ os, ∃ os', Stage.Advances ⟨s.tree, owner :: os, false⟩ ⟨v.tree, o :: os', false⟩

theorem Comes.leads (F : Fork) (h : Comes o v n owner s) (hs : s.Sound) (hBody : Body s.tree owner)
    (hKind : (v.tree.get o).kind ≠ .union) : Leads o v owner s := by
  induction h with
  | here => exact ⟨hKind, Nat.le_refl _, Nat.le_refl _, hs, hBody, fun os => ⟨os, .refl⟩⟩
  | behind hPasses _ ih =>
    obtain ⟨hu, hContinues⟩ := hPasses.steps hs hBody
    have hLeads := ih hu (hBody.continues hContinues)
    have hExtends := hs.extends hContinues
    have hUnion := hExtends.kind _ hBody.ready.ready.lt ▸ hLeads.kind
    have hPending := (hPasses.sees (F := F) hs hBody hUnion (Nat.le_refl _)).1
    refine ⟨hUnion, Nat.le_trans hLeads.pending hPending, Nat.le_trans hExtends.size hLeads.size,
      hLeads.sound, hLeads.body, fun os => ?_⟩
    obtain ⟨os', hStage⟩ := hLeads.stage os
    exact ⟨os', (hContinues os).trans hStage⟩
  | within hEnters _ ih =>
    have hOpening := hEnters.opening hs hBody
    have hLeads := ih hOpening.sound hOpening.body
    refine ⟨hOpening.kind hs hBody, Nat.le_trans hLeads.pending (hEnters.sees (F := F)).1,
      Nat.le_trans (hOpening.size hs) hLeads.size, hLeads.sound, hLeads.body, fun os => ?_⟩
    obtain ⟨os', hStage⟩ := hLeads.stage (_ :: os)
    exact ⟨os', (hOpening.stage os).trans hStage⟩

/-- Whoever reads what leads to a place looks at the next token there. -/
theorem Comes.exists_peek {r : Session} (h : Comes o v n owner s) (hs : s.Sound)
    (hBody : Body s.tree owner) (hRun : contentWithin n owner s = .ok ⟨⟩ r) :
    ∃ t w, peek 0 v = .ok t w := by
  induction h generalizing r with
  | here =>
    obtain ⟨t, w, hPeek, -⟩ := bind_eq_ok.mp hRun
    exact ⟨t, w, hPeek⟩
  | behind hPasses _ ih =>
    obtain ⟨hu, hContinues⟩ := hPasses.steps hs hBody
    rw [hPasses.contentWithin] at hRun
    exact ih hu (hBody.continues hContinues) hRun
  | within hEnters _ ih =>
    have hOpening := hEnters.opening hs hBody
    rw [hEnters.contentWithin hOpening.place] at hRun
    obtain ⟨⟨⟩, x, hContent, -⟩ := bind_eq_ok.mp hRun
    exact ih hOpening.sound hOpening.body hContent

/-! ## Behind the place -/

theorem grows_closeBody (hs : s.Sound) (id : EntityId) :
    Grows Noted (closeBody id) s fun _ _ => True := by
  unfold closeBody
  refine (keeps_next s hs).bind fun t u hu _ _ => ?_
  split
  · exact grows_failAtToken_bind _ _
  · exact keeps_endAt id t u hu

section Behind

variable {M : Mirror} [M.Reading]

theorem follows_closeBody (h : s.Mirrors M s') (id : EntityId) :
    Follows M (closeBody id) (closeBody (M.entity id)) s s' fun _ _ => True := by
  unfold closeBody
  refine (follows_next h).bind fun t t' u u' _ ht hu => ?_
  rw [ht.is]
  exact Follows.ite (fun _ => follows_failAtToken_bind _ _ _) fun _ => follows_endAt hu id ht

/-- In mirrored sessions the same is read behind the content of a definition. -/
theorem Opening.follows (h : Opening st owner id s u) (hBody : Body s.tree owner)
    (hn : n ≤ n') (hOwner : M.entity owner = owner) (hId : M.entity id = id)
    (hContent : contentWithin n id u = .ok ⟨⟩ v) (hv : v.Mirrors M v') :
    Follows M (closeBody id >>= fun _ => st.readBehind id >>= fun _ => contentWithin n owner)
      (closeBody id >>= fun _ => st.readBehind id >>= fun _ => contentWithin n' owner) v v'
      fun _ _ => True := by
  obtain ⟨t, kind, hGrown, hSound, hOpened⟩ := h.opened
  have hPlace := h.place
  subst hPlace
  obtain ⟨-, hSteps, hConcludes⟩ := grows_contentWithin n h.sound h.body ⟨⟩ v hContent
  have hMirrors : st.Mirrors M st := ⟨hOwner.symm, rfl, rfl, fun _ => rfl, fun _ => rfl⟩
  have hClose := follows_closeBody hv id
  rw [hId] at hClose
  refine hClose.bind_grows (grows_closeBody hv.sound id) fun _ _ w w' hNoted _ _ hw => ?_
  have hContinues := hOpened.closes hConcludes hNoted
  have hSound₁ := hSound.steps (Course.steps hContinues) hContinues.calm
  have hNamed : w.tree.Named id :=
    (hv.sound.extends hNoted).named ((h.sound.extends hSteps).named h.named)
  have hRest := Statement.follows_readBehind hw hSound₁ hMirrors hNamed
  rw [hId] at hRest
  refine hRest.bind_grows (Statement.grows_readBehind hw.sound hSound₁ hNamed)
    fun _ _ x x' hGrown' _ _ hx => ?_
  have hFollows := follows_contentWithin hn hx
    (((hBody.continues hGrown.continues).continues hContinues).continues hGrown'.continues)
  rwa [hOwner] at hFollows

end Behind

/-! ## At the end -/

theorem contentWithin_of_over (h : s.Over) :
    contentWithin (n + 1) owner s = evaluateMembers owner s := by
  rw [contentWithin, bind_of_ok (peek_over h), isFinish_endToken]
  rfl

theorem over_of_evaluateMembers (h : s.Over) (hRun : evaluateMembers owner s = .ok ⟨⟩ u) : u.Over := by
  obtain ⟨hSame, -⟩ := settling_evaluateMembers owner s ⟨⟩ u hRun
  rw [hSame]
  exact ⟨h.cache, h.deliveries, h.ending, h.comments⟩

/-- No body is closed at the end. -/
theorem not_run_closeBody (h : s.Over) : closeBody id s ≠ .ok ⟨⟩ u := by
  intro hRun
  obtain ⟨t, v, hNext, hRun⟩ := bind_eq_ok.mp hRun
  have hBrace : t.is "\x7d" = false := by
    refine Bool.eq_false_iff.mpr fun hIs => ?_
    cases (next_over h hNext).symm.trans (Token.not_isFinish_of_is hIs)
  rw [hBrace] at hRun
  cases hRun

/-! ## The whole content -/

/-- The content of the entity at the place. -/
theorem exists_contentWithin_here {w r : Session} (hn : n + 1 < n') (hBody : Body v.tree o)
    (hs : v.Sound) (hForks : v.Forks F s') (hPlace : v.pending = F.size)
    (hPeek : peek 0 v = .ok t w) (hw : w.Sound) (hKnown : F.declared.Known w.tree o m)
    (hRun : contentWithin (n + 1) o v = .ok ⟨⟩ r) :
    ∃ r', contentWithin n' o s' = .ok ⟨⟩ r' ∧
      r.Mirrors (F.declared.mirror hw.reachable o m F.next.isSome) r' ∧
      (F.next = none → r.Over ∧ r'.Over ∧
        (r'.tree.get m).span.last = F.declared.semicolon.position) := by
  obtain ⟨k, rfl⟩ := Nat.exists_eq_add_of_lt hn
  obtain ⟨hAgain, w', hPeek', hMeets⟩ := hForks.meets hPlace hPeek
  obtain ⟨u', hStatement, hMirrors, hEnds, hOver⟩ :=
    hKnown.exists_readStatement hw hMeets (contentWithin (n + 1 + k))
  obtain ⟨-, hGrown, -⟩ := (keeps_peek 0).grows (R := Grown o) hs t w hPeek
  have hPlace : (F.declared.mirror hw.reachable o m F.next.isSome).entity o = o :=
    shift_of_lt hKnown.owner_lt
  have hRun' : contentWithin (n + 1) o w = .ok ⟨⟩ r := by
    rw [← contentWithin_peeked hPeek hAgain]
    exact hRun
  have hSecond : contentWithin (n + 1 + k + 1) o s' = contentWithin (n + 1 + k) o u' := by
    rw [contentWithin_of_peek hPeek' F.declared.keyword_not_isFinish
      (not_is_of_ofKeyword? F.declared.hKeyword (by decide)), bind_of_ok hStatement]
  rw [hSecond]
  rcases Option.eq_none_or_eq_some F.next with hNext | ⟨u, hNext⟩
  · have hOver' := hOver hNext
    have hOver₁ := hMeets.over hNext
    rw [contentWithin_of_over hOver₁] at hRun'
    have hFollows := follows_evaluateMembers hMirrors o
    rw [hPlace] at hFollows
    obtain ⟨⟨⟩, r', hSame, -, hr⟩ := hFollows ⟨⟩ r hRun'
    rw [Nat.add_right_comm, contentWithin_of_over hOver']
    have hSettles := (settling_evaluateMembers o u' ⟨⟩ r' hSame).2
    exact ⟨r', hSame, hr, fun _ => ⟨over_of_evaluateMembers hOver₁ hRun',
      over_of_evaluateMembers hOver' hSame, (congrArg Span.last (span_congr hSettles.outline m)).trans hEnds⟩⟩
  · have : (F.declared.mirror hw.reachable o m F.next.isSome).Reading :=
      ⟨by change F.next.isSome = true; rw [hNext]; rfl⟩
    have hFollows := follows_contentWithin (Nat.le_add_right (n + 1) k) hMirrors
      (hBody.continues hGrown.continues)
    rw [hPlace] at hFollows
    obtain ⟨⟨⟩, r', hSame, -, hr⟩ := hFollows ⟨⟩ r hRun'
    exact ⟨r', hSame, hr, fun hNone => absurd (hNext.symm.trans hNone) (Option.some_ne_none u)⟩

/-- The content that leads to a place. Behind the declaration that one of two readers meets there
everything stands for what it is for the other one, but the first definition ends at the semicolon. -/
theorem Comes.repeated {w r : Session} (h : Comes o v n owner s) (hn : n < n') (hs : s.Sound)
    (hBody : Body s.tree owner) (hForks : s.Forks F s') (hPlace : v.pending = F.size)
    (hPeek : peek 0 v = .ok t w) (hw : w.Sound) (hKnown : F.declared.Known w.tree o m)
    (hUnion : (v.tree.get o).kind ≠ .union) (hSize : v.tree.size ≤ w.tree.size)
    (hRun : contentWithin n owner s = .ok ⟨⟩ r) :
    ∃ r', contentWithin n' owner s' = .ok ⟨⟩ r' ∧
      r.Mirrors (F.declared.mirror hw.reachable o m F.next.isSome) r' ∧
      (F.next = none → r.Over ∧ r'.Over ∧
        (r'.tree.get m).span.last = F.declared.semicolon.position) := by
  induction h generalizing n' s' r with
  | here => exact exists_contentWithin_here hn hBody hs hForks hPlace hPeek hw hKnown hRun
  | @behind n owner s u hPasses h ih =>
    obtain ⟨k, rfl⟩ := Nat.exists_eq_add_of_lt hn
    obtain ⟨hu, hContinues⟩ := hPasses.steps hs hBody
    have hBody' := hBody.continues hContinues
    have hLeads := h.leads F hu hBody' hUnion
    have hKind : (s.tree.get owner).kind ≠ .union :=
      (hs.extends hContinues).kind _ hBody.ready.ready.lt ▸ hLeads.kind
    have hLess : n ≤ n + 1 + k := by omega
    obtain ⟨u', hPasses', hForks'⟩ :=
      (hPasses.sees hs hBody hKind hLess).2 s' hForks (hPlace ▸ hLeads.pending)
    rw [hPasses.contentWithin] at hRun
    rw [hPasses'.contentWithin]
    exact ih (Nat.lt_of_lt_of_le (Nat.lt_succ_self n) (Nat.le_add_right _ _)) hu hBody' hForks' hRun
  | @within n owner id st s u hEnters h ih =>
    obtain ⟨k, rfl⟩ := Nat.exists_eq_add_of_lt hn
    have hOpening := hEnters.opening hs hBody
    have hLeads := h.leads F hOpening.sound hOpening.body hUnion
    obtain ⟨u', hEnters', hForks'⟩ := hEnters.sees.2 s' hForks (hPlace ▸ hLeads.pending)
    rw [hEnters.contentWithin hOpening.place] at hRun
    rw [hEnters'.contentWithin hOpening.place]
    obtain ⟨⟨⟩, x, hContent, hRun⟩ := bind_eq_ok.mp hRun
    have hMore : n < n + 1 + k := by omega
    obtain ⟨x', hContent', hx, hOver⟩ := ih hMore hOpening.sound hOpening.body hForks' hContent
    rw [bind_of_ok hContent']
    rcases Option.eq_none_or_eq_some F.next with hNext | ⟨next, hNext⟩
    · obtain ⟨⟨⟩, y, hClose, -⟩ := bind_eq_ok.mp hRun
      exact absurd hClose (not_run_closeBody (hOver hNext).1)
    · have : (F.declared.mirror hw.reachable o m F.next.isSome).Reading :=
        ⟨by change F.next.isSome = true; rw [hNext]; rfl⟩
      have hSame : ∀ {i}, i < v.tree.size →
          (F.declared.mirror hw.reachable o m F.next.isSome).entity i = i :=
        fun hi => shift_of_lt (Nat.lt_of_lt_of_le hi hSize)
      have hOwner := hSame (Nat.lt_of_lt_of_le hBody.ready.ready.lt
        (Nat.le_trans (hOpening.size hs) hLeads.size))
      have hId := hSame (Nat.lt_of_lt_of_le hOpening.named.1 hLeads.size)
      obtain ⟨⟨⟩, r', hRun', -, hr⟩ :=
        hOpening.follows hBody (Nat.le_of_lt hMore) hOwner hId hContent hx ⟨⟩ r hRun
      exact ⟨r', hRun', hr, fun hNone => absurd (hNext.symm.trans hNone) (Option.some_ne_none next)⟩

end Parsing

end IdlReader
