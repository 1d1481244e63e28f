import IdlReader.Proofs.Grammar.Ending
import IdlReader.Proofs.Grammar.Session

/-!
# Sessions with nothing but tokens to come

In a session where no directive will be recorded and nothing is wrong, tokens and comments are all that
is to come. Actions that read tokens then succeed, and what they give is told by the tokens alone: it
makes no difference how far the session has looked ahead already.

* `Session.Bare`: sessions with nothing but tokens to come.
* `Session.Bare.ends_next`, `Session.Bare.ends_peek`: tokens.
* `Session.Bare.ends_attachAfter`: comments.
-/

namespace IdlReader

/-- Whether a token is the `i`th one of `ts`, behind which the end stands. -/
def Token.StandsAt (ts : List Token) (i : Nat) (t : Token) : Prop :=
  ts[i]? = some t ∨ ts[i]? = none ∧ t.kind = .finish ∧ t.text = ""

/-- Whether the tokens `ts` are to come in a session, and besides them nothing but comments. -/
structure Session.Bare (s : Session) (ts : List Token) : Prop where
  tokens : s.cache ++ s.stream.tokens = ts
  unfinished : ∀ t ∈ ts, t.isFinish = false
  records : ∀ d ∈ s.stream.deliveries, d.gathered.records = []
  ending : ∃ g, s.stream.ending = .ok g ∧ g.records = []

/-- Whether sessions differ at most in comments and in what is to come. -/
structure Session.Beside (s u : Session) : Prop where
  env : u.env = s.env
  generated : u.generated = s.generated
  tree : u.tree = s.tree

theorem Session.Beside.refl (s : Session) : s.Beside s := ⟨rfl, rfl, rfl⟩

theorem Session.Beside.trans {s u v : Session} (h : s.Beside u) (h' : u.Beside v) : s.Beside v :=
  ⟨h'.env.trans h.env, h'.generated.trans h.generated, h'.tree.trans h.tree⟩

/-- A change that changes nothing. -/
theorem Tree.modify_self (t : Tree) (id : EntityId) : t.modify id (fun e => e) = t := by
  have hEntities : t.entities.modify id (fun e => e) = t.entities := by
    refine Array.ext Array.size_modify fun i _ _ => ?_
    rw [Array.getElem_modify]
    split <;> rfl
  rw [Tree.modify, hEntities]

namespace Session.Bare

open Parsing

variable {s : Session} {t : Token} {ts us : List Token} {E : Fault → Prop}

/-! ## Tokens -/

/-- Taking a token off the stream. -/
theorem ends_fetch (h : s.Bare ts) (hTokens : s.stream.tokens = t :: us) :
    Ends fetch s (fun u s' => u = t ∧ s'.Bare (s.cache ++ us) ∧ s.Beside s' ∧ s'.cache = s.cache ∧
      s'.stream.tokens = us) E := by
  cases hDeliveries : s.stream.deliveries with
  | nil =>
    rw [Stream.tokens, hDeliveries] at hTokens
    cases hTokens
  | cons d ds =>
    rw [Stream.tokens, hDeliveries, List.map_cons] at hTokens
    obtain ⟨hToken, hRest⟩ := List.cons.inj hTokens
    have hRecords := h.records
    rw [hDeliveries, List.forall_mem_cons] at hRecords
    unfold Ends
    rw [fetch_delivery hDeliveries, hRecords.1]
    refine ⟨hToken, ⟨congrArg (s.cache ++ ·) hRest, fun u hu => h.unfinished u ?_, hRecords.2,
      h.ending⟩, ⟨rfl, rfl, rfl⟩, rfl, hRest⟩
    rw [← h.tokens, Stream.tokens, hDeliveries, List.map_cons, hRest]
    rcases List.mem_append.mp hu with hCache | hStream
    · exact List.mem_append_left _ hCache
    · exact List.mem_append_right _ (List.mem_cons_of_mem _ hStream)

/-- Behind the last token stands the end. -/
theorem ends_fetch_finish (h : s.Bare ts) (hTokens : s.stream.tokens = []) :
    Ends fetch s (fun u s' => (u.kind = .finish ∧ u.text = "") ∧ s'.Bare ts ∧ s.Beside s' ∧
      s'.cache = s.cache ∧ s'.stream.tokens = []) E := by
  have hDeliveries : s.stream.deliveries = [] := List.map_eq_nil_iff.mp hTokens
  obtain ⟨g, hEnding, hRecords⟩ := h.ending
  have hEnd : (endToken s.last).kind = .finish ∧ (endToken s.last).text = "" := by
    cases s.last <;> exact ⟨rfl, rfl⟩
  unfold Ends
  rw [fetch_ending hDeliveries hEnding, hRecords]
  exact ⟨hEnd, ⟨h.tokens, h.unfinished, h.records, {}, rfl, rfl⟩, ⟨rfl, rfl, rfl⟩, rfl, hTokens⟩

theorem ends_next (h : s.Bare ts) : Ends next s (fun t s' => t.StandsAt ts 0 ∧ s'.Bare (ts.drop 1) ∧
    s.Beside s') E := by
  have hTokens := h.tokens
  unfold next
  refine Ends.get ?_
  cases hCache : s.cache with
  | cons u us =>
    rw [hCache, List.cons_append] at hTokens
    subst hTokens
    exact ⟨Or.inl rfl, ⟨rfl, fun t ht => h.unfinished t (List.mem_cons_of_mem _ ht), h.records,
      h.ending⟩, rfl, rfl, rfl⟩
  | nil =>
    rw [hCache, List.nil_append] at hTokens
    cases ts with
    | nil =>
      refine (h.ends_fetch_finish hTokens).mono ?_
      rintro t s' ⟨hEnd, hBare, hBeside, -⟩
      exact ⟨Or.inr ⟨rfl, hEnd⟩, hBare, hBeside⟩
    | cons u us =>
      refine (h.ends_fetch hTokens).mono ?_
      rintro t s' ⟨rfl, hBare, hBeside, -⟩
      rw [hCache] at hBare
      exact ⟨Or.inl rfl, hBare, hBeside⟩

/-- Taking tokens into the cache as long as there are any. -/
theorem ends_fill (n : Nat) (h : s.Bare ts) :
    Ends (fill n) s (fun t? s' => s'.Bare ts ∧ s.Beside s' ∧
      (t? = none ∧ s'.cache.length = s.cache.length + n ∨
        ∃ t, t? = some t ∧ (t.kind = .finish ∧ t.text = "") ∧
          ts.length < s.cache.length + n)) E := by
  induction n generalizing s with
  | zero => exact ⟨h, .refl s, Or.inl ⟨rfl, rfl⟩⟩
  | succ n ih =>
    have hTokens := h.tokens
    unfold fill
    cases hStream : s.stream.tokens with
    | nil =>
      rw [hStream, List.append_nil] at hTokens
      refine (h.ends_fetch_finish hStream).bind ?_
      rintro t s' ⟨hEnd, hBare, hBeside, -⟩
      rw [Token.isFinish, hEnd.1]
      refine Ends.pure ⟨hBare, hBeside, Or.inr ⟨t, rfl, hEnd, ?_⟩⟩
      rw [hTokens]
      omega
    | cons u us =>
      rw [hStream] at hTokens
      refine (h.ends_fetch hStream).bind ?_
      rintro t s' ⟨rfl, hBare, hBeside, hCache, hRest⟩
      have hFinish : t.isFinish = false := by
        refine h.unfinished t ?_
        rw [← hTokens]
        exact List.mem_append_right _ List.mem_cons_self
      have hBare' : Session.Bare { s' with cache := s'.cache ++ [t] } ts := by
        refine ⟨?_, h.unfinished, hBare.records, hBare.ending⟩
        change (s'.cache ++ [t]) ++ s'.stream.tokens = ts
        rw [hCache, hRest, List.append_assoc, List.singleton_append, hTokens]
      rw [if_neg (by simp [hFinish])]
      refine Ends.modify ((ih hBare').mono ?_)
      rintro t? s'' ⟨hBare'', hBeside', hEnd⟩
      rw [List.length_append, hCache, List.length_singleton, Nat.add_assoc, Nat.add_comm 1 n] at hEnd
      exact ⟨hBare'', hBeside.trans ⟨hBeside'.env, hBeside'.generated, hBeside'.tree⟩, hEnd⟩

theorem ends_peek (i : Nat) (h : s.Bare ts) :
    Ends (peek i) s (fun t s' => t.StandsAt ts i ∧ s'.Bare ts ∧ s.Beside s') E := by
  unfold peek
  refine Ends.get ((h.ends_fill _).bind ?_)
  rintro t? s' ⟨hBare, hBeside, ⟨rfl, hLength⟩ | ⟨t, rfl, hEnd, hLength⟩⟩
  · refine Ends.get (Ends.pure ⟨?_, hBare, hBeside⟩)
    have hLt : i < s'.cache.length := by omega
    refine Or.inl ?_
    rw [← hBare.tokens, List.getElem?_append_left hLt, List.getElem?_eq_getElem hLt]
    rfl
  · have hTokens := congrArg List.length h.tokens
    rw [List.length_append] at hTokens
    exact Ends.pure ⟨Or.inr ⟨List.getElem?_eq_none (by omega), hEnd⟩, hBare, hBeside⟩

theorem ends_putBack (h : s.Bare ts) (t : Token) : Ends (putBack t) s (fun _ s' =>
    s'.Bare (if t.isFinish then ts else t :: ts) ∧ s.Beside s') E := by
  unfold putBack
  split
  · exact ⟨h, .refl s⟩
  · rename_i hFinish
    refine ⟨⟨congrArg (t :: ·) h.tokens, ?_, h.records, h.ending⟩, rfl, rfl, rfl⟩
    exact List.forall_mem_cons.mpr ⟨Bool.eq_false_iff.mpr hFinish, h.unfinished⟩

theorem tokensLeft_eq (h : s.Bare ts) :
    s.stream.deliveries.length + s.cache.length + 2 = ts.length + 2 := by
  have hLength := congrArg List.length h.tokens
  rw [List.length_append, Stream.tokens, List.length_map] at hLength
  omega

/-! ## Comments -/

theorem ends_commentsAhead (h : s.Bare ts) :
    Ends commentsAhead s (fun _ s' => s'.Bare ts ∧ s.Beside s') E := by
  unfold commentsAhead
  refine Ends.get ?_
  dsimp only
  split
  · exact (h.ends_peek 0).bind fun _ _ h' => Ends.get (Ends.pure h'.2)
  · exact Ends.get (Ends.pure ⟨h, .refl s⟩)

theorem ends_skipAdjacentComments (h : s.Bare ts) :
    Ends skipAdjacentComments s (fun _ s' => s'.Bare ts ∧ s.Beside s') E := by
  unfold skipAdjacentComments
  refine (h.ends_peek 0).bind ?_
  rintro t s' ⟨-, hBare, hBeside⟩
  exact ⟨⟨hBare.tokens, hBare.unfinished, hBare.records, hBare.ending⟩,
    hBeside.env, hBeside.generated, hBeside.tree⟩

/-- The comments of an entity may change, and nothing else does. -/
theorem ends_attachAfter (h : s.Bare ts) (id : EntityId) (line : Nat) :
    Ends (attachAfter id line) s (fun _ s' => s'.Bare ts ∧ s'.env = s.env ∧
      s'.generated = s.generated ∧ ∃ (comments : Entity → String) (flags : Entity → Comment.Flags),
        s'.tree = s.tree.modify id fun e =>
          { e with comments := comments e, commentFlags := flags e }) E := by
  have hAttach : ∀ (after : List Token) (e : Entity), e.attach after =
      { e with comments := (e.attach after).comments, commentFlags := (e.attach after).commentFlags } := by
    intro after e
    unfold Entity.attach
    dsimp only
    split <;> rfl
  unfold attachAfter
  refine Ends.entity ?_
  refine h.ends_commentsAhead.bind ?_
  rintro comments s₁ ⟨hBare, hBeside⟩
  dsimp only
  split
  · refine Ends.pure ⟨hBare, hBeside.env, hBeside.generated, Entity.comments, Entity.commentFlags, ?_⟩
    rw [hBeside.tree, Tree.modify_self]
  · generalize succeedingComments _ line comments = after
    unfold modifyEntity modifyTree
    refine Ends.modify ?_
    have hBare' : Session.Bare { s₁ with tree := s₁.tree.modify id fun e =>
        { e.attach after with
          commentFlags := (e.attach after).commentFlags.insert .succeeding } } ts :=
      { hBare with }
    refine hBare'.ends_skipAdjacentComments.mono ?_
    rintro _ s₂ ⟨hBare₂, hBeside₂⟩
    refine ⟨hBare₂, hBeside₂.env.trans hBeside.env, hBeside₂.generated.trans hBeside.generated,
      fun e => (e.attach after).comments,
      fun e => (e.attach after).commentFlags.insert .succeeding, ?_⟩
    rw [hBeside₂.tree, ← hBeside.tree]
    refine congrArg (s₁.tree.modify id) (funext fun e => ?_)
    rw [hAttach]

end Session.Bare

end IdlReader
