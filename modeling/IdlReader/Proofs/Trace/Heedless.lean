import IdlReader.Proofs.Grammar.Session

/-!
# Runs and the end of the stream

The grammar learns how a stream ends from the last fetch only, the one behind all deliveries. If the
stream ends with a fault, then a run that gets there fails with that fault. Any other run goes as it
would go with another end: it gives the same, or fails with the same fault, and leaves the same
session except for the end of the stream.

* `Heedless.bind`, `Heedless.get`: actions one after the other.
* `heedless_fetch`: the token behind what was read.
-/

namespace IdlReader

/-- The session with another end of its stream. -/
def Session.ended (s : Session) (ending : Except Fault Gathered) : Session :=
  { s with stream := { s.stream with ending } }

theorem Session.ended_of_ending {s : Session} {ending : Except Fault Gathered}
    (h : s.stream.ending = ending) : s.ended ending = s := by
  obtain ⟨env, tree, ⟨deliveries, _, sources⟩, cache, comments, generated, last⟩ := s
  cases h
  rfl

namespace Parsing

variable {α β : Type} {reading : Prop} {s : Session}

/-- An outcome with another end of the stream. -/
def ended (r : EStateM.Result Fault Session α) (ending : Except Fault Gathered) :
    EStateM.Result Fault Session α :=
  match r with
  | .ok a u => .ok a (u.ended ending)
  | .error f u => .error f (u.ended ending)

/-- Whether a run in front of a fault that ends the stream goes the same way however the stream
ends or, if `reading`, comes to the fault and fails with it. -/
def Heedless (reading : Prop) (x : Parsing α) (s : Session) : Prop :=
  ∀ f, s.stream.ending = .error f →
    (∀ ending, x (s.ended ending) = ended (x s) ending) ∨
      reading ∧ ∃ u, x s = .error f u ∧ u.stream.deliveries = []

namespace Heedless

theorem of_forall {x : Parsing α} (h : ∀ ending, x (s.ended ending) = ended (x s) ending) :
    Heedless reading x s := fun _ _ => Or.inl h

theorem pure (a : α) : Heedless reading (pure a) s := of_forall fun _ => rfl

theorem throw (f : Fault) : Heedless reading (throwThe Fault f : Parsing α) s :=
  of_forall fun _ => rfl

/-- An action that reads nothing may stand among actions that read. -/
theorem reads {x : Parsing α} (h : Heedless False x s) : Heedless reading x s :=
  fun f hEnding => Or.inl ((h f hEnding).resolve_right fun hMet => hMet.1)

theorem bind {x : Parsing α} {f : α → Parsing β} (hx : Heedless reading x s)
    (hf : ∀ a u, x s = .ok a u → Heedless reading (f a) u) : Heedless reading (x >>= f) s := by
  intro fault hEnding
  rcases hx fault hEnding with hSame | ⟨hReading, u, hRun, hAll⟩
  · -- The run itself has the end that it started with, so what follows has it too.
    have hOwn := hSame (.error fault)
    rw [Session.ended_of_ending hEnding] at hOwn
    cases hRun : x s with
    | error f₁ u =>
      refine Or.inl fun ending => ?_
      have hOther := hSame ending
      rw [hRun] at hOther
      rw [bind_of_error hRun, bind_of_error hOther]
      rfl
    | ok a u =>
      rw [hRun] at hOwn
      have hKept : u.stream.ending = .error fault := by
        rw [show u = u.ended (.error fault) from (EStateM.Result.ok.inj hOwn).2]
        rfl
      refine (hf a u hRun fault hKept).imp (fun hRest ending => ?_) fun ⟨hReading, v, hRest, hAll⟩ =>
        ⟨hReading, v, by rw [bind_of_ok hRun, hRest], hAll⟩
      have hOther := hSame ending
      rw [hRun] at hOther
      rw [bind_of_ok hRun, bind_of_ok hOther, hRest ending]
  · exact Or.inr ⟨hReading, u, bind_of_error hRun, hAll⟩

/-- What depends on the session, but not on how the stream ends. -/
theorem get {f : Session → Parsing β} (hf : ∀ ending, f (s.ended ending) = f s)
    (h : Heedless reading (f s) s) : Heedless reading (get >>= f) s := by
  intro fault hEnding
  exact (h fault hEnding).imp
    (fun hSame ending => (congrFun (hf ending) (s.ended ending)).trans (hSame ending)) id

theorem modify {f : Session → Session}
    (hf : ∀ ending, f (s.ended ending) = (f s).ended ending) :
    Heedless reading (modify f : Parsing PUnit) s := by
  refine of_forall fun ending => ?_
  change EStateM.Result.ok _ (f (s.ended ending)) = .ok _ ((f s).ended ending)
  rw [hf ending]

/-- An action that reads nothing, with a place for faults that have none. -/
theorem orAt {p : Position} {x : Parsing α} (h : Heedless False x s) :
    Heedless False (orAt p x) s := by
  intro fault hEnding
  refine Or.inl fun ending => ?_
  have hSame := (h fault hEnding).resolve_right (fun hMet => hMet.1) ending
  simp only [Parsing.orAt, tryCatchThe, MonadExceptOf.tryCatch]
  delta EStateM.tryCatch
  rw [hSame]
  cases x s <;> rfl

end Heedless

theorem heedless_orFail (x : Except Cause α) : Heedless reading (orFail x) s := by
  cases x with
  | ok a => exact Heedless.pure a
  | error cause => exact Heedless.throw _

theorem heedless_addEntity (parent : EntityId) (kind : EntityKind) (source : SourceId) (span : Span)
    (data : EntityData) : Heedless reading (addEntity parent kind source span data) s := by
  unfold addEntity
  refine Heedless.get (fun _ => rfl) ((heedless_orFail _).bind ?_)
  rintro ⟨id, t⟩ u -
  exact (Heedless.modify fun _ => rfl).bind fun _ _ _ => Heedless.pure id

theorem heedless_nameEntity (id : EntityId) (name : String) (forward listed : Bool) :
    Heedless reading (nameEntity id name forward listed) s := by
  unfold nameEntity
  refine Heedless.get (fun _ => rfl) ((heedless_orFail _).bind fun place u _ => ?_)
  refine (Heedless.modify fun _ => rfl).bind fun _ v _ => (heedless_orFail _).bind ?_
  rintro ⟨found, t⟩ w -
  exact (Heedless.modify fun _ => rfl).bind fun _ _ _ => Heedless.pure found

/-- The next token does not depend on the end. Behind the last one there is the end only. -/
theorem heedless_fetch : Heedless True fetch s := by
  intro fault hEnding
  cases hDeliveries : s.stream.deliveries with
  | cons d ds =>
    refine Or.inl fun ending => ?_
    rw [fetch_delivery hDeliveries, fetch_delivery (s := s.ended ending) hDeliveries]
    rfl
  | nil => exact Or.inr ⟨trivial, s, fetch_error hDeliveries hEnding, hDeliveries⟩

theorem heedless_next : Heedless True next s := by
  cases hCache : s.cache with
  | nil =>
    intro fault hEnding
    have hNext : ∀ ending, next (s.ended ending) = fetch (s.ended ending) :=
      fun ending => next_of_nil hCache
    rw [next_of_nil hCache]
    simp only [hNext]
    exact heedless_fetch fault hEnding
  | cons t ts =>
    refine Heedless.of_forall fun ending => ?_
    rw [next_cached hCache, next_cached (s := s.ended ending) hCache]
    rfl

theorem heedless_fill (n : Nat) : Heedless True (fill n) s := by
  induction n generalizing s with
  | zero => exact Heedless.pure none
  | succ n ih =>
    unfold fill
    refine heedless_fetch.bind fun t u _ => ?_
    split
    · exact Heedless.pure _
    · exact (Heedless.modify fun _ => rfl).bind fun _ v _ => ih

theorem heedless_peek (i : Nat) : Heedless True (peek i) s := by
  unfold peek
  refine Heedless.get (fun _ => rfl) ((heedless_fill _).bind fun t? u _ => ?_)
  cases t? with
  | some t => exact Heedless.pure t
  | none => exact Heedless.get (fun _ => rfl) (Heedless.pure _)

end Parsing

end IdlReader
