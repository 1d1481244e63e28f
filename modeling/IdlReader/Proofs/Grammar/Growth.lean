import IdlReader.Proofs.Source.Delivery
import IdlReader.Proofs.Tree.Members

/-!
# Actions of the grammar and the tree

An action of the grammar starts in a sound session: its tree is reachable, the entries of
enumerations have these as their types, and the words that are still to come are names. What an
action does to the tree is a `Course` of steps. Most actions only read tokens and make notes
(`Noted`) of the directives and comments on the way. These belong to every `Growth`, such as the
`Quiet` ones, which may come between adding an entity and giving it its name, and the `Calming`
ones, which do both at least.

* `Grows.bind`: courses of actions one after the other.
* `Grows.within`: a course as part of another one.
-/

namespace IdlReader

/-- Whether the tree of a session is reachable, with entries of enumerations that have these as
their types, and the words to come are names. -/
structure Session.Sound (s : Session) : Prop where
  reachable : s.tree.Reachable
  entries : ∀ i, s.tree.Entry i
  cache : Lexical s.cache
  stream : s.stream.Lexical

namespace Tree

/-! ## Growths -/

/-- Steps that neither add an entity without a name nor name one. -/
structure Quiet (t t' : Tree) : Prop where
  steps : Steps t t'
  calm : t.Calm → t'.Calm
  opened : ∀ id, t.Open id → t'.Open id

/-- Steps after which every entity that they add has a name. -/
structure Calming (t t' : Tree) : Prop where
  steps : Steps t t'
  calm : t.Calm → t'.Calm

/-- A note: a directive is recorded, or an entity gets its comments or its end. -/
inductive Note : Tree → Tree → Prop where
  | record {t : Tree} (hPos : 0 < t.size) (r : Record) : Note t (t.addRecords [r])
  | annotate {t : Tree} {id : EntityId} {f : Entity → Entity}
      (hf : ∀ e, Entity.Annotates e (f e)) : Note t (t.modify id f)

/-- Any number of notes. -/
abbrev Noted : Tree → Tree → Prop := Relation.ReflTransGen Note

/-- A relation between the trees before and after an action. -/
class Course (R : Tree → Tree → Prop) : Prop where
  steps : ∀ {t t' : Tree}, R t t' → Steps t t'
  refl : ∀ t : Tree, R t t
  trans : ∀ {t t' t'' : Tree}, R t t' → R t' t'' → R t t''

/-- A course on which notes may be made. -/
class Growth (R : Tree → Tree → Prop) : Prop extends Course R where
  noted : ∀ {t t' : Tree}, Noted t t' → R t t'

variable {t t' t'' : Tree}

theorem Quiet.refl (t : Tree) : Quiet t t := ⟨.refl, id, fun _ => id⟩

theorem Quiet.trans (h : Quiet t t') (h' : Quiet t' t'') : Quiet t t'' where
  steps := h.steps.trans h'.steps
  calm := fun hCalm => h'.calm (h.calm hCalm)
  opened := fun id hOpen => h'.opened id (h.opened id hOpen)

theorem quiet_modify {id : EntityId} {f : Entity → Entity} (hf : ∀ e, Entity.Alike e (f e))
    (hStep : Step t (t.modify id f)) : Quiet t (t.modify id f) where
  steps := .single hStep
  calm := fun hCalm => hCalm.modify hf
  opened := fun _ hOpen => hOpen.modify hf

theorem Note.quiet (h : Note t t') : Quiet t t' := by
  cases h with
  | record hPos r =>
    exact ⟨.single (.record t r), fun hCalm => hCalm.record hPos r, fun _ hOpen => hOpen.record r⟩
  | annotate hf => exact quiet_modify (fun e => (hf e).alike) (.annotate hf)

theorem Noted.quiet (h : Noted t t') : Quiet t t' := by
  induction h with
  | refl => exact Quiet.refl t
  | tail _ hNote ih => exact ih.trans hNote.quiet

theorem noted_addRecords (hPos : 0 < t.size) (records : List Record) :
    Noted t (t.addRecords records) := by
  induction records generalizing t with
  | nil => exact .refl
  | cons r rs ih =>
    have hSize : 0 < (t.addRecords [r]).size := by
      rw [size_addRecords_singleton]
      exact Nat.succ_pos _
    exact .head (.record hPos r) (ih hSize)

theorem Calming.refl (t : Tree) : Calming t t := ⟨.refl, fun hCalm => hCalm⟩

theorem Calming.trans (h : Calming t t') (h' : Calming t' t'') : Calming t t'' where
  steps := h.steps.trans h'.steps
  calm := fun hCalm => h'.calm (h.calm hCalm)

instance : Growth Noted where
  steps h := h.quiet.steps
  refl _ := .refl
  trans h h' := h.trans h'
  noted h := h

instance : Growth Quiet where
  steps h := h.steps
  refl := Quiet.refl
  trans := Quiet.trans
  noted h := h.quiet

instance : Growth Calming where
  steps h := h.steps
  refl := Calming.refl
  trans := Calming.trans
  noted h := ⟨h.quiet.steps, h.quiet.calm⟩

instance : Growth Steps where
  steps h := h
  refl _ := .refl
  trans h h' := h.trans h'
  noted h := h.quiet.steps

end Tree

open IdlReader.Tree

/-- The session after steps in which all added entries of enumerations have these as their
types. -/
theorem Session.Sound.steps {s : Session} (hs : s.Sound) {t : Tree} (hSteps : Steps s.tree t)
    (hNew : ∀ i, s.tree.size ≤ i → i < t.size → t.Entry i) : Session.Sound { s with tree := t } :=
  ⟨hs.reachable.steps hSteps, entries_steps hs.reachable hs.entries hSteps hNew, hs.cache,
    hs.stream⟩

theorem Session.Sound.extends {R : Tree → Tree → Prop} [Course R] {s s' : Session} (hs : s.Sound)
    (h : R s.tree s'.tree) : s.tree.Extends s'.tree :=
  (Course.steps h).extends hs.reachable.size_pos

theorem Session.Sound.declarable {R : Tree → Tree → Prop} [Course R] {s s' : Session}
    (hs : s.Sound) (h : R s.tree s'.tree) {type : DeclaredType} (hType : s.tree.Declarable type) :
    s'.tree.Declarable type := hType.steps hs.reachable.size_pos (Course.steps h)

namespace Parsing

variable {α β : Type} {R : Tree → Tree → Prop} {s : Session}

/-- Every successful result of `x` in the session `s` comes with a sound session, a tree that
has grown by `R`, and the postcondition `Q`. -/
def Grows (R : Tree → Tree → Prop) (x : Parsing α) (s : Session) (Q : α → Session → Prop) :
    Prop :=
  ∀ a s', x s = .ok a s' → s'.Sound ∧ R s.tree s'.tree ∧ Q a s'

/-- Whether an action only makes notes in the tree. -/
def Keeps (x : Parsing α) : Prop := ∀ s : Session, s.Sound → Grows Noted x s fun _ _ => True

theorem bind_eq_ok {x : Parsing α} {f : α → Parsing β} {b : β} {s' : Session} :
    (x >>= f) s = .ok b s' ↔ ∃ a s₁, x s = .ok a s₁ ∧ f a s₁ = .ok b s' := by
  cases hx : x s with
  | ok a s₁ =>
    simp only [bind, EStateM.bind, hx]
    constructor
    · intro h
      exact ⟨a, s₁, rfl, h⟩
    · rintro ⟨a', s', hEq, h⟩
      cases hEq
      exact h
  | error fault s₁ =>
    simp [bind, EStateM.bind, hx]

/-- What an action goes on with. -/
theorem bind_of_ok {x : Parsing α} {f : α → Parsing β} {s u : Session} {a : α}
    (h : x s = .ok a u) : (x >>= f) s = f a u := by
  change EStateM.bind x f s = f a u
  unfold EStateM.bind
  rw [h]

theorem bind_of_error {x : Parsing α} {f : α → Parsing β} {s u : Session} {fault : Fault}
    (h : x s = .error fault u) : (x >>= f) s = .error fault u := by
  change EStateM.bind x f s = .error fault u
  unfold EStateM.bind
  rw [h]

theorem bind_get (f : Session → Parsing β) : (get >>= f) s = f s s := rfl

theorem Grows.mono {x : Parsing α} {P Q : α → Session → Prop} (h : Grows R x s P)
    (hPQ : ∀ a s', s'.Sound → R s.tree s'.tree → P a s' → Q a s') : Grows R x s Q := by
  intro a s' hx
  obtain ⟨hs', hR, hP⟩ := h a s' hx
  exact ⟨hs', hR, hPQ a s' hs' hR hP⟩

section Course

variable [Course R]

theorem Grows.pure {Q : α → Session → Prop} {a : α} (hs : s.Sound) (h : Q a s) :
    Grows R (pure a) s Q := by
  intro b s' hb
  cases hb
  exact ⟨hs, Course.refl _, h⟩

theorem Grows.bind {x : Parsing α} {f : α → Parsing β} {P : α → Session → Prop}
    {Q : β → Session → Prop} (hx : Grows R x s P)
    (hf : ∀ a s', s'.Sound → R s.tree s'.tree → P a s' → Grows R (f a) s' Q) :
    Grows R (x >>= f) s Q := by
  intro b s' hb
  obtain ⟨a, s₁, ha, hfa⟩ := bind_eq_ok.mp hb
  obtain ⟨hs₁, hR, hP⟩ := hx a s₁ ha
  obtain ⟨hs', hR', hQ⟩ := hf a s₁ hs₁ hR hP b s' hfa
  exact ⟨hs', Course.trans hR hR', hQ⟩

/-- Two branches that go on in one way. -/
theorem Grows.ite_bind {c : Prop} [Decidable c] {x y : Parsing α} {f : α → Parsing β}
    {P : α → Session → Prop} {Q : β → Session → Prop} (hx : c → Grows R x s P)
    (hy : ¬ c → Grows R y s P)
    (hf : ∀ a s', s'.Sound → R s.tree s'.tree → P a s' → Grows R (f a) s' Q) :
    Grows R (if c then x >>= f else y >>= f) s Q := by
  split
  · exact (hx ‹_›).bind hf
  · exact (hy ‹_›).bind hf

/-- Two branches that go on in one way, the second behind one more action. -/
theorem Grows.ite_bind_assoc {γ : Type} {c : Prop} [Decidable c] {x : Parsing α} {y : Parsing γ}
    {g : γ → Parsing α} {f : α → Parsing β} {P : α → Session → Prop} {Q : β → Session → Prop}
    (hx : c → Grows R x s P) (hy : ¬ c → Grows R (y >>= g) s P)
    (hf : ∀ a s', s'.Sound → R s.tree s'.tree → P a s' → Grows R (f a) s' Q) :
    Grows R (if c then x >>= f else y >>= fun t => g t >>= f) s Q := by
  rw [← bind_assoc]
  exact Grows.ite_bind hx hy hf

end Course

/-- A course as part of another one. -/
theorem Grows.within {R' : Tree → Tree → Prop} {x : Parsing α} {Q : α → Session → Prop}
    (h : Grows R x s Q) (hR : ∀ {t t' : Tree}, R t t' → R' t t') :
    Grows R' x s fun a s' => R s.tree s'.tree ∧ Q a s' := by
  intro a s' hx
  obtain ⟨hs', hCourse, hQ⟩ := h a s' hx
  exact ⟨hs', hR hCourse, hCourse, hQ⟩

/-- Two results about one action. -/
theorem Grows.and {C : Tree → Tree → Prop} {x : Parsing α} {P Q : α → Session → Prop}
    (h : Grows R x s P) (h' : Grows C x s Q) : Grows R x s fun a s' => P a s' ∧ Q a s' := by
  intro a s' hRun
  obtain ⟨hs', hR, hP⟩ := h a s' hRun
  exact ⟨hs', hR, hP, (h' a s' hRun).2.2⟩

/-- A course that is known from the postcondition. -/
theorem Grows.course {R' : Tree → Tree → Prop} {x : Parsing α} {Q : α → Session → Prop}
    (h : Grows R x s fun a s' => R' s.tree s'.tree ∧ Q a s') : Grows R' x s Q := by
  intro a s' hx
  obtain ⟨hs', -, hR', hQ⟩ := h a s' hx
  exact ⟨hs', hR', hQ⟩

/-- Notes on any growth. -/
theorem Grows.noted [Growth R] {x : Parsing α} {Q : α → Session → Prop}
    (h : Grows Noted x s Q) : Grows R x s fun a s' => Noted s.tree s'.tree ∧ Q a s' :=
  h.within Growth.noted

theorem Keeps.grows [Growth R] {x : Parsing α} (h : Keeps x) (hs : s.Sound) :
    Grows R x s fun _ s' => Noted s.tree s'.tree :=
  (h s hs).noted.mono fun _ _ _ _ hQ => hQ.1

theorem Keeps.bind {x : Parsing α} {f : α → Parsing β} (hx : Keeps x) (hf : ∀ a, Keeps (f a)) :
    Keeps (x >>= f) := by
  intro s hs
  exact (hx s hs).bind fun a s' hs' _ _ => hf a s' hs'

theorem Keeps.pure (a : α) : Keeps (pure a) := fun _ hs => Grows.pure hs trivial

/-- A quiet growth next to an entity without a name. -/
theorem Grows.alone {x : Parsing α} {Q : α → Session → Prop} (h : Grows Quiet x s Q) :
    Grows Steps x s fun a s' => Quiet s.tree s'.tree ∧ Q a s' := h.within Quiet.steps

/-- An action that keeps the names of all entities. -/
theorem Grows.calmed {x : Parsing α} {Q : α → Session → Prop} (hCalm : s.tree.Calm)
    (h : Grows Calming x s Q) : Grows Steps x s fun a s' => s'.tree.Calm ∧ Q a s' := by
  intro a s' hx
  obtain ⟨hs', hCalming, hQ⟩ := h a s' hx
  exact ⟨hs', hCalming.steps, hCalming.calm hCalm, hQ⟩

/-- An action that leaves names to all entities. -/
theorem Grows.calming {x : Parsing α} {Q : α → Session → Prop}
    (h : Grows Steps x s fun a s' => s'.tree.Calm ∧ Q a s') : Grows Calming x s Q := by
  intro a s' hx
  obtain ⟨hs', hSteps, hCalm, hQ⟩ := h a s' hx
  exact ⟨hs', ⟨hSteps, fun _ => hCalm⟩, hQ⟩

end Parsing

end IdlReader
