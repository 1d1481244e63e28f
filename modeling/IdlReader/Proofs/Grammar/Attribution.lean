import IdlReader.Document
import IdlReader.Proofs.Grammar.Session
import IdlReader.Proofs.Outcome

/-!
# Comments behind what they describe

The comments behind an entity are selected by the lines on which comments end, and they are taken
off the queue by the lines on which comments start, from whatever source these come. The two
agree where the block that is taken off stands in the source of the entity and the next comment
of this source starts more than one line below its end (`Separated`).

* `succeeding_eq_adjacent_append`: what is selected beyond what is taken off.
* `succeeding_eq_adjacent_iff`: when both are the same.
* `comments_of_attachAfter`: what the action leaves of the queue.
* `attributed_twice`: a comment that two entities get.
-/

namespace IdlReader.Parsing

/-! ## The block that is taken off -/

/-- The first comments as long as each starts at most one line below the start of the one before
it. -/
def adjacent : (line : Option Nat) → List Token → List Token
  | _, [] => []
  | line, c :: cs =>
    if (line.map fun l => decide (l + 1 < c.position.line)).getD false then []
    else c :: adjacent (some c.position.line) cs

/-- `dropAdjacent` drops this block and nothing else. -/
theorem adjacent_append (line : Option Nat) (cs : List Token) :
    adjacent line cs ++ dropAdjacent line cs = cs := by
  induction cs generalizing line with
  | nil => rfl
  | cons c cs ih =>
    unfold adjacent dropAdjacent
    split
    · rfl
    · rw [List.cons_append, ih]

theorem adjacent_far {start : Nat} {c : Token} (h : start + 1 < c.position.line)
    (cs : List Token) : adjacent (some start) (c :: cs) = [] ∧
      dropAdjacent (some start) (c :: cs) = c :: cs := by
  constructor
  · simp [adjacent, h]
  · simp [dropAdjacent, h]

theorem adjacent_near {start : Nat} {c : Token} (h : ¬ start + 1 < c.position.line)
    (cs : List Token) :
    adjacent (some start) (c :: cs) = c :: adjacent (some c.position.line) cs ∧
      dropAdjacent (some start) (c :: cs) = dropAdjacent (some c.position.line) cs := by
  constructor
  · simp [adjacent, h]
  · simp [dropAdjacent, h]

/-- The line up to which a comment may start that follows a block: one below its last end. -/
def reach (line : Nat) (block : List Token) : Nat :=
  block.foldl (fun _ c => c.span.last.line + 1) line

/-- Whether a block of comments stands in a source and the next comment of this source does not
follow it. -/
def Separated (source : SourceId) (line : Nat) (block left : List Token) : Prop :=
  (∀ c ∈ block, c.source = source) ∧
    ∀ next ∈ left.find? (fun c => c.source = source), reach line block < next.position.line

instance (source : SourceId) (line : Nat) (block left : List Token) :
    Decidable (Separated source line block left) := inferInstanceAs (Decidable (_ ∧ _))

/-- No comment is selected if the first one of the source starts too far below. -/
theorem succeeding_eq_nil_iff (source : SourceId) (line : Nat) (cs : List Token) :
    succeedingComments source line cs = [] ↔
      ∀ next ∈ cs.find? (fun c => c.source = source), line < next.position.line := by
  induction cs with
  | nil => simp [succeedingComments]
  | cons c cs ih =>
    unfold succeedingComments
    by_cases hSource : c.source = source
    · simp [hSource]
    · simp [hSource, ih]

/-- Behind a comment of the source that is both selected and taken off, every comment of this
source that is taken off is selected; the selection goes on behind the block. -/
theorem succeeding_eq_append {source : SourceId} {start line : Nat} (hLine : start + 1 ≤ line)
    {cs : List Token} (hForward : ∀ c ∈ cs, c.span.first.line ≤ c.span.last.line)
    (hOwn : ∀ c ∈ adjacent (some start) cs, c.source = source) :
    succeedingComments source line cs = adjacent (some start) cs ++
      succeedingComments source (reach line (adjacent (some start) cs))
        (dropAdjacent (some start) cs) := by
  induction cs generalizing start line with
  | nil => rfl
  | cons c cs ih =>
    by_cases hFar : start + 1 < c.position.line
    · obtain ⟨hNone, hAll⟩ := adjacent_far hFar cs
      rw [hNone, hAll]
      rfl
    · obtain ⟨hBlock, hLeft⟩ := adjacent_near hFar cs
      rw [hBlock] at hOwn ⊢
      rw [hLeft]
      have hSelf : c.source = source := hOwn c List.mem_cons_self
      have hNear : ¬ line < c.position.line := by omega
      have hBound : c.position.line + 1 ≤ c.span.last.line + 1 :=
        Nat.succ_le_succ (hForward c List.mem_cons_self)
      have hRest := ih hBound (fun d hd => hForward d (List.mem_cons_of_mem c hd))
        fun d hd => hOwn d (List.mem_cons_of_mem c hd)
      rw [succeedingComments, if_neg (not_not_intro hSelf), if_neg hNear, hRest]
      rfl

theorem source_of_mem_succeeding {source : SourceId} {line : Nat} {cs : List Token} {c : Token}
    (h : c ∈ succeedingComments source line cs) : c.source = source := by
  induction cs generalizing line with
  | nil => cases h
  | cons d cs ih =>
    unfold succeedingComments at h
    split at h
    · exact ih h
    · rename_i hSource
      split at h
      · cases h
      · rcases List.mem_cons.mp h with rfl | hRest
        · exact Decidable.not_not.mp hSource
        · exact ih hRest

/-- **What is selected for an entity and yet left in the queue** stands behind the block that is
taken off, if this block stands in the source of the entity. -/
theorem succeeding_eq_adjacent_append {source : SourceId} {line : Nat} {cs : List Token}
    (hForward : ∀ c ∈ cs, c.span.first.line ≤ c.span.last.line)
    (hSome : succeedingComments source line cs ≠ [])
    (hOwn : ∀ c ∈ adjacent none cs, c.source = source) :
    succeedingComments source line cs = adjacent none cs ++
      succeedingComments source (reach line (adjacent none cs)) (dropAdjacent none cs) := by
  cases cs with
  | nil => rfl
  | cons c cs =>
    have hSelf : c.source = source := hOwn c List.mem_cons_self
    have hBound : c.position.line + 1 ≤ c.span.last.line + 1 :=
      Nat.succ_le_succ (hForward c List.mem_cons_self)
    rw [succeedingComments, if_neg (not_not_intro hSelf)] at hSome
    by_cases hFar : line < c.position.line
    · exact absurd (if_pos hFar) hSome
    · rw [succeedingComments, if_neg (not_not_intro hSelf), if_neg hFar,
        succeeding_eq_append hBound (fun d hd => hForward d (List.mem_cons_of_mem c hd))
          fun d hd => hOwn d (List.mem_cons_of_mem c hd)]
      rfl

/-- The selected comments are the block that is taken off exactly if the block is separated. -/
theorem succeeding_eq_adjacent_iff {source : SourceId} {line : Nat} {cs : List Token}
    (hForward : ∀ c ∈ cs, c.span.first.line ≤ c.span.last.line)
    (hSome : succeedingComments source line cs ≠ []) :
    adjacent none cs = succeedingComments source line cs ↔
      Separated source line (adjacent none cs) (dropAdjacent none cs) := by
  unfold Separated
  rw [← succeeding_eq_nil_iff]
  constructor
  · intro hEq
    have hOwn : ∀ c ∈ adjacent none cs, c.source = source := fun c hc =>
      source_of_mem_succeeding (hEq ▸ hc)
    refine ⟨hOwn, ?_⟩
    have hAppend := succeeding_eq_adjacent_append hForward hSome hOwn
    rw [← hEq] at hAppend
    exact List.append_right_eq_self.mp hAppend.symm
  · rintro ⟨hOwn, hNone⟩
    rw [succeeding_eq_adjacent_append hForward hSome hOwn, hNone, List.append_nil]

/-! ## The action -/

/-- The comments in front of the next token that was not taken: those that came with the last
delivery if its token is still there, and those of the next delivery otherwise. -/
def queue (s : Session) : List Token :=
  if s.cache ≠ [] then s.comments
  else match s.stream.deliveries with
    | d :: _ => d.gathered.comments
    | [] => (s.stream.ending.toOption.map Gathered.comments).getD []

theorem comments_fetch {s s' : Session} {t : Token} (hCache : s.cache = [])
    (h : fetch s = .ok t s') : s'.comments = queue s ∧ s'.cache = [] := by
  have hEmpty := (cache_fetch h).trans hCache
  refine ⟨?_, hEmpty⟩
  unfold queue
  rw [if_neg (not_not_intro hCache)]
  rcases fetch_eq_ok h with ⟨d, ds, hDeliveries, -, rfl⟩ | ⟨g, hNone, hEnding, -, rfl⟩
  · rw [hDeliveries]
  · rw [hNone, hEnding]
    rfl

theorem comments_peek {s s' : Session} {t : Token} (h : peek 0 s = .ok t s') :
    s'.comments = queue s := by
  unfold peek at h
  obtain ⟨s₀, s₁, hGet, h⟩ := bind_eq_ok.mp h
  cases hGet
  obtain ⟨t?, s₂, hFill, h⟩ := bind_eq_ok.mp h
  have hSame : s' = s₂ := by
    cases t? with
    | some u =>
      cases h
      rfl
    | none =>
      obtain ⟨s₃, s₄, hGet, h⟩ := bind_eq_ok.mp h
      cases hGet
      cases h
      rfl
  rw [hSame]
  cases hCache : s.cache with
  | cons u ts =>
    rw [hCache, List.length_cons, Nat.zero_add, Nat.sub_eq_zero_of_le (by omega)] at hFill
    cases hFill
    unfold queue
    rw [if_pos (by rw [hCache]; exact List.cons_ne_nil u ts)]
  | nil =>
    rw [hCache] at hFill
    unfold fill at hFill
    obtain ⟨u, s₃, hFetch, hFill⟩ := bind_eq_ok.mp hFill
    obtain ⟨hComments, -⟩ := comments_fetch hCache hFetch
    split at hFill
    · cases hFill
      exact hComments
    · obtain ⟨_, s₄, hModify, hFill⟩ := bind_eq_ok.mp hFill
      cases hModify
      cases hFill
      exact hComments

theorem comments_skipAdjacent {s s' : Session} (h : skipAdjacentComments s = .ok () s') :
    s'.comments = dropAdjacent none (queue s) := by
  unfold skipAdjacentComments at h
  obtain ⟨t, s₁, hPeek, h⟩ := bind_eq_ok.mp h
  cases h
  rw [← comments_peek hPeek]

theorem comments_commentsAhead {s u : Session} {cs : List Token}
    (h : commentsAhead s = .ok cs u) : u.comments = cs := by
  unfold commentsAhead at h
  obtain ⟨s₀, s₁, hGet, h⟩ := bind_eq_ok.mp h
  cases hGet
  dsimp only at h
  split at h
  · obtain ⟨t, s₂, -, h⟩ := bind_eq_ok.mp h
    obtain ⟨s₃, s₄, hGet, h⟩ := bind_eq_ok.mp h
    cases hGet
    cases h
    rfl
  · obtain ⟨s₃, s₄, hGet, h⟩ := bind_eq_ok.mp h
    cases hGet
    cases h
    rfl

/-- The comments that are selected from a queue for an entity. -/
def selected (s u : Session) (id : EntityId) (line : Nat) : List Token :=
  succeedingComments (s.tree.get id).source line u.comments

/-- **What describing an entity by the comments behind it leaves of the queue.** A selection
without text leaves everything. Otherwise the queue loses its first block. This block is what was
selected, so that no comment is used again and none is lost, exactly if it is separated; where
the token behind the comments was taken already, the block is that of another queue. -/
theorem comments_of_attachAfter {s s' : Session} {id : EntityId} {line : Nat}
    (h : attachAfter id line s = .ok () s') :
    ∃ u, commentsAhead s = .ok u.comments u ∧
      ((Comment.combine (selected s u id line)).1.isEmpty = true → s' = u) ∧
      ((Comment.combine (selected s u id line)).1.isEmpty = false →
        queue u = adjacent none (queue u) ++ s'.comments ∧
        (u.cache ≠ [] → (∀ c ∈ u.comments, c.span.first.line ≤ c.span.last.line) →
          (u.comments = selected s u id line ++ s'.comments ↔
            Separated (s.tree.get id).source line (adjacent none u.comments) s'.comments))) := by
  unfold attachAfter at h
  obtain ⟨e, s₁, hEntity, h⟩ := bind_eq_ok.mp h
  cases hEntity
  obtain ⟨cs, u, hAhead, h⟩ := bind_eq_ok.mp h
  have hComments := comments_commentsAhead hAhead
  subst hComments
  refine ⟨u, hAhead, ?_, ?_⟩
  · intro hEmpty
    unfold selected at hEmpty
    rw [if_pos hEmpty] at h
    cases h
    rfl
  · intro hText
    unfold selected at hText
    rw [if_neg (by rw [hText]; decide)] at h
    obtain ⟨_, v, hModify, hSkip⟩ := bind_eq_ok.mp h
    cases hModify
    have hSkipped := comments_skipAdjacent hSkip
    have hLeft : s'.comments = dropAdjacent none (queue u) := hSkipped
    refine ⟨?_, ?_⟩
    · rw [hLeft]
      exact (adjacent_append none (queue u)).symm
    · intro hCache hForward
      have hQueue : queue u = u.comments := if_pos hCache
      rw [hQueue] at hLeft
      have hSome : succeedingComments (s.tree.get id).source line u.comments ≠ [] := by
        intro hNone
        rw [hNone] at hText
        exact absurd hText (by decide)
      rw [hLeft, ← succeeding_eq_adjacent_iff hForward hSome, selected]
      refine ⟨fun hSplit => ?_, fun hBlock => ?_⟩
      · refine (List.append_left_inj (dropAdjacent none u.comments)).mp ?_
        rw [adjacent_append, ← hSplit]
      · rw [← hBlock, adjacent_append]

/-- Reads a struct at the front of a stream up to the token behind it, as statements do. -/
def readStruct : Parsing (EntityId × Token) := do
  let comments ← commentsBefore
  let keyword ← next
  let id ← readDefinition (contentWithin 4) Tree.root .struct keyword false comments
  let t ← next
  return (id, t)

/-- Of the comments behind this struct the one beside it is taken off and the one below stays. -/
theorem comments_of_attachAfter_described :
    ∃ r s s' u id t, Document.reader {} ⟨[], []⟩ (.text ("struct S \x7b long x; \x7d; // beside\n" ++
        "\n\n// below\nconst long y = 1;")) = .ok r ∧
      readStruct (Document.session {} r.stream) = .ok (id, t) s ∧
      attachAfter id t.position.line s = .ok () s' ∧ commentsAhead s = .ok u.comments u ∧
      u.comments = selected s u id t.position.line ++ s'.comments ∧
      u.comments.map Token.text = ["// beside", "// below"] ∧
      s'.comments.map Token.text = ["// below"] := by
  have hRun : ((Document.reader {} ⟨[], []⟩ (.text ("struct S \x7b long x; \x7d; // beside\n" ++
        "\n\n// below\nconst long y = 1;"))).toOption.any fun r =>
      match readStruct (Document.session {} r.stream) with
      | .ok (id, t) s =>
        match commentsAhead s, attachAfter id t.position.line s with
        | .ok _ u, .ok _ s' =>
          !(Comment.combine (selected s u id t.position.line)).1.isEmpty && !u.cache.isEmpty &&
            u.comments.all (fun c => decide (c.span.first.line ≤ c.span.last.line)) &&
            decide (Separated (s.tree.get id).source t.position.line (adjacent none u.comments)
              s'.comments) &&
            u.comments.map Token.text == ["// beside", "// below"] &&
            s'.comments.map Token.text == ["// below"]
        | _, _ => false
      | .error _ _ => false) = true := by decide +kernel
  obtain ⟨r, hReader, hRun⟩ := any_toOption hRun
  split at hRun
  · rename_i id t s hStruct
    split at hRun
    · rename_i cs u _ s' hAhead hAttach
      simp only [Bool.and_eq_true, Bool.not_eq_true', decide_eq_true_eq, beq_iff_eq,
        List.all_eq_true] at hRun
      obtain ⟨⟨⟨⟨⟨hText, hCache⟩, hForward⟩, hSeparated⟩, hBoth⟩, hLeft⟩ := hRun
      obtain ⟨u', hAhead', -, hTaken⟩ := comments_of_attachAfter hAttach
      obtain ⟨rfl, rfl⟩ := EStateM.Result.ok.inj (hAhead.symm.trans hAhead')
      obtain ⟨-, hExact⟩ := hTaken hText
      exact ⟨r, s, s', u, id, t, hReader, hStruct, hAttach, hAhead,
        (hExact (List.isEmpty_eq_false_iff.mp hCache) hForward).mpr hSeparated, hBoth, hLeft⟩
    · cases hRun
  · cases hRun

end IdlReader.Parsing

namespace IdlReader.Document

/-- **Two entities get one comment** in this document, which has two comments only: the block
behind `x` ends above the line of the second comment, so that this one is selected for `x`, yet
the block starts too far above, so that it is left for `y`. -/
theorem attributed_twice :
    ∃ r doc, reader {} ⟨[], []⟩
        (.text "struct S \x7b long x; /* a\nb\nc */\n// next\nlong y; \x7d;") = .ok r ∧
      ofStream {} r.stream = .ok doc ∧
      (r.stream.deliveries.flatMap fun d => d.gathered.comments.map Token.text) =
        ["/* a\nb\nc */", "// next"] ∧
      (doc.tree.get 2).name = "x" ∧ (doc.tree.get 2).comments = "a\nb\nc\nnext" ∧
      (doc.tree.get 3).name = "y" ∧ (doc.tree.get 3).comments = "next" := by
  have hRead : (match reader {} ⟨[], []⟩
        (.text "struct S \x7b long x; /* a\nb\nc */\n// next\nlong y; \x7d;") with
      | .ok r => ((r.stream.deliveries.flatMap fun d => d.gathered.comments.map Token.text) ==
            ["/* a\nb\nc */", "// next"]) &&
          (match ofStream {} r.stream with
          | .ok doc => (doc.tree.get 2).name == "x" &&
            (doc.tree.get 2).comments == "a\nb\nc\nnext" && (doc.tree.get 3).name == "y" &&
            (doc.tree.get 3).comments == "next"
          | .error _ => false)
      | .error _ => false) = true := by decide +kernel
  split at hRead
  · rename_i r hReader
    rw [Bool.and_eq_true, beq_iff_eq] at hRead
    obtain ⟨hComments, hRead⟩ := hRead
    split at hRead
    · rename_i doc hDocument
      simp only [Bool.and_eq_true, beq_iff_eq] at hRead
      obtain ⟨⟨⟨hX, hXComments⟩, hY⟩, hYComments⟩ := hRead
      exact ⟨r, doc, hReader, hDocument, hComments, hX, hXComments, hY, hYComments⟩
    · cases hRead
  · cases hRead

end IdlReader.Document
