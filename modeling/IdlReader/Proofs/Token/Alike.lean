import Mathlib.Data.List.Forall2
import IdlReader.Proofs.Outcome
import IdlReader.Token.Lexer

/-!
# Tokens that differ in their places

Two tokens are alike if they differ at most in the place where they stand. What a token means is
the same for all tokens that are alike.

* `alike_tokenize`: a text splits into the same tokens whatever its source is.
-/

namespace IdlReader

namespace Token

/-- Whether two tokens differ at most in their places. -/
structure Alike (t u : Token) : Prop where
  kind : t.kind = u.kind
  text : t.text = u.text
  expanded : t.expanded = u.expanded

namespace Alike

variable {t u : Token}

theorem refl (t : Token) : t.Alike t := ⟨rfl, rfl, rfl⟩

theorem symm (h : t.Alike u) : u.Alike t := ⟨h.kind.symm, h.text.symm, h.expanded.symm⟩

theorem trans {v : Token} (h : t.Alike u) (h' : u.Alike v) : t.Alike v :=
  ⟨h.kind.trans h'.kind, h.text.trans h'.text, h.expanded.trans h'.expanded⟩

theorem isFinish (h : t.Alike u) : t.isFinish = u.isFinish := by
  rw [Token.isFinish, Token.isFinish, h.kind]

theorem isIdentifier (h : t.Alike u) : t.isIdentifier = u.isIdentifier := by
  rw [Token.isIdentifier, Token.isIdentifier, h.kind]

theorem isWord (h : t.Alike u) : t.isWord = u.isWord := by
  unfold Token.isWord Token.isIdentifier Token.isKeyword
  rw [h.kind]

theorem is (h : t.Alike u) (text : String) : t.is text = u.is text := by
  unfold Token.is Token.isPlain
  rw [h.kind, h.text]

end Alike

/-- The kind and the text of a token, at no place. -/
def unplaced (t : Token) : Token := point t.kind t.text ⟨0, 0⟩ 0

theorem unplaced_eq_iff {t u : Token} :
    t.unplaced = u.unplaced ↔ t.kind = u.kind ∧ t.text = u.text := by
  constructor
  · intro h
    have hKind : t.unplaced.kind = u.unplaced.kind := by rw [h]
    have hText : t.unplaced.text = u.unplaced.text := by rw [h]
    exact ⟨hKind, hText⟩
  · rintro ⟨hKind, hText⟩
    rw [unplaced, unplaced, hKind, hText]

end Token

/-- Whether lists of tokens differ at most in the places of the tokens. -/
abbrev Alike : List Token → List Token → Prop := List.Forall₂ Token.Alike

namespace Alike

variable {ts us : List Token}

theorem refl (ts : List Token) : Alike ts ts := List.forall₂_same.mpr fun t _ => .refl t

theorem symm (h : Alike ts us) : Alike us ts := by
  induction h with
  | nil => exact .nil
  | cons ht _ ih => exact .cons ht.symm ih

theorem trans {vs : List Token} (h : Alike ts us) (h' : Alike us vs) : Alike ts vs := by
  induction h generalizing vs with
  | nil => exact h'
  | cons ht _ ih =>
    cases h' with
    | cons hu hus => exact .cons (ht.trans hu) (ih hus)

theorem append {ts' us' : List Token} (h : Alike ts us) (h' : Alike ts' us') :
    Alike (ts ++ ts') (us ++ us') := List.rel_append h h'

theorem reverse (h : Alike ts us) : Alike ts.reverse us.reverse := List.rel_reverse h

theorem map {f g : Token → Token} (h : Alike ts us)
    (hfg : ∀ t u, t.Alike u → (f t).Alike (g u)) : Alike (ts.map f) (us.map g) := by
  induction h with
  | nil => exact .nil
  | cons ht _ ih => exact .cons (hfg _ _ ht) ih

theorem filter {p : Token → Bool} (h : Alike ts us) (hp : ∀ t u, t.Alike u → p t = p u) :
    Alike (ts.filter p) (us.filter p) := by
  induction h with
  | nil => exact .nil
  | @cons t u ts us ht _ ih =>
    rw [List.filter_cons, List.filter_cons, hp t u ht]
    split
    · exact .cons ht ih
    · exact ih

/-- The first tokens of alike lists are the same mark or neither is it. -/
theorem head_is (h : Alike ts us) (text : String) :
    (ts.head?.map (·.is text)).getD false = (us.head?.map (·.is text)).getD false := by
  cases h with
  | nil => rfl
  | cons ht _ => exact ht.is text

theorem joinTexts (h : Alike ts us) : IdlReader.joinTexts ts = IdlReader.joinTexts us := by
  have hTexts : ts.map Token.text = us.map Token.text := by
    induction h with
    | nil => rfl
    | cons ht _ ih => rw [List.map_cons, List.map_cons, ht.text, ih]
  rw [IdlReader.joinTexts, IdlReader.joinTexts, hTexts]

end Alike

/-! ## Splitting a text -/

namespace Token

variable {l : Lexicon} {directives : Bool}

theorem alike_next (source source' : SourceId) (c : Cursor) :
    Corresponds (fun x y => x.1.Alike y.1 ∧ x.2 = y.2) (next l directives source c)
      (next l directives source' c) := by
  unfold next
  dsimp only
  split
  · exact .ok ⟨⟨rfl, rfl, rfl⟩, rfl⟩
  · split
    · exact .ok ⟨⟨rfl, rfl, rfl⟩, rfl⟩
    · refine Corresponds.bind (.refl (S := (· = ·)) (fun _ => rfl) _) ?_
      rintro x _ rfl
      exact .ok ⟨⟨rfl, rfl, rfl⟩, rfl⟩

theorem alike_readAll (source source' : SourceId) (n : Nat) (c : Cursor) :
    IdlReader.Alike (readAll l directives source n c).1 (readAll l directives source' n c).1 ∧
      (readAll l directives source n c).2.isSome = (readAll l directives source' n c).2.isSome := by
  induction n generalizing c with
  | zero => exact ⟨.nil, rfl⟩
  | succ n ih =>
    have hNext := @alike_next l directives source source' c
    rw [readAll, readAll]
    revert hNext
    generalize next l directives source c = x
    generalize next l directives source' c = y
    intro hNext
    cases hNext with
    | error f f' => exact ⟨.nil, rfl⟩
    | @ok a b hab =>
      obtain ⟨t, c⟩ := a
      obtain ⟨u, d⟩ := b
      obtain ⟨ht, hc⟩ := hab
      dsimp only at ht hc ⊢
      subst hc
      rw [ht.isFinish]
      split
      · exact ⟨.cons ht .nil, rfl⟩
      · exact ⟨.cons ht (ih c).1, (ih c).2⟩

end Token

/-! ## Tokens of texts -/

/-- Tokens that are read of a text come from no expansion. -/
theorem Token.expanded_next {l : Lexicon} {directives : Bool} {source : SourceId} {c : Cursor} :
    Ok (next l directives source c) fun x => x.1.expanded = false := by
  unfold next
  dsimp only
  split
  · exact ok_ok rfl
  · split
    · exact ok_ok rfl
    · exact ok_bind (P := fun _ => True) (fun _ _ => trivial) fun _ _ => ok_ok rfl

theorem Token.expanded_readAll {l : Lexicon} {directives : Bool} {source : SourceId} (n : Nat)
    (c : Cursor) : ∀ t ∈ (readAll l directives source n c).1, t.expanded = false := by
  induction n generalizing c with
  | zero => exact nofun
  | succ n ih =>
    rw [readAll]
    cases hNext : next l directives source c with
    | error f => exact nofun
    | ok x =>
      have ht := expanded_next x hNext
      dsimp only
      split
      · exact List.forall_mem_singleton.mpr ht
      · exact List.forall_mem_cons.mpr ⟨ht, ih x.2⟩

theorem expanded_tokenize {l : Lexicon} {directives : Bool} {source : SourceId} {text : List Char} :
    Ok (tokenize l directives source text) fun ts => ∀ t ∈ ts, t.expanded = false := by
  have hAll := @Token.expanded_readAll l directives source (text.length + 1) (Cursor.ofText text)
  unfold tokenize Token.ofText
  revert hAll
  generalize Token.readAll l directives source (text.length + 1) (Cursor.ofText text) = x
  obtain ⟨ts, f⟩ := x
  intro hAll
  cases f with
  | some f => exact ok_error _ _
  | none => exact ok_ok fun t ht => hAll t (List.mem_filter.mp ht).1

/-- Tokens of texts are alike if they agree in kind and text. -/
theorem Alike.of_unplaced {ts us : List Token} (hts : ∀ t ∈ ts, t.expanded = false)
    (hus : ∀ u ∈ us, u.expanded = false) (h : ts.map Token.unplaced = us.map Token.unplaced) :
    Alike ts us := by
  induction ts generalizing us with
  | nil =>
    rw [List.map_eq_nil_iff.mp h.symm]
    exact .nil
  | cons t ts ih =>
    obtain ⟨u, us, rfl, hu, h⟩ := List.map_eq_cons_iff.mp h.symm
    rw [List.forall_mem_cons] at hts hus
    obtain ⟨hKind, hText⟩ := Token.unplaced_eq_iff.mp hu
    exact .cons ⟨hKind.symm, hText.symm, hts.1.trans hus.1.symm⟩ (ih hts.2 hus.2 h.symm)

/-- The source that a text is in only shows in the places of its tokens. -/
theorem alike_tokenize {l : Lexicon} {directives : Bool} (source source' : SourceId)
    (text : List Char) :
    Corresponds Alike (tokenize l directives source text) (tokenize l directives source' text) := by
  have hAll := @Token.alike_readAll l directives source source'
    (text.length + 1) (Cursor.ofText text)
  unfold tokenize Token.ofText
  revert hAll
  generalize Token.readAll l directives source (text.length + 1) (Cursor.ofText text) = x
  generalize Token.readAll l directives source' (text.length + 1) (Cursor.ofText text) = y
  obtain ⟨ts, f⟩ := x
  obtain ⟨us, f'⟩ := y
  rintro ⟨hTokens, hFault⟩
  cases f with
  | none =>
    cases f' with
    | none => exact .ok (hTokens.filter fun t u h => by rw [h.kind])
    | some f' => cases hFault
  | some f =>
    cases f' with
    | none => cases hFault
    | some f' => exact .error f f'

end IdlReader
