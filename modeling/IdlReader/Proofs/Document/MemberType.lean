import IdlReader.Proofs.Document.Repetition
import IdlReader.Proofs.Grammar.ReadMember

/-!
# Members whose type is named behind a keyword

In the body of a struct or an exception, a statement such as `struct S n;` names a definition of the
body or of what encloses it. It adds the member that it writes and nothing more, if the type is written
by one identifier and the name of the member is an identifier, too. A keyword as the name, or more
segments of the type, let the statement be read as a definition.

* `Names.exists_passes`, `Names.simple`: what the statement is read as.
* `Document.named_members`: documents.
-/

namespace IdlReader

open IdlReader.Tree

namespace Document

variable {env : Environment} {files : FileTree} {input : Input} {r : Reader} {o found : EntityId}
  {v u : Session} {ts : List Token} {x : EntityId} {n : Nat}

/-- Whether a member comes next at a place in the body `o` that who reads a document comes to in the
session `v`. The name of its type leads to the definition `found`. -/
structure Names (env : Environment) (files : FileTree) (input : Input) (o : EntityId) (v : Session)
    (m : WrittenMember v.env) (ts : List Token) (found : EntityId) : Prop where
  reaches : ∃ r, reader env files input = .ok r ∧ Reaches env r.stream o v
  awaits : v.Awaits v.env (m.tokens ++ ts) fun _ => True
  fits : m.Fits v.tree o found

namespace Names

variable {m : WrittenMember v.env} (h : Names env files input o v m ts found)
include h

theorem sound_body : v.Sound ∧ Parsing.Body v.tree o := by
  obtain ⟨r, hReader, hReaches⟩ := h.reaches
  exact hReaches.sound_body (lexical_reader env files input r hReader)

/-- The keyword comes first. -/
theorem exists_peek : ∃ s, Parsing.peek 0 v = .ok m.keyword s ∧
    s.Awaits v.env (m.tokens ++ ts) (Records v.tree) := by
  have hStarts : v.Awaits v.env (m.tokens ++ ts) (Records v.tree) :=
    h.awaits.mono fun _ => .refl v.tree
  have hLasting : Lasting (Records v.tree) := fun _ _ hRecords hBefore => hBefore.trans hRecords
  obtain ⟨t, s, hPeek, rfl, hs⟩ := (Parsing.ends_peek (E := fun _ => False) hStarts hLasting
    (i := 0) (t := m.keyword) rfl).exists_ok
  exact ⟨s, hPeek, hs⟩

/-- Identifiers only are read as the member that they write. -/
theorem exists_passes (hSimple : m.type.IsSimple) (hIdentifier : m.name.isIdentifier = true)
    (n : Nat) : ∃ u x, Parsing.Passes n o v u ∧
      v.tree.Gets u.tree o x .field m.name.text (m.declaration found) := by
  obtain ⟨hv, -⟩ := h.sound_body
  obtain ⟨s, hPeek, hs⟩ := h.exists_peek
  have hTokens : Lexical m.tokens := by
    have hAll := lexical_append.mpr ⟨hv.cache, hv.stream⟩
    rw [h.awaits.tokens] at hAll
    exact (lexical_append.mp hAll).1
  obtain ⟨⟨⟩, u, hStatement, x, hu⟩ := (Parsing.ends_readMember (E := fun _ => False) hv.reachable
    h.fits hSimple hIdentifier hTokens (Parsing.contentWithin n) hs).exists_ok
  have hKeyword := (Parsing.keyword_of_ofKeyword? m.hKeyword).1
  exact ⟨u, x, ⟨m.keyword, s, hPeek, Token.not_isFinish_of_isKeyword hKeyword,
    Parsing.not_is_of_ofKeyword? m.hKeyword (by decide), hStatement⟩, hu.tree⟩

/-- What adds just one member is written by identifiers only. -/
theorem simple (hPasses : Parsing.Passes n o v u)
    (hGets : v.tree.Gets u.tree o x .field m.name.text (m.declaration found)) :
    m.type.IsSimple ∧ m.name.isIdentifier = true := by
  obtain ⟨hv, hBody⟩ := h.sound_body
  obtain ⟨s, hPeek, hs⟩ := h.exists_peek
  obtain ⟨t', s', hPeek', -, -, hStatement⟩ := hPasses
  cases hPeek.symm.trans hPeek'
  obtain ⟨a, b, us, hTokens, hTwo⟩ := m.exists_second
  refine hTwo.mp ?_
  by_contra hNot
  obtain ⟨hSound, hSteps, -⟩ := (Parsing.keeps_peek 0).grows (R := Steps) hv _ s hPeek
  have hCalm := ((Parsing.keeps_peek 0).grows (R := Quiet) hv _ s hPeek).2.1.calm
  rw [hTokens] at hs
  obtain ⟨-, -, i, hNew, hLt, hKind⟩ := Parsing.places_readStatement hSound
    (hBody.steps hSteps hCalm) m.hKeyword (Bool.eq_false_iff.mpr hNot) (hs.mono fun _ => trivial)
    n _ u hStatement
  -- What is new is the member or a directive, neither of which is a definition.
  have hDefinition := Parsing.isDefinition_of_ofKeyword? m.hKeyword
  rw [← hKind] at hDefinition
  by_cases hi : i = x
  · rw [hi, hGets.kind] at hDefinition
    cases hDefinition
  · rw [hGets.added i (Nat.le_trans (hv.extends hSteps).size hNew) hLt hi] at hDefinition
    cases hDefinition

end Names

/-- **Members of named types.** In a body, the statement of a member whose type is named behind the
keyword of its kind adds just this member, with the definition that the name leads to as its type, if
and only if the type and the member are written by one identifier each. -/
theorem named_members {m : WrittenMember v.env} (h : Names env files input o v m ts found) (n : Nat) :
    (∃ u x, Parsing.Passes n o v u ∧
        v.tree.Gets u.tree o x .field m.name.text (m.declaration found)) ↔
      m.type.IsSimple ∧ m.name.isIdentifier = true :=
  ⟨fun ⟨_, _, hPasses, hGets⟩ => h.simple hPasses hGets,
    fun ⟨hSimple, hIdentifier⟩ => h.exists_passes hSimple hIdentifier n⟩

/-! ## Two structs -/

/-- A struct, and another one with a member of its type. -/
def structsText (member : String) : String :=
  "struct S \x7b long a; \x7d;\nstruct T \x7b struct S " ++ member ++ "; \x7d;"

/-- The keyword and the type of the member. -/
def structTokens : Token × Token :=
  (⟨.keyword, "struct", ⟨⟨2, 12⟩, ⟨2, 18⟩⟩, 0, false⟩,
    ⟨.identifier, "S", ⟨⟨2, 19⟩, ⟨2, 20⟩⟩, 0, false⟩)

/-- What stands behind the name of the member. -/
def behindName (name : Token) : Token :=
  ⟨.separator, ";", ⟨name.span.last, ⟨name.span.last.line, name.span.last.col + 1⟩⟩, 0, false⟩

/-- The member with a name. -/
def structMember (env : Environment) (name : Token) (hName : name.isIdentifier = true ∨
    name.isKeyword = true ∧ env.enables .contextDependentNames = true) : WrittenMember env where
  kind := .struct
  base := .struct
  keyword := structTokens.1
  type := ⟨none, structTokens.2, [], nofun, rfl, List.forall_mem_nil _⟩
  name := name
  terminator := behindName name
  hKind := rfl
  hBase := rfl
  hKeyword := by decide
  hName := hName
  hTerminator := rfl

/-- Reads the first struct and opens the second one. Gives the tokens that were looked at, whether the
root admits what is opened, its kind and number, and whether it has no body. -/
def secondBody : Parsing (List Token × Bool × Option EntityKind × EntityId × Bool) := do
  let t ← Parsing.peek 0
  Parsing.readStatement (Parsing.contentWithin 18) root
  let u ← Parsing.peek 0
  let r ← Parsing.openStatement root
  let o ← Parsing.openDefinition root .struct r.2.1 r.1.modifiers.isLocal
    (if r.1.modifiers.declares then [] else r.1.comments)
  return ([t, u], r.1.ownerKind.admits (.definition .struct), r.2.2, o)

/-- Whether the second body is opened in a text, and a session there has a property. -/
def opensSecond (text : String) (p : Session → Bool) : Bool :=
  (reader {} ⟨[], []⟩ (.text text)).toOption.any fun r => r.stream.deliveries.length == 17 &&
    match secondBody (session {} r.stream) with
    | .ok x v => x.1.all (fun t => !t.isFinish && !t.is "\x7d") && x.2.1 &&
        x.2.2 == (some .struct, 3, false) && p v
    | .error _ _ => false

theorem reaches_second {text : String} {p : Session → Bool} (h : opensSecond text p = true) :
    ∃ r v, reader {} ⟨[], []⟩ (.text text) = .ok r ∧ Reaches {} r.stream 3 v ∧ p v = true := by
  obtain ⟨r, hReader, h⟩ := any_toOption h
  rw [Bool.and_eq_true, beq_iff_eq] at h
  obtain ⟨hLength, h⟩ := h
  cases hRun : secondBody (session {} r.stream) with
  | error f s =>
    rw [hRun] at h
    cases h
  | ok x v =>
    rw [hRun] at h
    simp only [Bool.and_eq_true, beq_iff_eq] at h
    obtain ⟨⟨⟨hTokens, hAdmits⟩, hOpened⟩, hp⟩ := h
    obtain ⟨t, s, hPeek, hRun⟩ := Parsing.bind_eq_ok.mp hRun
    obtain ⟨⟨⟩, u, hStatement, hRun⟩ := Parsing.bind_eq_ok.mp hRun
    obtain ⟨t', s', hPeek', hRun⟩ := Parsing.bind_eq_ok.mp hRun
    obtain ⟨⟨st, keyword, kind?⟩, w, hOpen, hRun⟩ := Parsing.bind_eq_ok.mp hRun
    obtain ⟨⟨id, forward⟩, w', hDefinition, hRun⟩ := Parsing.bind_eq_ok.mp hRun
    cases hRun
    cases hOpened
    simp only [List.all_cons, List.all_nil, Bool.and_true, Bool.and_eq_true, Bool.not_eq_true'] at hTokens
    obtain ⟨⟨hFinish, hBrace⟩, hFinish', hBrace'⟩ := hTokens
    refine ⟨r, v, hReader, ?_, hp⟩
    unfold Reaches
    rw [hLength]
    exact .behind ⟨t, s, hPeek, hFinish, hBrace, hStatement⟩
      (.within ⟨t', s', keyword, .struct, w, hPeek', hFinish', hBrace', hOpen, nofun, hAdmits,
        hDefinition⟩ .here)

/-- Whether the member with a name comes next and can be added. -/
def isNext (name : Token) (v : Session) : Bool :=
  let ts := v.cache ++ v.stream.tokens
  v.env.enables .contextDependentNames &&
    ts.take 4 == [structTokens.1, structTokens.2, name, behindName name] &&
    ts.all (fun t => !t.isFinish) && v.stream.ending.toOption.isSome && decide (0 < v.tree.size) &&
    (v.tree.get 3).kind == .struct && v.tree.findType 3 "S" == some 1 &&
    (v.tree.get 1).kind == .struct && !(v.tree.get 1).forward && (v.tree.get 3).scope == some 2 &&
    (v.tree.scope 2).get? true (v.tree.key name.text) == none &&
    v.tree.lookupInBases 3 (v.tree.key name.text) == none

theorem names_second {text : String} {name : Token}
    (hName : name.isIdentifier = true ∨ name.isKeyword = true)
    (h : opensSecond text (isNext name) = true) :
    ∃ (v : Session) (ts : List Token) (hEnabled : v.env.enables .contextDependentNames = true),
      Names {} ⟨[], []⟩ (.text text) 3 v
        (structMember v.env name (hName.imp_right fun hKeyword => ⟨hKeyword, hEnabled⟩)) ts 1 := by
  obtain ⟨r, v, hReader, hReaches, h⟩ := reaches_second h
  unfold isNext at h
  simp only [Bool.and_eq_true, beq_iff_eq, decide_eq_true_eq, Bool.not_eq_true', List.all_eq_true] at h
  obtain ⟨⟨⟨⟨⟨⟨⟨⟨⟨⟨⟨hEnabled, hTokens⟩, hFinish⟩, hEnding⟩, hPos⟩, hBody⟩, hType⟩, hKind⟩, hFull⟩,
    hScope⟩, hOwn⟩, hInherited⟩ := h
  obtain ⟨g, hEnding⟩ := Option.isSome_iff_exists.mp hEnding
  have hOk : v.stream.ending = .ok g := by
    cases hCase : v.stream.ending with
    | ok g' =>
      rw [hCase] at hEnding
      cases hEnding
      rfl
    | error f =>
      rw [hCase] at hEnding
      cases hEnding
  refine ⟨v, (v.cache ++ v.stream.tokens).drop 4, hEnabled, ⟨r, hReader, hReaches⟩,
    ⟨rfl, ?_, ?_, ⟨g, hOk⟩, hPos, trivial⟩, Or.inl hBody, hType, hKind, hFull, ⟨2, hScope, hOwn⟩,
    hInherited⟩
  · exact (List.take_append_drop 4 _).symm.trans (congrArg (· ++ _) hTokens)
  · intro t ht
    refine hFinish t ?_
    rw [← List.take_append_drop 4 (v.cache ++ v.stream.tokens), hTokens]
    exact ht

/-- The member `x` of the type `S`. -/
theorem named_members_struct : ∃ (v : Session) (ts : List Token) (m : WrittenMember v.env),
    Names {} ⟨[], []⟩ (.text (structsText "x")) 3 v m ts 1 ∧
      ∃ u x, Parsing.Passes 0 3 v u ∧ v.tree.Gets u.tree 3 x .field "x" (m.declaration 1) := by
  have hName : (⟨.identifier, "x", ⟨⟨2, 21⟩, ⟨2, 22⟩⟩, 0, false⟩ : Token).isIdentifier = true := rfl
  have hNext : opensSecond (structsText "x")
      (isNext ⟨.identifier, "x", ⟨⟨2, 21⟩, ⟨2, 22⟩⟩, 0, false⟩) = true := by
    decide +kernel
  obtain ⟨v, ts, hEnabled, h⟩ := names_second (Or.inl hName) hNext
  exact ⟨v, ts, _, h, (named_members h 0).mpr ⟨⟨rfl, rfl⟩, rfl⟩⟩

/-- A keyword is a name, too, but the statement of such a member adds more than the member. -/
theorem named_members_keyword :
    ¬ ∀ (env : Environment) (files : FileTree) (input : Input) (o found : EntityId) (v : Session)
        (m : WrittenMember v.env) (ts : List Token) (n : Nat),
      Names env files input o v m ts found →
      ∃ u x, Parsing.Passes n o v u ∧
        v.tree.Gets u.tree o x .field m.name.text (m.declaration found) := by
  intro hClaim
  have hName : (⟨.keyword, "in", ⟨⟨2, 21⟩, ⟨2, 23⟩⟩, 0, false⟩ : Token).isKeyword = true := rfl
  have hNext : opensSecond (structsText "in")
      (isNext ⟨.keyword, "in", ⟨⟨2, 21⟩, ⟨2, 23⟩⟩, 0, false⟩) = true := by
    decide +kernel
  obtain ⟨v, ts, hEnabled, h⟩ := names_second (Or.inr hName) hNext
  obtain ⟨u, x, hPasses, hGets⟩ := hClaim _ _ _ _ _ _ _ _ 0 h
  have hIdentifier := (h.simple hPasses hGets).2
  cases hIdentifier

end Document

end IdlReader
