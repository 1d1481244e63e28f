import IdlReader.Proofs.Constant.Numeral
import IdlReader.Proofs.Grammar.Ending
import IdlReader.Proofs.Grammar.WrittenType

/-!
# Reading types

A type whose tokens come next is read, and the token behind it comes next then. The type takes just
the brackets that close its own sections: of a token of two brackets that closes a section around it
too, one is put back (`Closers`).

* `ends_closeTemplate`: one bracket is taken.
* `takes_typeWithin`: a type in front of more brackets.
-/

namespace IdlReader

/-- Whether certain tokens come next in a session, whatever stands behind them. -/
structure Session.Coming (s : Session) (env : Environment) (ts : List Token) : Prop where
  env : s.env = env
  tokens : s.cache ++ s.stream.tokens = ts

/-- Whether tokens are brackets that close a number of sections, one or two at a time. -/
inductive Closers : Nat → List Token → Prop where
  | nil : Closers 0 []
  | one {t : Token} {ts : List Token} {n : Nat} (ht : t.spelling = (.operator, ">"))
      (hRest : Closers n ts) : Closers (n + 1) (t :: ts)
  | two {t : Token} {ts : List Token} {n : Nat} (ht : t.spelling = (.operator, ">>"))
      (hRest : Closers n ts) : Closers (n + 2) (t :: ts)

theorem closers_of_spelling {n : Nat} {ts : List Token} (h : ts.map Token.spelling = closing n) :
    Closers n ts := by
  induction n using Nat.strongRecOn generalizing ts with
  | ind n ih =>
  match n with
  | 0 =>
    obtain rfl := List.map_eq_nil_iff.mp h
    exact .nil
  | 1 =>
    obtain ⟨t, us, rfl, ht, hus⟩ := List.map_eq_cons_iff.mp h
    obtain rfl := List.map_eq_nil_iff.mp hus
    exact .one ht .nil
  | n + 2 =>
    rw [closing_add_two] at h
    obtain ⟨t, us, rfl, ht, hus⟩ := List.map_eq_cons_iff.mp h
    exact .two ht (ih n (by omega) hus)

theorem Closers.exists_cons {n : Nat} {cs : List Token} (h : Closers (n + 1) cs) :
    ∃ t ts, cs = t :: ts ∧ t.is "," = false ∧ t.isFinish = false := by
  generalize hCount : n + 1 = m at h
  cases h with
  | nil => cases hCount
  | one ht =>
    exact ⟨_, _, rfl, Token.is_of_spelling ht (by decide) _, Token.isFinish_of_spelling ht nofun⟩
  | two ht =>
    exact ⟨_, _, rfl, Token.is_of_spelling ht (by decide) _, Token.isFinish_of_spelling ht nofun⟩

/-- Whether a token is no further word of a name in front of it. -/
structure Token.EndsName (name : String) (t : Token) : Prop where
  finish : t.isFinish = false
  word : BaseType.goesOn name t.text = false

/-- Whether a token does not continue a type that is written by a name in front of it. -/
structure Token.Stops (name : String) (t : Token) : Prop extends t.EndsName name where
  opening : t.is "<" = false

theorem Token.endsName_of_spelling {t : Token} {kind : TokenKind} {text : String}
    (h : t.spelling = (kind, text)) (hKind : kind ∈ [.separator, .operator])
    (hText : text ∉ ["long", "double"]) (name : String) : t.EndsName name := by
  simp only [List.mem_cons, List.not_mem_nil, or_false, not_or] at hKind hText
  have hSame : t.text = text := congrArg Prod.snd h
  refine ⟨Token.isFinish_of_spelling h ?_, ?_⟩
  · rcases hKind with rfl | rfl <;> exact nofun
  · rw [hSame]
    simp [BaseType.goesOn, hText.1, hText.2]

theorem Token.stops_of_spelling {t : Token} {kind : TokenKind} {text : String}
    (h : t.spelling = (kind, text)) (hKind : kind ∈ [.separator, .operator])
    (hText : text ∉ ["long", "double"]) (hOpening : text ≠ "<") (name : String) : t.Stops name := by
  refine ⟨Token.endsName_of_spelling h hKind hText name, ?_⟩
  have hPlain : kind ∈ [TokenKind.identifier, .keyword, .separator, .operator] := by
    simp only [List.mem_cons, List.not_mem_nil, or_false] at hKind
    rcases hKind with rfl | rfl <;> decide
  exact (Token.is_of_spelling h hPlain _).trans (beq_false_of_ne hOpening)

/-- The token behind a type with brackets behind it, or in front of what does not continue it. -/
theorem stops_of_closers {n : Nat} {name : String} {cs rest : List Token} (h : Closers n cs)
    (hRest : n = 0 → ∃ u us, rest = u :: us ∧ u.Stops name) :
    ∃ u us, cs ++ rest = u :: us ∧ u.Stops name := by
  cases h with
  | nil => exact hRest rfl
  | one ht => exact ⟨_, _, rfl, Token.stops_of_spelling ht (by decide) (by decide) nofun name⟩
  | two ht => exact ⟨_, _, rfl, Token.stops_of_spelling ht (by decide) (by decide) nofun name⟩

/-! ## Names -/

namespace BaseType

/-- The names of more than one word, and the name that more words may follow. -/
theorem words_cases : ∀ x ∈ allNames, (words x.1 = [x.1] ∧ x.1 ≠ "long" ∧ x.1 ≠ "unsigned") ∨
    x.1 ∈ ["long", "long long", "long double", "unsigned short", "unsigned long",
      "unsigned long long"] := by
  decide +kernel

/-- The base type of each name, if all extensions are enabled. -/
theorem ofText?_of_mem {env : Environment} {x : String × BaseType} (hx : x ∈ allNames)
    (hAll : ∀ e, env.enables e = true) : ofText? env x.1 = some x.2 := by
  have hTable : ∀ x ∈ allNames, names.lookup x.1 = some x.2 ∨
      names.lookup x.1 = none ∧ (extensionNames.lookup x.1).map Prod.fst = some x.2 := by
    decide +kernel
  unfold ofText?
  rcases hTable x hx with hName | ⟨hName, hMore⟩
  · rw [hName]
  · obtain ⟨⟨b, e⟩, hMore, hBase⟩ := Option.map_eq_some_iff.mp hMore
    rw [hName, hMore]
    exact (if_pos (hAll e)).trans (congrArg some hBase)

end BaseType

namespace Parsing

variable {α : Type} {s : Session} {env : Environment} {t u : Token} {ts : List Token} {E : Fault → Prop}

/-! ## Tokens -/

theorem ends_fetch_coming (h : s.stream.tokens = t :: ts) :
    Ends fetch s (fun u s' => u = t ∧ s'.env = s.env ∧ s'.cache = s.cache ∧
      s'.stream.tokens = ts) E := by
  unfold fetch
  refine Ends.get ?_
  cases hDeliveries : s.stream.deliveries with
  | nil =>
    rw [Stream.tokens, hDeliveries] at h
    cases h
  | cons d ds =>
    rw [Stream.tokens, hDeliveries, List.map_cons] at h
    obtain ⟨hToken, hRest⟩ := List.cons.inj h
    exact ⟨hToken, rfl, rfl, hRest⟩

theorem ends_next_coming (h : s.Coming env (t :: ts)) :
    Ends next s (fun u s' => u = t ∧ s'.Coming env ts) E := by
  have hTokens := h.tokens
  unfold next
  refine Ends.get ?_
  cases hCache : s.cache with
  | cons v vs =>
    rw [hCache, List.cons_append] at hTokens
    obtain ⟨hToken, hRest⟩ := List.cons.inj hTokens
    exact ⟨hToken, h.env, hRest⟩
  | nil =>
    rw [hCache, List.nil_append] at hTokens
    refine (ends_fetch_coming hTokens).mono ?_
    rintro v s' ⟨hToken, hEnv, hSame, hRest⟩
    refine ⟨hToken, hEnv.trans h.env, ?_⟩
    rw [hSame, hCache, hRest, List.nil_append]

theorem ends_peek_coming (h : s.Coming env (t :: ts)) (ht : t.isFinish = false) :
    Ends (peek 0) s (fun u s' => u = t ∧ s'.Coming env (t :: ts)) E := by
  have hTokens := h.tokens
  unfold peek
  refine Ends.get ?_
  cases hCache : s.cache with
  | cons v vs =>
    rw [hCache, List.cons_append] at hTokens
    have hNone : 0 + 1 - (v :: vs).length = 0 := by simp
    rw [hNone]
    refine Ends.get ⟨?_, h⟩
    rw [hCache]
    exact (List.cons.inj hTokens).1
  | nil =>
    rw [hCache, List.nil_append] at hTokens
    have hFill : Ends (fill 1) s (fun u? s' => u? = none ∧ s'.cache = [t] ∧
        s'.Coming env (t :: ts)) E := by
      unfold fill
      refine (ends_fetch_coming hTokens).bind ?_
      rintro v s' ⟨rfl, hEnv, hSame, hRest⟩
      rw [if_neg (by simp [ht])]
      refine Ends.modify ⟨rfl, ?_, hEnv.trans h.env, ?_⟩
      · change s'.cache ++ [v] = [v]
        rw [hSame, hCache, List.nil_append]
      · change s'.cache ++ [v] ++ s'.stream.tokens = v :: ts
        rw [hSame, hCache, hRest]
        rfl
    refine hFill.bind ?_
    rintro u? s' ⟨rfl, hHead, hComing⟩
    refine Ends.get ⟨?_, hComing⟩
    rw [hHead]
    rfl

theorem ends_putBack_coming (h : s.Coming env ts) (ht : t.isFinish = false) :
    Ends (putBack t) s (fun _ s' => s'.Coming env (t :: ts)) E := by
  unfold putBack
  rw [if_neg (by simp [ht])]
  exact ⟨h.env, congrArg (t :: ·) h.tokens⟩

theorem Ends.tokensComing {β : Type} {f : Nat → Parsing β} {P : β → Session → Prop}
    (h : s.Coming env ts) (hf : Ends (f (ts.length + 2)) s P E) :
    Ends (Parsing.tokensLeft >>= f) s P E := by
  have hLength := congrArg List.length h.tokens
  rw [List.length_append, Stream.tokens, List.length_map] at hLength
  have hCount : s.stream.deliveries.length + s.cache.length + 2 = ts.length + 2 := by omega
  change Ends (f (s.stream.deliveries.length + s.cache.length + 2)) s P E
  rw [hCount]
  exact hf

/-! ## Sections -/

theorem ends_expectMark_coming {text : String} {cause : Cause} (h : s.Coming env (t :: ts))
    (ht : t.is text = true) :
    Ends (expectMark text cause) s (fun _ s' => s'.Coming env ts) E := by
  unfold expectMark
  refine (ends_next_coming h).bind ?_
  rintro v s' ⟨rfl, h'⟩
  rw [if_pos ht]
  exact Ends.pure h'

/-- A mark that comes next is taken. -/
theorem ends_takeIf_mark {text : String} {f : Bool → Parsing α} {P : α → Session → Prop}
    (h : s.Coming env (t :: ts)) (ht : t.isFinish = false) (hMark : t.is text = true)
    (hf : ∀ s', s'.Coming env ts → Ends (f true) s' P E) : Ends (takeIf text >>= f) s P E := by
  refine Ends.bind (P := fun taken s' => taken = true ∧ s'.Coming env ts) ?_ ?_
  · unfold takeIf
    refine (ends_peek_coming h ht).bind ?_
    rintro v s' ⟨rfl, h'⟩
    rw [if_pos hMark]
    refine (ends_next_coming h').bind ?_
    rintro w s'' ⟨-, h''⟩
    exact Ends.pure ⟨rfl, h''⟩
  · rintro taken s' ⟨rfl, h'⟩
    exact hf s' h'

/-- A mark that does not come next is not taken. -/
theorem ends_takeIf_other {text : String} {f : Bool → Parsing α} {P : α → Session → Prop}
    (h : s.Coming env (t :: ts)) (ht : t.isFinish = false) (hOther : t.is text = false)
    (hf : ∀ s', s'.Coming env (t :: ts) → Ends (f false) s' P E) :
    Ends (takeIf text >>= f) s P E := by
  refine Ends.bind (P := fun taken s' => taken = false ∧ s'.Coming env (t :: ts)) ?_ ?_
  · unfold takeIf
    refine (ends_peek_coming h ht).bind ?_
    rintro v s' ⟨rfl, h'⟩
    rw [if_neg (Bool.eq_false_iff.mp hOther)]
    exact Ends.pure ⟨rfl, h'⟩
  · rintro taken s' ⟨rfl, h'⟩
    exact hf s' h'

/-- Just one bracket is taken. -/
theorem ends_closeTemplate {cause : Cause} {n : Nat} {cs : List Token} (hClosers : Closers (n + 1) cs)
    (h : s.Coming env (cs ++ ts)) :
    Ends (closeTemplate cause) s (fun _ s' => ∃ cs', Closers n cs' ∧ s'.Coming env (cs' ++ ts)) E := by
  unfold closeTemplate
  generalize hCount : n + 1 = m at hClosers
  cases hClosers with
  | nil => cases hCount
  | @one t cs m ht hRest =>
    cases hCount
    refine (ends_next_coming h).bind ?_
    rintro v s' ⟨rfl, h'⟩
    rw [Token.is_of_spelling ht (by decide), Token.is_of_spelling ht (by decide)]
    exact Ends.pure ⟨cs, hRest, h'⟩
  | @two t cs m ht hRest =>
    cases hCount
    refine (ends_next_coming h).bind ?_
    rintro v s' ⟨rfl, h'⟩
    rw [Token.is_of_spelling ht (by decide), if_pos (by decide)]
    have hKind : v.kind = .operator := congrArg Prod.fst ht
    have hFinish : (v.kind == TokenKind.finish) = false := by
      rw [hKind]
      decide
    dsimp only
    refine Ends.mono (ends_putBack_coming h' hFinish) fun _ s'' h'' => ?_
    have hHalf : ∀ p, Closers (m + 1) ({ v with text := ">", span := p } :: cs) := fun p =>
      .one (Prod.ext hKind rfl) hRest
    exact ⟨_, hHalf _, h''⟩

/-- A number in decimal digits is read as it is written. -/
theorem ends_templateNumber {least n : Nat} {cause : Cause}
    (ht : t.spelling = (.literal .decInteger, toString n)) (hLeast : least ≤ n) (hn : n < 2 ^ 32)
    (h : s.Coming env (t :: ts)) :
    Ends (templateNumber least cause) s (fun k s' => k = n ∧ s'.Coming env ts) E := by
  obtain ⟨k, hk, hLiteral⟩ := Constant.ofLiteralText_decimal (n := n) (by omega)
  have hKind : t.kind = .literal .decInteger := congrArg Prod.fst ht
  have hText : t.text = toString n := congrArg Prod.snd ht
  have hConstant : Constant.ofLiteral t = .ok (.integer k n hk) := by
    unfold Constant.ofLiteral
    rw [hKind, hText]
    dsimp only
    rw [hLiteral]
    rfl
  unfold templateNumber
  refine (ends_next_coming h).bind ?_
  rintro v s' ⟨rfl, h'⟩
  rw [hKind, hConstant]
  refine (Ends.pure (P := fun c s'' => c = Constant.integer k n hk ∧ s'' = s') ⟨rfl, rfl⟩).bind ?_
  rintro c s'' ⟨rfl, rfl⟩
  rw [if_neg (by simp [Constant.kind, Kind.isIntegral]), Constant.castInt_uint32 hk hn]
  dsimp only
  rw [Int.toNat_natCast, if_pos hLeast]
  exact Ends.pure ⟨rfl, h'⟩

/-! ## Names -/

theorem ends_takeWord_coming {text : String} (h : s.Coming env (t :: ts))
    (ht : t.isFinish = false) :
    Ends (baseTypeText.takeWord text) s (fun taken s' => taken = t.is text ∧
      s'.Coming env (if t.is text then ts else t :: ts)) E := by
  unfold baseTypeText.takeWord
  refine (ends_next_coming h).bind ?_
  rintro v s' ⟨rfl, h'⟩
  cases hIs : v.is text with
  | true => exact Ends.pure ⟨rfl, h'⟩
  | false =>
    refine (ends_putBack_coming h' ht).bind ?_
    intro _ s'' h''
    exact Ends.pure ⟨rfl, h''⟩

/-- The name of a base type in front of what is no further word of it. -/
theorem ends_baseTypeText_coming {x : String × BaseType} (hx : x ∈ BaseType.allNames)
    {ws : List Token}
    (hWords : (t :: ws).map Token.spelling = (BaseType.words x.1).map fun w => (.keyword, w))
    (hu : u.EndsName x.1) (h : s.Coming env (ws ++ u :: ts)) :
    Ends (baseTypeText t) s (fun text s' => text = x.1 ∧ s'.Coming env (u :: ts)) E := by
  have hNames := BaseType.words_cases x hx
  generalize x.1 = name at hWords hNames hu ⊢
  have hIs : ∀ {v : Token} {w : String}, v.spelling = (.keyword, w) → ∀ text,
      v.is text = (w == text) := fun hv => Token.is_of_spelling hv (by decide)
  -- The name of one word, of two and of three.
  have hOne : ∀ {a : String}, BaseType.words name = [a] → t.spelling = (.keyword, a) ∧ ws = [] := by
    intro a hw
    rw [hw] at hWords
    obtain ⟨ht, hws⟩ := List.cons.inj hWords
    exact ⟨ht, List.map_eq_nil_iff.mp hws⟩
  have hTwo : ∀ {a b : String}, BaseType.words name = [a, b] → t.spelling = (.keyword, a) ∧
      ∃ v, v.spelling = (.keyword, b) ∧ ws = [v] := by
    intro a b hw
    rw [hw] at hWords
    obtain ⟨ht, hws⟩ := List.cons.inj hWords
    obtain ⟨v, vs, rfl, hv, hvs⟩ := List.map_eq_cons_iff.mp hws
    obtain rfl := List.map_eq_nil_iff.mp hvs
    exact ⟨ht, v, hv, rfl⟩
  have hText : ∀ {v : Token} {w : String}, v.spelling = (.keyword, w) → v.text = w := fun hv =>
    congrArg Prod.snd hv
  have hNot : ∀ word : String, BaseType.goesOn name word = true → u.is word = false := by
    intro word hGoesOn
    refine Bool.eq_false_iff.mpr fun hWord => ?_
    have hSame : u.text = word := beq_iff_eq.mp (Bool.and_eq_true_iff.mp hWord).2
    have hEnds := hu.word
    rw [hSame, hGoesOn] at hEnds
    cases hEnds
  unfold baseTypeText
  obtain ⟨hw, hLong, hUnsigned⟩ | hMany := hNames
  · obtain ⟨ht, rfl⟩ := hOne hw
    rw [hIs ht, hIs ht, if_neg (by simpa using hLong), if_neg (by simpa using hUnsigned)]
    exact Ends.pure ⟨hText ht, h⟩
  · simp only [List.mem_cons, List.not_mem_nil, or_false] at hMany
    rcases hMany with rfl | rfl | rfl | rfl | rfl | rfl
    · -- "long"
      obtain ⟨ht, rfl⟩ := hOne rfl
      rw [hIs ht, if_pos (by decide)]
      refine (ends_next_coming h).bind ?_
      rintro v s' ⟨rfl, h'⟩
      rw [Token.isOneOf, List.any_cons, List.any_cons, hNot "long" (by decide),
        hNot "double" (by decide)]
      refine (ends_putBack_coming h' hu.finish).bind fun _ s'' h'' => ?_
      exact Ends.pure ⟨hText ht, h''⟩
    · -- "long long"
      obtain ⟨ht, v, hv, rfl⟩ := hTwo rfl
      rw [hIs ht, if_pos (by decide)]
      refine (ends_next_coming h).bind ?_
      rintro v' s' ⟨rfl, h'⟩
      rw [Token.isOneOf, List.any_cons, hIs hv, hText hv, hText ht]
      exact Ends.pure ⟨rfl, h'⟩
    · -- "long double"
      obtain ⟨ht, v, hv, rfl⟩ := hTwo rfl
      rw [hIs ht, if_pos (by decide)]
      refine (ends_next_coming h).bind ?_
      rintro v' s' ⟨rfl, h'⟩
      rw [Token.isOneOf, List.any_cons, List.any_cons, hIs hv, hIs hv, hText hv, hText ht]
      exact Ends.pure ⟨rfl, h'⟩
    · -- "unsigned short"
      obtain ⟨ht, v, hv, rfl⟩ := hTwo rfl
      rw [hIs ht, hIs ht, if_neg (by decide), if_pos (by decide)]
      refine (ends_next_coming h).bind ?_
      rintro v' s' ⟨rfl, h'⟩
      rw [hIs hv, if_pos (by decide)]
      exact Ends.pure ⟨rfl, h'⟩
    · -- "unsigned long"
      obtain ⟨ht, v, hv, rfl⟩ := hTwo rfl
      rw [hIs ht, hIs ht, if_neg (by decide), if_pos (by decide)]
      refine (ends_next_coming h).bind ?_
      rintro v' s' ⟨rfl, h'⟩
      rw [hIs hv, hIs hv, if_neg (by decide), if_pos (by decide)]
      refine (ends_takeWord_coming h' hu.finish).bind ?_
      rintro taken s'' ⟨rfl, h''⟩
      rw [hNot "long" (by decide)] at h'' ⊢
      exact Ends.pure ⟨rfl, h''⟩
    · -- "unsigned long long"
      obtain ⟨ht, hws⟩ := List.cons.inj hWords
      obtain ⟨v, vs, rfl, hv, hvs⟩ := List.map_eq_cons_iff.mp hws
      obtain ⟨w, ws, rfl, hw, hws⟩ := List.map_eq_cons_iff.mp hvs
      obtain rfl := List.map_eq_nil_iff.mp hws
      rw [hIs ht, hIs ht, if_neg (by decide), if_pos (by decide)]
      refine (ends_next_coming h).bind ?_
      rintro v' s' ⟨rfl, h'⟩
      rw [hIs hv, hIs hv, if_neg (by decide), if_pos (by decide)]
      refine (ends_takeWord_coming h' (Token.isFinish_of_spelling hw nofun)).bind ?_
      rintro taken s'' ⟨rfl, h''⟩
      rw [hIs hw] at h'' ⊢
      exact Ends.pure ⟨rfl, h''⟩

/-! ## Types -/

variable {scope : EntityId}

/-- What is read behind the name of a base type. -/
theorem ends_typeWithin_name {P : DeclaredType → Session → Prop} {x : String × BaseType}
    (hx : x ∈ BaseType.allNames) (hAll : ∀ e, env.enables e = true) {ws : List Token}
    (hWords : ws.map Token.spelling = (BaseType.words x.1).map fun w => (.keyword, w))
    (hu : u.EndsName x.1) (h : s.Coming env (ws ++ u :: ts)) {budget : Nat}
    (hBase : ∀ t s', s'.Coming env (u :: ts) →
      Ends (baseType (typeWithin scope budget) scope t x.2 x.1) s' P E) :
    Ends (typeWithin scope (budget + 1)) s P E := by
  have hNe : BaseType.words x.1 ≠ [] := by
    unfold BaseType.words
    split <;> exact List.cons_ne_nil _ _
  cases ws with
  | nil => exact absurd (List.map_eq_nil_iff.mp hWords.symm) hNe
  | cons t ws =>
    have hKeyword : t.isKeyword = true := by
      obtain ⟨w, rest, hw⟩ := List.exists_cons_of_ne_nil hNe
      rw [hw] at hWords
      have hKind : t.kind = .keyword := congrArg Prod.fst (List.cons.inj hWords).1
      exact beq_iff_eq.mpr hKind
    rw [typeWithin]
    refine (ends_next_coming h).bind ?_
    rintro v s' ⟨rfl, h'⟩
    rw [Token.isWord, hKeyword, Bool.or_true, Bool.true_or, if_neg (by decide)]
    refine (ends_baseTypeText_coming hx hWords hu h').bind ?_
    rintro text s'' ⟨rfl, h''⟩
    refine Ends.get ?_
    rw [if_pos rfl, h''.env, BaseType.ofText?_of_mem hx hAll]
    exact hBase v s'' h''

/-- Whether an action reads a type wherever the tokens of it come next, and takes just the brackets
that close its own sections. -/
def ReadsBack (env : Environment) (x : Parsing DeclaredType) (T : WrittenType) : Prop :=
  ∀ {s : Session} {n : Nat} {ws cs rest : List Token}, ws.map Token.spelling = T.head →
    Closers (T.closers + n) cs → (T.closers + n = 0 → ∃ u us, rest = u :: us ∧ u.Stops T.text) →
    s.Coming env (ws ++ (cs ++ rest)) →
    Ends x s (fun type s' => type = T.declared ∧
      ∃ cs', Closers n cs' ∧ s'.Coming env (cs' ++ rest)) fun _ => False

variable {ws cs rest : List Token} {n : Nat} {element : Parsing DeclaredType}

theorem ends_fixedBounds {digits : Bound} {decimals : Nat} (hLe : decimals ≤ digits.val)
    (hWords : ws.map Token.spelling = [(.literal .decInteger, toString digits.val),
      (.separator, ","), (.literal .decInteger, toString decimals)])
    (hClosers : Closers (n + 1) cs) (h : s.Coming env (ws ++ (cs ++ rest))) :
    Ends fixedBounds s (fun b s' => b = (digits.val, decimals) ∧
      ∃ cs', Closers n cs' ∧ s'.Coming env (cs' ++ rest)) E := by
  obtain ⟨t, ts, rfl, ht, hts⟩ := List.map_eq_cons_iff.mp hWords
  obtain ⟨u, us, rfl, hu, hus⟩ := List.map_eq_cons_iff.mp hts
  obtain ⟨v, vs, rfl, hv, hvs⟩ := List.map_eq_cons_iff.mp hus
  obtain rfl := List.map_eq_nil_iff.mp hvs
  unfold fixedBounds
  refine (ends_templateNumber ht digits.property.1 digits.property.2 h).bind ?_
  rintro length s1 ⟨rfl, h1⟩
  refine (ends_expectMark_coming h1 (Token.is_of_spelling hu (by decide) _)).bind ?_
  intro _ s2 h2
  refine (ends_peek_coming h2 (Token.isFinish_of_spelling hv nofun)).bind ?_
  rintro w s3 ⟨-, h3⟩
  have hSmall : decimals < 2 ^ 32 := lt_of_le_of_lt hLe digits.property.2
  refine (ends_templateNumber hv (Nat.zero_le _) hSmall h3).bind ?_
  rintro k s4 ⟨rfl, h4⟩
  rw [if_neg (Nat.not_lt.mpr hLe)]
  refine (ends_closeTemplate hClosers h4).bind ?_
  intro _ s5 h5
  exact Ends.pure ⟨rfl, h5⟩

/-- The values of a container and a bound, up to the end of its section. -/
theorem ends_valueSection {T : WrittenType} (hElement : ReadsBack env element T)
    (length : Option Bound) (g : DeclaredType → Nat → DeclaredType)
    (hWords : ws.map Token.spelling = WrittenType.headBefore T.head T.closers length)
    (hClosers : Closers (WrittenType.closersBehind T.closers length + n) cs)
    (h : s.Coming env (ws ++ (cs ++ rest))) :
    Ends (do
        let value ← element
        let length ← if ← takeIf "," then templateNumber 1 .sizeNumber else pure 0
        closeTemplate .templateClose
        return g value length) s
      (fun type s' => type = g T.declared ((length.map Subtype.val).getD 0) ∧
        ∃ cs', Closers n cs' ∧ s'.Coming env (cs' ++ rest)) fun _ => False := by
  cases length with
  | none =>
    have hCount : T.closers + 1 + n = T.closers + (n + 1) := by omega
    unfold WrittenType.closersBehind at hClosers
    rw [hCount] at hClosers
    refine (hElement hWords hClosers (fun hZero => by omega) h).bind ?_
    rintro value s1 ⟨rfl, cs1, hClosers1, h1⟩
    obtain ⟨v, vs, rfl, hComma, hFinish⟩ := hClosers1.exists_cons
    refine ends_takeIf_other h1 hFinish hComma fun s2 h2 => ?_
    refine (ends_closeTemplate hClosers1 h2).bind ?_
    intro _ s3 h3
    exact Ends.pure ⟨rfl, h3⟩
  | some k =>
    have hCount : 1 + n = n + 1 := by omega
    unfold WrittenType.closersBehind at hClosers
    rw [hCount] at hClosers
    obtain ⟨ls, rs, rfl, hLeft, hRight⟩ := List.map_eq_append_iff.mp hWords
    obtain ⟨ws, bs, rfl, hHead, hBrackets⟩ := List.map_eq_append_iff.mp hLeft
    obtain ⟨u, us, rfl, hu, hus⟩ := List.map_eq_cons_iff.mp hRight
    obtain ⟨v, vs, rfl, hv, hvs⟩ := List.map_eq_cons_iff.mp hus
    obtain rfl := List.map_eq_nil_iff.mp hvs
    have hStops := Token.stops_of_spelling hu (by decide) (by decide) nofun
    have hTokens : ws ++ bs ++ [u, v] ++ (cs ++ rest) = ws ++ (bs ++ (u :: v :: (cs ++ rest))) := by
      simp
    rw [hTokens] at h
    refine (hElement (n := 0) hHead (closers_of_spelling hBrackets) (fun _ => ⟨_, _, rfl, hStops _⟩)
      h).bind ?_
    rintro value s1 ⟨rfl, cs1, hNone, h1⟩
    cases hNone
    have hComma : u.is "," = true := Token.is_of_spelling hu (by decide) _
    refine ends_takeIf_mark h1 (Token.isFinish_of_spelling hu nofun) hComma fun s2 h2 => ?_
    refine (ends_templateNumber hv k.property.1 k.property.2 h2).bind ?_
    rintro length s3 ⟨rfl, h3⟩
    refine (ends_closeTemplate hClosers h3).bind ?_
    intro _ s4 h4
    exact Ends.pure ⟨rfl, h4⟩

theorem ends_containerSection (c : Container) {T : WrittenType} (hElement : ReadsBack env element T)
    (length : Option Bound)
    (hWords : ws.map Token.spelling =
      (.operator, "<") :: WrittenType.headBefore T.head T.closers length)
    (hClosers : Closers (WrittenType.closersBehind T.closers length + n) cs)
    (h : s.Coming env (ws ++ (cs ++ rest))) :
    Ends (containerSection element { base := c.base, text := c.text }) s
      (fun type s' => type = (WrittenType.container c T length).declared ∧
        ∃ cs', Closers n cs' ∧ s'.Coming env (cs' ++ rest)) fun _ => False := by
  obtain ⟨t, ts, rfl, ht, hts⟩ := List.map_eq_cons_iff.mp hWords
  unfold containerSection
  refine (ends_expectMark_coming h (Token.is_of_spelling ht (by decide) _)).bind ?_
  intro _ s1 h1
  have hNoMap : c.base ≠ .map := by cases c <;> exact nofun
  rw [if_neg hNoMap]
  exact ends_valueSection hElement length _ hts hClosers h1

theorem ends_mapSection {K T : WrittenType} (hKey : ReadsBack env element K)
    (hElement : ReadsBack env element T) (length : Option Bound)
    (hWords : ws.map Token.spelling = (.operator, "<") :: (K.head ++ closing K.closers ++
      (.separator, ",") :: WrittenType.headBefore T.head T.closers length))
    (hClosers : Closers (WrittenType.closersBehind T.closers length + n) cs)
    (h : s.Coming env (ws ++ (cs ++ rest))) :
    Ends (containerSection element { base := .map, text := "map" }) s
      (fun type s' => type = (WrittenType.map K T length).declared ∧
        ∃ cs', Closers n cs' ∧ s'.Coming env (cs' ++ rest)) fun _ => False := by
  obtain ⟨t, ts, rfl, ht, hts⟩ := List.map_eq_cons_iff.mp hWords
  obtain ⟨ls, rs, rfl, hLeft, hRight⟩ := List.map_eq_append_iff.mp hts
  obtain ⟨ks, bs, rfl, hHead, hBrackets⟩ := List.map_eq_append_iff.mp hLeft
  obtain ⟨u, us, rfl, hu, hus⟩ := List.map_eq_cons_iff.mp hRight
  have hStops := Token.stops_of_spelling hu (by decide) (by decide) nofun
  have hTokens : t :: (ks ++ bs ++ u :: us) ++ (cs ++ rest) =
      t :: (ks ++ (bs ++ (u :: (us ++ (cs ++ rest))))) := by
    simp
  rw [hTokens] at h
  unfold containerSection
  refine (ends_expectMark_coming h (Token.is_of_spelling ht (by decide) _)).bind ?_
  intro _ s1 h1
  rw [if_pos rfl]
  refine (hKey (n := 0) hHead (closers_of_spelling hBrackets) (fun _ => ⟨_, _, rfl, hStops _⟩)
    h1).bind ?_
  rintro key s2 ⟨rfl, cs2, hNone, h2⟩
  cases hNone
  refine (ends_expectMark_coming h2 (Token.is_of_spelling hu (by decide) _)).bind ?_
  intro _ s3 h3
  exact ends_valueSection hElement length _ hus hClosers h3

theorem ends_bitfieldSection {bits : Nat} (hBits : 1 ≤ bits ∧ bits ≤ 64)
    (storage : Option (TypeName BaseType.isIntegral))
    (hElement : ∀ x ∈ storage, ReadsBack env element (.plain x.plain))
    (hWords : (.keyword, "bitfield") :: ws.map Token.spelling =
      (WrittenType.bitfield bits hBits storage).head)
    (hClosers : Closers (n + 1) cs) (h : s.Coming env (ws ++ (cs ++ rest))) :
    Ends (bitfieldSection element { base := .bitfield, text := "bitfield" }) s
      (fun type s' => type = (WrittenType.bitfield bits hBits storage).declared ∧
        ∃ cs', Closers n cs' ∧ s'.Coming env (cs' ++ rest)) fun _ => False := by
  have hSmall : bits < 2 ^ 32 := lt_of_le_of_lt hBits.2 (by decide)
  unfold bitfieldSection
  cases storage with
  | none =>
    obtain ⟨t, ts, rfl, ht, hts⟩ := List.map_eq_cons_iff.mp (List.cons.inj hWords).2
    obtain ⟨u, us, rfl, hu, hus⟩ := List.map_eq_cons_iff.mp hts
    obtain rfl := List.map_eq_nil_iff.mp hus
    obtain ⟨v, vs, rfl, hComma, hFinish⟩ := hClosers.exists_cons
    refine (ends_expectMark_coming h (Token.is_of_spelling ht (by decide) _)).bind ?_
    intro _ s1 h1
    refine (ends_peek_coming h1 (Token.isFinish_of_spelling hu nofun)).bind ?_
    rintro _ s2 ⟨-, h2⟩
    refine (ends_templateNumber hu hBits.1 hSmall h2).bind ?_
    rintro k s3 ⟨rfl, h3⟩
    rw [if_neg (Nat.not_lt.mpr hBits.2)]
    refine ends_takeIf_other h3 hFinish hComma fun s4 h4 => ?_
    refine (ends_closeTemplate hClosers h4).bind ?_
    intro _ s5 h5
    exact Ends.pure ⟨rfl, h5⟩
  | some x =>
    obtain ⟨t, ts, rfl, ht, hts⟩ := List.map_eq_cons_iff.mp (List.cons.inj hWords).2
    obtain ⟨u, us, rfl, hu, hus⟩ := List.map_eq_cons_iff.mp hts
    obtain ⟨v, vs, rfl, hv, hvs⟩ := List.map_eq_cons_iff.mp hus
    refine (ends_expectMark_coming h (Token.is_of_spelling ht (by decide) _)).bind ?_
    intro _ s1 h1
    refine (ends_peek_coming h1 (Token.isFinish_of_spelling hu nofun)).bind ?_
    rintro _ s2 ⟨-, h2⟩
    refine (ends_templateNumber hu hBits.1 hSmall h2).bind ?_
    rintro k s3 ⟨rfl, h3⟩
    rw [if_neg (Nat.not_lt.mpr hBits.2)]
    refine ends_takeIf_mark h3 (Token.isFinish_of_spelling hv nofun)
      (Token.is_of_spelling hv (by decide) _) fun s4 h4 => ?_
    have hCount : (WrittenType.plain x.plain).closers + (n + 1) = n + 1 := Nat.zero_add _
    refine (hElement x rfl (n := n + 1) hvs (by rwa [hCount]) (fun hZero => by omega) h4).bind ?_
    rintro value s5 ⟨rfl, cs5, hClosers5, h5⟩
    have hIntegral : ((WrittenType.plain x.plain).declared.kind?.map Kind.isIntegral).getD false =
        true := (Bool.and_eq_true_iff.mp x.property.2).2
    rw [if_pos hIntegral]
    refine (ends_closeTemplate hClosers5 h5).bind ?_
    intro _ s6 h6
    exact Ends.pure ⟨rfl, h6⟩

/-- A type without a section. -/
theorem ends_baseType_plain (x : TypeName BaseType.isPlain) (hu : u.Stops x.text)
    (h : s.Coming env (u :: ts)) :
    Ends (baseType element scope t x.base x.text) s (fun type s' => type = x.declared ∧
      s'.Coming env (u :: ts)) E := by
  obtain ⟨hNamed, hSections⟩ := Bool.and_eq_true_iff.mp x.property.2
  have hNone : x.base.elaborates? = none := Option.isNone_iff_eq_none.mp hNamed
  have hNot : ∀ b ∈ [BaseType.sequence, .map, .pointer, .bitfield], x.base ≠ b := by
    rintro b hb hEq
    rw [TypeName.base] at hEq
    rw [hEq, Bool.not_eq_true', ← Bool.not_eq_true] at hSections
    exact hSections (List.contains_iff_mem.mpr hb)
  unfold baseType
  rw [hNone]
  dsimp only
  split
  · exact ends_takeIf_other h hu.finish hu.opening fun s' h' => Ends.pure ⟨rfl, h'⟩
  · split
    · exact ends_takeIf_other h hu.finish hu.opening fun s' h' => Ends.pure ⟨rfl, h'⟩
    · rw [if_neg (hNot _ (by decide)), if_neg]
      · exact Ends.pure ⟨rfl, h⟩
      · rintro (hBase | hBase | hBase) <;> exact hNot _ (by decide) hBase

/-- What is read behind a keyword that a section follows. -/
theorem ends_typeWithin_keyword {P : DeclaredType → Session → Prop} {name : String} {b : BaseType}
    (hMem : (name, b) ∈ BaseType.allNames) (hOne : BaseType.words name = [name])
    (hAll : ∀ e, env.enables e = true) (ht : t.spelling = (.keyword, name))
    (hu : u.spelling = (.operator, "<")) (h : s.Coming env (t :: u :: ts)) {budget : Nat}
    (hBase : ∀ v s', s'.Coming env (u :: ts) →
      Ends (baseType (typeWithin scope budget) scope v b name) s' P E) :
    Ends (typeWithin scope (budget + 1)) s P E := by
  have hWords : [t].map Token.spelling = (BaseType.words name).map fun w => (.keyword, w) := by
    rw [hOne]
    exact congrArg (· :: []) ht
  exact ends_typeWithin_name hMem hAll hWords
    (Token.endsName_of_spelling hu (by decide) (by decide) name) h hBase

theorem length_le_headBefore (head : List (TokenKind × String)) (closers : Nat)
    (length : Option Bound) : head.length ≤ (WrittenType.headBefore head closers length).length := by
  cases length with
  | none => exact Nat.le_refl _
  | some k =>
    rw [WrittenType.headBefore, List.append_assoc, List.length_append]
    exact Nat.le_add_right _ _

section ReadsBack

variable (hAll : ∀ e, env.enables e = true) {budget : Nat}

include hAll

theorem takes_plain (x : TypeName BaseType.isPlain) :
    ReadsBack env (typeWithin scope (budget + 1)) (.plain x) := by
  intro s n ws cs rest hWords hClosers hRest h
  obtain ⟨u, us, hNext, hu⟩ := stops_of_closers hClosers hRest
  rw [hNext] at h
  refine ends_typeWithin_name x.property.1 hAll hWords hu.toEndsName h fun t s' h' => ?_
  refine (ends_baseType_plain x hu h').mono ?_
  rintro type s'' ⟨rfl, h''⟩
  rw [← hNext] at h''
  have hCount : (WrittenType.plain x).closers + n = n := Nat.zero_add n
  rw [hCount] at hClosers
  exact ⟨rfl, cs, hClosers, h''⟩

theorem takes_bounded (x : TypeName BaseType.isString) (length : Bound) :
    ReadsBack env (typeWithin scope (budget + 1)) (.bounded x length) := by
  intro s n ws cs rest hWords hClosers hRest h
  obtain ⟨ns, ss, rfl, hName, hSection⟩ := List.map_eq_append_iff.mp hWords
  obtain ⟨u, us, rfl, hu, hus⟩ := List.map_eq_cons_iff.mp hSection
  obtain ⟨v, vs, rfl, hv, hvs⟩ := List.map_eq_cons_iff.mp hus
  obtain rfl := List.map_eq_nil_iff.mp hvs
  rw [List.append_assoc] at h
  have hCount : (WrittenType.bounded x length).closers + n = n + 1 := Nat.add_comm 1 n
  rw [hCount] at hClosers
  have hOpening := Token.endsName_of_spelling hu (by decide) (by decide) x.text
  refine ends_typeWithin_name x.property.1 hAll hName hOpening h fun t s1 h1 => ?_
  have hString : x.val.2.isString = true := x.property.2
  have hNone : x.val.2.elaborates? = none := by
    revert hString
    cases x.val.2 <;> decide
  have hFixed : x.val.2 ≠ .fixed := by
    intro hEq
    rw [hEq] at hString
    cases hString
  unfold baseType
  rw [hNone]
  dsimp only
  rw [if_neg hFixed, if_pos hString]
  refine ends_takeIf_mark h1 hOpening.finish (Token.is_of_spelling hu (by decide) _) fun s2 h2 => ?_
  refine (ends_templateNumber hv length.property.1 length.property.2 h2).bind ?_
  rintro k s3 ⟨rfl, h3⟩
  refine (ends_closeTemplate hClosers h3).bind ?_
  intro _ s4 h4
  exact Ends.pure ⟨rfl, h4⟩

theorem takes_fixed (digits : Bound) {decimals : Nat} (hLe : decimals ≤ digits.val) :
    ReadsBack env (typeWithin scope (budget + 1)) (.fixed digits decimals hLe) := by
  intro s n ws cs rest hWords hClosers hRest h
  obtain ⟨t, ts, rfl, ht, hts⟩ := List.map_eq_cons_iff.mp hWords
  obtain ⟨u, us, rfl, hu, hus⟩ := List.map_eq_cons_iff.mp hts
  have hCount : (WrittenType.fixed digits decimals hLe).closers + n = n + 1 := Nat.add_comm 1 n
  rw [hCount] at hClosers
  refine ends_typeWithin_keyword (b := .fixed) (by decide) rfl hAll ht hu h fun v s1 h1 => ?_
  refine ends_takeIf_mark h1 (Token.isFinish_of_spelling hu nofun)
    (Token.is_of_spelling hu (by decide) _) fun s2 h2 => ?_
  refine (ends_fixedBounds hLe hus hClosers h2).bind ?_
  rintro _ s3 ⟨rfl, h3⟩
  exact Ends.pure ⟨rfl, h3⟩

theorem takes_bitfield {bits : Nat} (hBits : 1 ≤ bits ∧ bits ≤ 64)
    (storage : Option (TypeName BaseType.isIntegral)) :
    ReadsBack env (typeWithin scope (budget + 2)) (.bitfield bits hBits storage) := by
  intro s n ws cs rest hWords hClosers hRest h
  have hHead : ∃ more, (WrittenType.bitfield bits hBits storage).head =
      (.keyword, "bitfield") :: (.operator, "<") :: more := by
    cases storage <;> exact ⟨_, rfl⟩
  obtain ⟨more, hMore⟩ := hHead
  rw [hMore] at hWords
  obtain ⟨t, ts, rfl, ht, hts⟩ := List.map_eq_cons_iff.mp hWords
  obtain ⟨u, us, rfl, hu, hus⟩ := List.map_eq_cons_iff.mp hts
  have hCount : (WrittenType.bitfield bits hBits storage).closers + n = n + 1 := by
    cases storage <;> exact Nat.add_comm 1 n
  rw [hCount] at hClosers
  refine ends_typeWithin_keyword (b := .bitfield) (by decide) rfl hAll ht hu h fun v s1 h1 => ?_
  have hSection : (.keyword, "bitfield") :: (u :: us).map Token.spelling =
      (WrittenType.bitfield bits hBits storage).head := by
    rw [hMore, List.map_cons, hu, hus]
  exact ends_bitfieldSection hBits storage (fun x _ => takes_plain hAll x.plain) hSection hClosers h1

/-- A type is read up to the brackets behind it that close sections around it. -/
theorem takes_typeWithin (T : WrittenType) :
    ∀ {budget : Nat}, T.head.length < budget → ReadsBack env (typeWithin scope budget) T := by
  induction T with
  | plain x =>
    rintro (_ | budget) hBudget
    · cases hBudget
    · exact takes_plain hAll x
  | bounded x length =>
    rintro (_ | budget) hBudget
    · cases hBudget
    · exact takes_bounded hAll x length
  | fixed digits decimals hLe =>
    rintro (_ | budget) hBudget
    · cases hBudget
    · exact takes_fixed hAll digits hLe
  | bitfield bits hBits storage =>
    rintro (_ | _ | budget) hBudget
    · cases hBudget
    · cases storage <;> simp [WrittenType.head] at hBudget
    · exact takes_bitfield hAll hBits storage
  | container c value length ih =>
    rintro (_ | budget) hBudget s n ws cs rest hWords hClosers hRest h
    · cases hBudget
    · have hValue : value.head.length < budget := by
        have hLe := length_le_headBefore value.head value.closers length
        simp only [WrittenType.head, List.cons_append, List.nil_append, List.length_cons] at hBudget
        omega
      obtain ⟨t, ts, rfl, ht, hts⟩ := List.map_eq_cons_iff.mp hWords
      obtain ⟨u, us, rfl, hu, hus⟩ := List.map_eq_cons_iff.mp hts
      have hMem : (c.text, c.base) ∈ BaseType.allNames := by cases c <;> decide
      have hOne : BaseType.words c.text = [c.text] := by cases c <;> rfl
      refine ends_typeWithin_keyword hMem hOne hAll ht hu h fun v s1 h1 => ?_
      have hSection := ends_containerSection c (ih hValue) length hts hClosers h1
      cases c <;> exact hSection
  | map key value length ihKey ih =>
    rintro (_ | budget) hBudget s n ws cs rest hWords hClosers hRest h
    · cases hBudget
    · have hLe := length_le_headBefore value.head value.closers length
      simp only [WrittenType.head, List.cons_append, List.nil_append, List.length_cons,
        List.length_append] at hBudget
      have hKey : key.head.length < budget := by omega
      have hValue : value.head.length < budget := by omega
      obtain ⟨t, ts, rfl, ht, hts⟩ := List.map_eq_cons_iff.mp hWords
      obtain ⟨u, us, rfl, hu, hus⟩ := List.map_eq_cons_iff.mp hts
      refine ends_typeWithin_keyword (b := .map) (by decide) rfl hAll ht hu h fun v s1 h1 => ?_
      exact ends_mapSection (ihKey hKey) (ih hValue) length hts hClosers h1

end ReadsBack

end Parsing

end IdlReader
