import IdlReader.Proofs.Grammar.ReadType

/-!
# Types that are written and read

A type that is written without white space around its brackets is read as it was written, whatever is
nested in it, and the name behind it comes next. Only a word that goes on with the name of a base type
is read as a part of the type.

* `written_types`: types with a name behind them.
-/

namespace IdlReader.Document

open Parsing

variable {env : Environment}

/-- Whether a word may be the name behind a type: an identifier or a keyword that does not go on with
the name of the type. -/
structure NamesAfter (env : Environment) (T : WrittenType) (word : String) : Prop where
  isName : IsName word
  kind : Lexeme.wordKind env.lexicon word ∈ [TokenKind.identifier, .keyword]
  apart : BaseType.goesOn T.text word = false

theorem apart_of_isSpace {c : Char} (h : Lexeme.isSpace c = true) :
    Text.isWord c = false ∧ Lexeme.isDoubleOperator '>' c = false := by
  simp only [Lexeme.isSpace, Bool.or_eq_true, beq_iff_eq] at h
  rcases h with (((rfl | rfl) | rfl) | rfl) | rfl <;> decide

/-- White space and a name stand behind a type as they should. -/
theorem follows_name {T : WrittenType} {name : String} (hName : IsName name) {gap : List Char}
    (hGap : ∀ c ∈ gap, Lexeme.isSpace c = true) (hNe : T.closers = 0 → gap ≠ []) :
    Follows T.closers (gap ++ name.toList) := by
  cases gap with
  | nil =>
    refine ⟨fun hZero => absurd rfl (hNe hZero), fun _ c hc => ?_⟩
    exact isDoubleOperator_of_isWord (hName.isWord c (List.mem_of_mem_head? hc))
  | cons d gap =>
    have hSpace := hGap d List.mem_cons_self
    refine ⟨fun _ => ?_, fun _ => ?_⟩
    · rintro _ ⟨⟩
      exact (apart_of_isSpace hSpace).1
    · rintro _ ⟨⟩
      exact (apart_of_isSpace hSpace).2

/-- The tokens of a type with a name behind it. -/
theorem tokenize_written (hAll : ∀ e, env.enables e = true) {T : WrittenType} {name : String}
    (hName : NamesAfter env T name) {gap : List Char} (hGap : ∀ c ∈ gap, Lexeme.isSpace c = true)
    (hNe : T.closers = 0 → gap ≠ []) (directives : Bool) (source : SourceId) :
    ∃ ts, tokenize env.lexicon directives source (T.text.toList ++ (gap ++ name.toList)) = .ok ts ∧
      ts.map Token.spelling = T.spelling ++ [(Lexeme.wordKind env.lexicon name, name)] := by
  have hLexicon : env.lexicon = ⟨true, true, true, true⟩ := by
    unfold Environment.lexicon
    rw [hAll, hAll, hAll, hAll]
  have hKind : Lexeme.wordKind env.lexicon name ≠ .comment := by
    intro hComment
    have hKind := hName.kind
    rw [hComment] at hKind
    revert hKind
    decide
  have hWord := Lexeme.opens_word (u := []) hName.isName (fun _ _ hc => by cases hc) hKind
    fun _ hc => by cases hc
  have hLast := (Lexeme.Scans.spaces hGap).append (Lexeme.Scans.single hWord)
  rw [List.append_nil, String.ofList_toList] at hLast
  have hType := WrittenType.scans hLexicon T (n := 0) (follows_name hName.isName hGap hNe)
  exact tokenize_of_scans (hType.append hLast) directives source

/-- **Written types.** Let all extensions be enabled. The text of a type, with a name behind it that
does not go on with the name of the type, splits into tokens from which the type is read: wherever tokens
of these kinds and texts come next in a session, reading a type succeeds with the base, the bound, the
decimals, the key and the values of the type at every level of it. The token that comes next then is the
one of the name. -/
theorem written_types (hAll : ∀ e, env.enables e = true) {T : WrittenType} {name : String}
    (hName : NamesAfter env T name) {gap : List Char} (hGap : ∀ c ∈ gap, Lexeme.isSpace c = true)
    (hNe : T.closers = 0 → gap ≠ []) (directives : Bool) (source : SourceId) (scope : EntityId) :
    ∃ ts, tokenize env.lexicon directives source (T.text.toList ++ (gap ++ name.toList)) = .ok ts ∧
      ∀ {s : Session} {us : List Token} {t : Token} {rest : List Token},
        (us ++ [t]).map Token.spelling = ts.map Token.spelling → s.Coming env (us ++ t :: rest) →
        ∃ s', readType scope s = .ok T.declared s' ∧ ∃ s'', next s' = .ok t s'' ∧
          t.text = name ∧ s''.Coming env rest := by
  obtain ⟨ts, hTokens, hSpelling⟩ := tokenize_written hAll hName hGap hNe directives source
  refine ⟨ts, hTokens, fun {s us t rest} hSame hComing => ?_⟩
  rw [hSpelling, List.map_append] at hSame
  obtain ⟨hType, hLast⟩ := List.append_inj' hSame rfl
  obtain ⟨ws, cs, rfl, hWords, hBrackets⟩ := List.map_eq_append_iff.mp hType
  have hName' : t.spelling = (Lexeme.wordKind env.lexicon name, name) := (List.cons.inj hLast).1
  have hText : t.text = name := congrArg Prod.snd hName'
  have hStops : t.Stops T.text := by
    refine ⟨⟨Token.isFinish_of_spelling hName' ?_, by rw [hText]; exact hName.apart⟩, ?_⟩
    · intro hFinish
      have hKind := hName.kind
      rw [hFinish] at hKind
      revert hKind
      decide
    · refine Bool.eq_false_iff.mpr fun hOpening => ?_
      have hSame : t.text = "<" := beq_iff_eq.mp (Bool.and_eq_true_iff.mp hOpening).2
      have hBracket := hName.isName
      rw [← hText, hSame] at hBracket
      exact absurd hBracket (by decide)
  rw [List.append_assoc] at hComing
  have hRead : Ends (readType scope) s (fun type s' => type = T.declared ∧
      s'.Coming env (t :: rest)) fun _ => False := by
    unfold readType
    refine Ends.tokensComing hComing ?_
    have hLength : T.head.length < (ws ++ (cs ++ t :: rest)).length + 2 := by
      rw [← hWords, List.length_map, List.length_append]
      omega
    refine (takes_typeWithin hAll T hLength (n := 0) hWords (closers_of_spelling hBrackets)
      (fun _ => ⟨t, rest, rfl, hStops⟩) hComing).mono ?_
    rintro type s' ⟨rfl, cs', hNone, h'⟩
    cases hNone
    exact ⟨rfl, h'⟩
  obtain ⟨type, s', hResult, rfl, h'⟩ := hRead.exists_ok
  obtain ⟨u, s'', hNext, rfl, h''⟩ := (ends_next_coming h').exists_ok
  exact ⟨s', hResult, s'', hNext, hText, h''⟩

/-- A map with two levels of sequences, in front of a name: `map<string<5>,sequence<sequence<long,3>>>`. -/
def nestedType : WrittenType :=
  .map (.bounded ⟨("string", .string), by decide, rfl⟩ ⟨5, by decide⟩)
    (.container .sequence
      (.container .sequence (.plain ⟨("long", .long), by decide, rfl⟩) (some ⟨3, by decide⟩)) none) none

/-- The environment with all extensions. -/
def extendedEnvironment : Environment := { extensions := Extension.all }

/-- A type at the end of which three sections end, with a name right behind it. -/
theorem written_types_nested :
    nestedType.text = "map<string<5>,sequence<sequence<long,3>>>" ∧
    (∃ ts, tokenize extendedEnvironment.lexicon true 0
        (nestedType.text.toList ++ ([] ++ "names".toList)) = .ok ts ∧
      ∀ {s : Session} {us : List Token} {t : Token} {rest : List Token},
        (us ++ [t]).map Token.spelling = ts.map Token.spelling →
        s.Coming extendedEnvironment (us ++ t :: rest) →
        ∃ s', readType 0 s = .ok nestedType.declared s' ∧ ∃ s'', next s' = .ok t s'' ∧
          t.text = "names" ∧ s''.Coming extendedEnvironment rest) := by
  refine ⟨by decide +kernel, ?_⟩
  refine written_types (fun e => ?_) ⟨by decide, by decide, by decide⟩ (List.forall_mem_nil _)
    (fun hZero => ?_) true 0 0
  · cases e <;> decide
  · cases hZero

/-- The type `long`. -/
def longType : WrittenType := .plain ⟨("long", .long), by decide, rfl⟩

def longWord : Token :=
  { kind := .keyword, text := "long", span := ⟨⟨1, 1⟩, ⟨1, 5⟩⟩, source := 0 }

/-- A session in which the word `long` comes twice. -/
def longSession : Session :=
  { env := extendedEnvironment, tree := Tree.initial true, stream := Stream.empty,
    cache := [longWord, longWord] }

/-- A keyword behind a type is read as a part of it if it goes on with the name: the type `long` with the
name `long` behind it is read as the type `long long`. -/
theorem written_types_word :
    ¬ ∀ (T : WrittenType) (name : String) (gap : List Char), IsName name →
      Lexeme.wordKind extendedEnvironment.lexicon name ∈ [TokenKind.identifier, .keyword] →
      (∀ c ∈ gap, Lexeme.isSpace c = true) → (T.closers = 0 → gap ≠ []) →
      ∃ ts, tokenize extendedEnvironment.lexicon true 0 (T.text.toList ++ (gap ++ name.toList)) = .ok ts ∧
        ∀ {s : Session} {us : List Token} {t : Token} {rest : List Token},
          (us ++ [t]).map Token.spelling = ts.map Token.spelling →
          s.Coming extendedEnvironment (us ++ t :: rest) →
          ∃ s', readType 0 s = .ok T.declared s' := by
  intro h
  obtain ⟨ts, hTokens, hRead⟩ := h longType "long" [' '] (by decide) (by decide)
    (List.forall_mem_singleton.mpr rfl) (fun _ => List.cons_ne_nil _ _)
  have hSpelling : ((tokenize extendedEnvironment.lexicon true 0 "long long".toList).toOption.map
      (·.map Token.spelling)) = some [(.keyword, "long"), (.keyword, "long")] := by decide +kernel
  have hTokens : tokenize extendedEnvironment.lexicon true 0 "long long".toList = .ok ts := hTokens
  rw [hTokens] at hSpelling
  have hSpelling : ts.map Token.spelling = [(.keyword, "long"), (.keyword, "long")] :=
    Option.some.inj hSpelling
  obtain ⟨s', hResult⟩ := @hRead longSession [longWord] longWord [] hSpelling.symm ⟨rfl, rfl⟩
  have hText : (match readType 0 longSession with
      | .ok type _ => type.text
      | .error _ _ => "") = "long long" := by decide +kernel
  rw [hResult] at hText
  have hShort : "long" = "long long" := hText
  exact absurd hShort (by decide)

end IdlReader.Document
