import IdlReader.Proofs.Constant.Numeral
import IdlReader.Proofs.Expression.Grammar
import IdlReader.Proofs.Grammar.Operand
import IdlReader.Proofs.Text.Path

/-!
# Paths as operands

A path is an operand of an expression if each of its words is read as what it stands for: names
behind a mark as identifiers, members as identifiers or keywords, and indices as integers of 64
bits. Its text then splits into tokens from which its name and its accessors are read.

* `OperandPath.scans`: the tokens of a path.
* `operand_path`: the operand that they are.
-/

namespace IdlReader

open Lexeme

/-- Whether an accessor is read as this accessor in an expression. -/
def Accessor.Spoken (l : Lexicon) : Accessor → Prop
  | .member name => IsName name ∧ (wordKind l name = .identifier ∨ wordKind l name = .keyword)
  | .index i => i < Nat.pow 2 63

instance (l : Lexicon) (a : Accessor) : Decidable (a.Spoken l) :=
  match a with
  | .member name => inferInstanceAs (Decidable (IsName name ∧ _))
  | .index i => inferInstanceAs (Decidable (i < Nat.pow 2 63))

theorem Accessor.Spoken.writable {l : Lexicon} {a : Accessor} (h : a.Spoken l) : a.Writable := by
  cases a with
  | member name => exact h.1
  | index i => exact Nat.lt_trans h (by decide)

/-- A path that may be written as an operand: names with marks between them, with the mark of the
root in front or not, and accessors behind them. Only the first word of an operand may be a keyword. -/
structure OperandPath (l : Lexicon) where
  absolute : Bool
  first : String
  rest : List String
  accessors : List Accessor
  isName : ∀ name ∈ first :: rest, IsName name
  first_kind : wordKind l first = .identifier ∨ absolute = false ∧ wordKind l first = .keyword
  rest_kind : ∀ name ∈ rest, wordKind l name = .identifier
  spoken : ∀ a ∈ accessors, a.Spoken l

namespace OperandPath

variable {l : Lexicon}

/-- The scoped name in front of the accessors. -/
def name (p : OperandPath l) : String :=
  (if p.absolute then "::" else "") ++ "::".intercalate (p.first :: p.rest)

/-- A path as it is written. -/
def text (p : OperandPath l) : String := p.name ++ Accessor.texts p.accessors

/-- The tokens of names behind marks. -/
def nameSpelling (l : Lexicon) : List String → List (TokenKind × String)
  | [] => []
  | name :: names => (.separator, "::") :: (wordKind l name, name) :: nameSpelling l names

/-- The tokens of accessors. -/
def accessorSpelling (l : Lexicon) : List Accessor → List (TokenKind × String)
  | [] => []
  | .member name :: as => (.operator, ".") :: (wordKind l name, name) :: accessorSpelling l as
  | .index i :: as =>
    (.separator, "[") :: (.literal .decInteger, toString i) :: (.separator, "]") ::
      accessorSpelling l as

/-- The tokens of a path. -/
def spelling (p : OperandPath l) : List (TokenKind × String) :=
  (if p.absolute then [(TokenKind.separator, "::")] else []) ++
    (wordKind l p.first, p.first) :: (nameSpelling l p.rest ++ accessorSpelling l p.accessors)

/-! ## Tokens -/

/-- Names behind marks as they are written. -/
def marked : List String → List Char
  | [] => []
  | name :: names => ':' :: ':' :: (name.toList ++ marked names)

theorem toList_join (first : String) (rest : List String) :
    ("::".intercalate (first :: rest)).toList = first.toList ++ marked rest := by
  induction rest generalizing first with
  | nil =>
    rw [String.intercalate_singleton, marked, List.append_nil]
  | cons next rest ih =>
    rw [String.intercalate_cons_cons, String.toList_append, String.toList_append, ih, marked]
    simp

/-- What stands behind a word of a path. -/
def Ended (u : List Char) : Prop := ∀ c ∈ u.head?, c = ':' ∨ c = '.' ∨ c = '['

theorem ended_texts (as : List Accessor) : Ended (Accessor.texts as).toList :=
  fun c hc => Or.inr (Accessor.head?_texts as c hc)

theorem ended_marked {names : List String} {u : List Char} (h : Ended u) :
    Ended (marked names ++ u) := by
  cases names with
  | nil => exact h
  | cons name names =>
    rintro _ ⟨⟩
    exact Or.inl rfl

theorem opens_name {w : String} {u : List Char} (hName : IsName w)
    (hKind : wordKind l w = .identifier ∨ wordKind l w = .keyword) (hu : Ended u) :
    Opens l w.toList (wordKind l w) u := by
  refine opens_word hName (fun _ c hc => ?_) ?_ fun c hc => ?_
  · rcases hu c hc with rfl | rfl | rfl <;> rfl
  · rcases hKind with hKind | hKind <;> rw [hKind] <;> decide
  · rcases hu c hc with rfl | rfl | rfl <;> rfl

theorem opens_separator {c : Char} (hc : c = '[' ∨ c = ']') (u : List Char) :
    Opens l [c] .separator u := by
  rcases hc with rfl | rfl
  · exact ⟨nofun, '[', [], rfl, by decide, fun p => read_mark (fun h => by cases h) rfl rfl rfl⟩
  · exact ⟨nofun, ']', [], rfl, by decide, fun p => read_mark (fun h => by cases h) rfl rfl rfl⟩

theorem opens_mark (u : List Char) : Opens l [':', ':'] .separator u :=
  ⟨nofun, ':', [':'], rfl, by decide, fun p => read_mark (fun h => by cases h) rfl rfl rfl⟩

/-- A point in front of a name. -/
theorem opens_point {w : String} (hName : IsName w) (u : List Char) :
    Opens l ['.'] .operator (w.toList ++ u) := by
  obtain ⟨c, s, hText⟩ := List.exists_cons_of_ne_nil hName.ne_nil
  have hDigit : c.isDigit = false := by
    rw [IsName, hText, Text.isName, Bool.and_eq_true] at hName
    exact not_isDigit_of_isWordStart hName.1
  refine ⟨by decide, '.', [], rfl, by decide, fun p => ?_⟩
  rw [hText, List.nil_append]
  exact read_mark (fun h => by cases h) rfl (by simp [opensNumber, hDigit]) rfl

theorem scans_accessors {as : List Accessor} (h : ∀ a ∈ as, a.Spoken l) :
    Scans l (Accessor.texts as).toList (accessorSpelling l as) [] := by
  induction as with
  | nil => exact .done
  | cons a as ih =>
    have ha := h a List.mem_cons_self
    have hRest := ih fun b hb => h b (List.mem_cons_of_mem a hb)
    rw [Accessor.texts, String.toList_append]
    cases a with
    | member name =>
      obtain ⟨hName, hKind⟩ : IsName name ∧ _ := ha
      have hWord := Scans.token (opens_name hName hKind (ended_texts as)) hRest
      rw [String.ofList_toList] at hWord
      rw [Accessor.toList_text_member]
      exact .token (s := ['.']) (opens_point hName _) hWord
    | index i =>
      have hClose := Scans.token (opens_separator (l := l) (.inr rfl) _) hRest
      have hBracket : ∀ c ∈ (']' :: (Accessor.texts as).toList).head?,
          Text.isWord c = false ∧ c ≠ '.' := by
        rintro _ ⟨⟩
        decide
      have hDigits := Scans.token (opens_decimal (l := l) i hBracket) hClose
      rw [String.ofList_toList, Nat.toString_eq_ofList_toDigits, String.toList_ofList] at hDigits
      rw [Accessor.toList_text_index, accessorSpelling, Nat.toString_eq_ofList_toDigits]
      have hOpen := Scans.token (opens_separator (l := l) (.inl rfl) _) hDigits
      simpa using hOpen

theorem scans_names {names : List String} (hNames : ∀ name ∈ names, IsName name)
    (hKind : ∀ name ∈ names, wordKind l name = .identifier ∨ wordKind l name = .keyword) {u : List Char}
    {ws : List (TokenKind × String)} (hEnded : Ended u) (hu : Scans l u ws []) :
    Scans l (marked names ++ u) (nameSpelling l names ++ ws) [] := by
  induction names with
  | nil => exact hu
  | cons name names ih =>
    have hRest := ih (fun x hx => hNames x (List.mem_cons_of_mem name hx))
      fun x hx => hKind x (List.mem_cons_of_mem name hx)
    have hWord := Scans.token (opens_name (hNames name List.mem_cons_self)
      (hKind name List.mem_cons_self) (ended_marked hEnded)) hRest
    rw [String.ofList_toList] at hWord
    have hMark := Scans.token (opens_mark _) hWord
    rw [marked, nameSpelling]
    simpa using hMark

/-- The text of a path is scanned as its tokens. -/
theorem scans (p : OperandPath l) : Scans l p.text.toList p.spelling [] := by
  have hKind : wordKind l p.first = .identifier ∨ wordKind l p.first = .keyword :=
    p.first_kind.imp_right And.right
  have hAccessors := scans_accessors p.spoken
  have hEnded := ended_texts p.accessors
  have hRest := scans_names (fun x hx => p.isName x (List.mem_cons_of_mem _ hx))
    (fun x hx => Or.inl (p.rest_kind x hx)) hEnded hAccessors
  have hWord := Scans.token (opens_name (p.isName p.first List.mem_cons_self) hKind
    (ended_marked hEnded)) hRest
  rw [String.ofList_toList] at hWord
  unfold text name spelling
  rw [String.toList_append, String.toList_append, toList_join]
  cases p.absolute with
  | false => simpa using hWord
  | true =>
    have hMark := Scans.token (opens_mark _) hWord
    simpa using hMark

/-- Names alone as they are written, with the mark of the root in front or not. -/
def nameText (absolute : Bool) (names : List String) : String :=
  (if absolute then "::" else "") ++ "::".intercalate names

/-- The names that stand behind a mark. -/
def behindMarks (absolute : Bool) (names : List String) : List String :=
  if absolute then names else names.tail

theorem behindMarks_subset (absolute : Bool) (names : List String) :
    behindMarks absolute names ⊆ names := by
  cases absolute with
  | true => exact fun _ h => h
  | false => exact (List.tail_sublist names).subset

/-- The tokens of names alone. -/
def nameTokens (l : Lexicon) (absolute : Bool) (names : List String) : List (TokenKind × String) :=
  if absolute then nameSpelling l names else (nameSpelling l names).tail

/-- The text of names alone is scanned as their tokens. -/
theorem scans_nameTokens (absolute : Bool) {names : List String} (hNe : names ≠ [])
    (hNames : ∀ name ∈ names, IsName name)
    (hKind : ∀ name ∈ names, wordKind l name = .identifier ∨ wordKind l name = .keyword) :
    Scans l (nameText absolute names).toList (nameTokens l absolute names) [] := by
  unfold nameText
  have hEnded : Ended [] := nofun
  cases names with
  | nil => exact absurd rfl hNe
  | cons first rest =>
    cases absolute with
    | true =>
      have hAll := scans_names (l := l) hNames hKind hEnded .done
      simp only [List.append_nil] at hAll
      simp only [if_true, String.toList_append, toList_join]
      exact hAll
    | false =>
      rw [List.forall_mem_cons] at hNames hKind
      have hRest := scans_names (l := l) hNames.2 hKind.2 hEnded .done
      have hWord := Scans.token (opens_name hNames.1 hKind.1 (ended_marked hEnded)) hRest
      rw [String.ofList_toList] at hWord
      simp only [List.append_nil] at hWord
      simp only [Bool.false_eq_true, if_false, String.empty_append, toList_join]
      exact hWord

end OperandPath

namespace Parsing

open Expression OperandPath

variable {l : Lexicon} {place last : Position} {n : Nat} {evaluate : EntityId → Parsing Unit}
  {scope : EntityId}

/-! ## Accessors -/

theorem kind_eq_of_spelling {t : Token} {kind : TokenKind} {text : String}
    (h : t.spelling = (kind, text)) : t.kind = kind ∧ t.text = text :=
  ⟨congrArg Prod.fst h, congrArg Prod.snd h⟩

/-- An index is evaluated as the integer that its digits write. -/
theorem climb_index (n : Nat) (last : Position) (resolve : Resolver Parsing) {i : Nat}
    (hi : i < 2 ^ 63) {t close : Token}
    (ht : t.spelling = (.literal .decInteger, toString i)) (hClose : close.spelling = (.separator, "]"))
    (level : Nat) (rest : List Token) :
    ∃ c, climb resolve (n + 2) level ⟨t :: close :: rest, last⟩ =
        pure (.known c, ⟨close :: rest, last⟩) ∧ c.castInt .uint64 = .ok i := by
  obtain ⟨hKind, hText⟩ := kind_eq_of_spelling ht
  obtain ⟨hCloseKind, hCloseText⟩ := kind_eq_of_spelling hClose
  obtain ⟨k, hk, hLiteral⟩ := Constant.ofLiteralText_decimal hi
  refine ⟨.integer k i hk, ?_, Constant.castInt_uint64_of_lt hk hi⟩
  have hOpen : t.is "(" = false := by
    unfold Token.is Token.isPlain
    rw [hKind]
    rfl
  have hValue : Constant.ofLiteral t = .ok (.integer k i hk) := by
    unfold Constant.ofLiteral
    rw [hKind, hText]
    dsimp only
    rw [hLiteral]
    rfl
  have hEnd : isTerminator close = true := by
    unfold isTerminator
    rw [hCloseKind, hCloseText]
    decide
  have hOperand : operand resolve (n + 1) ⟨t :: close :: rest, last⟩ =
      pure (.known (.integer k i hk), ⟨close :: rest, last⟩) := by
    unfold operand unaryOperator?
    simp only [hOpen, Bool.false_eq_true, if_false, hKind, hValue]
    rfl
  unfold climb
  rw [hOperand, pure_bind]
  unfold extend
  simp only [hEnd, if_true]

/-- The accessors of a path are read as they were written. -/
theorem accessorTail_spelled (n : Nat) (place last : Position) (resolve : Resolver Parsing)
    (level : Nat) {as : List Accessor} (h : ∀ a ∈ as, a.Spoken l) {ts : List Token}
    (hts : ts.map Token.spelling = accessorSpelling l as)
    {m : Nat} (hBudget : as.length < m) :
    accessorTail (climb resolve (n + 2) level) place m ⟨ts, last⟩ =
      pure (as, false, ⟨[], last⟩) := by
  induction as generalizing ts m with
  | nil =>
    obtain rfl := List.map_eq_nil_iff.mp hts
    obtain ⟨m, rfl⟩ : ∃ k, m = k + 1 := ⟨m - 1, by simp at hBudget; omega⟩
    rfl
  | cons a as ih =>
    have ha := h a List.mem_cons_self
    obtain ⟨m, rfl⟩ : ∃ k, m = k + 1 := ⟨m - 1, by simp at hBudget; omega⟩
    have hRest := fun {us : List Token} (hus : us.map Token.spelling = accessorSpelling l as) =>
      ih (fun b hb => h b (List.mem_cons_of_mem a hb)) hus (m := m) (by simpa using hBudget)
    cases a with
    | member name =>
      obtain ⟨-, hName⟩ : IsName name ∧ _ := ha
      obtain ⟨point, ts, rfl, hPoint, hts⟩ := List.map_eq_cons_iff.mp hts
      obtain ⟨t, ts, rfl, ht, hts⟩ := List.map_eq_cons_iff.mp hts
      obtain ⟨hPointKind, hPointText⟩ := kind_eq_of_spelling hPoint
      obtain ⟨hKind, hText⟩ := kind_eq_of_spelling ht
      have hWord : t.isWord = true := by
        unfold Token.isWord Token.isIdentifier Token.isKeyword
        rw [hKind]
        rcases hName with hName | hName <;> rw [hName] <;> rfl
      unfold accessorTail
      simp [hPointKind, hPointText, Tokens.advance, hWord, hRest hts, hText]
    | index i =>
      obtain ⟨bracket, ts, rfl, hBracket, hts⟩ := List.map_eq_cons_iff.mp hts
      obtain ⟨t, ts, rfl, ht, hts⟩ := List.map_eq_cons_iff.mp hts
      obtain ⟨close, ts, rfl, hClose, hts⟩ := List.map_eq_cons_iff.mp hts
      obtain ⟨hBracketKind, -⟩ := kind_eq_of_spelling hBracket
      have hOpen : bracket.is "[" = true := Token.is_of_spelling hBracket (by decide) "["
      have hEnd : close.is "]" = true := Token.is_of_spelling hClose (by decide) "]"
      obtain ⟨c, hIndex, hValue⟩ := climb_index n last resolve ha ht hClose level ts
      unfold accessorTail
      simp [hBracketKind, Tokens.eat?, hOpen, Tokens.advance, hIndex, Tokens.expect, hEnd, orFailAt,
        hValue, hRest hts]

/-! ## Names -/

theorem isIdentifier_of_spelling {t : Token} {kind : TokenKind} {text : String}
    (h : t.spelling = (kind, text)) : t.isIdentifier = (kind == .identifier) := by
  cases h
  rfl

/-- The names of a path are read together up to its accessors. -/
theorem scopedNameTail_marked (place last : Position) {names : List String}
    (hNames : ∀ name ∈ names, IsName name)
    (hKind : ∀ name ∈ names, wordKind l name = .identifier) {ts rest : List Token}
    (hts : ts.map Token.spelling = nameSpelling l names) (hRest : Unmarked rest) {start : String}
    (hStart : start.toList.getLast? ≠ some ':') {m : Nat} (hBudget : names.length < m) :
    scopedNameTail place m start ⟨ts ++ rest, last⟩ =
      pure (start ++ String.ofList (marked names), ⟨rest, last⟩) := by
  induction names generalizing ts start m with
  | nil =>
    obtain rfl := List.map_eq_nil_iff.mp hts
    obtain ⟨m, rfl⟩ : ∃ k, m = k + 1 := ⟨m - 1, by simp at hBudget; omega⟩
    rw [List.nil_append, scopedNameTail_closes hRest hStart, marked, String.ofList_nil,
      String.append_empty]
  | cons name names ih =>
    obtain ⟨m, rfl⟩ : ∃ k, m = k + 1 := ⟨m - 1, by simp at hBudget; omega⟩
    obtain ⟨mark, ts, rfl, hMark, hts⟩ := List.map_eq_cons_iff.mp hts
    obtain ⟨t, ts, rfl, ht, hts⟩ := List.map_eq_cons_iff.mp hts
    have hIdentifier : t.isIdentifier = true := by
      rw [isIdentifier_of_spelling ht, hKind name List.mem_cons_self]
      rfl
    have hNext := ih (fun x hx => hNames x (List.mem_cons_of_mem name hx))
      (fun x hx => hKind x (List.mem_cons_of_mem name hx)) hts
      (getLast?_append_name (hNames name List.mem_cons_self) (start ++ "::")) (m := m)
      (by simpa using hBudget)
    have hText : start ++ "::" ++ name ++ String.ofList (marked names) =
        start ++ String.ofList (marked (name :: names)) := by
      rw [← String.toList_inj]
      simp [marked]
    rw [List.cons_append, scopedNameTail_mark hStart (Token.is_of_spelling hMark (by decide) "::"),
      scopedNameTail, ← hText, ← hNext]
    simp [hIdentifier, Tokens.advance, (kind_eq_of_spelling ht).2]

/-- A name behind a mark must be an identifier. -/
theorem scopedNameTail_refused (place last : Position) {names : List String}
    (hNames : ∀ name ∈ names, IsName name)
    (hOther : ∃ name ∈ names, wordKind l name ≠ .identifier) {ts : List Token}
    (hts : ts.map Token.spelling = nameSpelling l names) (rest : List Token) {start : String}
    (hStart : start.toList.getLast? ≠ some ':') {m : Nat} (hBudget : names.length < m) :
    ∃ t ∈ ts, scopedNameTail place m start ⟨ts ++ rest, last⟩ =
      failAtToken .identifierExpected t := by
  induction names generalizing ts start m with
  | nil =>
    obtain ⟨name, hMem, -⟩ := hOther
    cases hMem
  | cons name names ih =>
    obtain ⟨m, rfl⟩ : ∃ k, m = k + 1 := ⟨m - 1, by simp at hBudget; omega⟩
    obtain ⟨mark, ts, rfl, hMark, hts⟩ := List.map_eq_cons_iff.mp hts
    obtain ⟨t, ts, rfl, ht, hts⟩ := List.map_eq_cons_iff.mp hts
    rw [List.cons_append, scopedNameTail_mark hStart (Token.is_of_spelling hMark (by decide) "::"),
      scopedNameTail]
    by_cases hKind : wordKind l name = .identifier
    · have hIdentifier : t.isIdentifier = true := by
        rw [isIdentifier_of_spelling ht, hKind]
        rfl
      obtain ⟨other, hMem, hNot⟩ := hOther
      obtain ⟨u, hu, hTail⟩ := ih (fun x hx => hNames x (List.mem_cons_of_mem name hx))
        ⟨other, (List.mem_cons.mp hMem).resolve_left fun hEq => hNot (hEq ▸ hKind), hNot⟩ hts
        (getLast?_append_name (hNames name List.mem_cons_self) (start ++ "::")) (m := m)
        (by simpa using hBudget)
      refine ⟨u, List.mem_cons_of_mem _ (List.mem_cons_of_mem _ hu), ?_⟩
      rw [← hTail]
      simp [hIdentifier, Tokens.advance, (kind_eq_of_spelling ht).2]
    · have hIdentifier : t.isIdentifier = false := by
        rw [isIdentifier_of_spelling ht]
        exact beq_false_of_ne hKind
      refine ⟨t, List.mem_cons_of_mem _ List.mem_cons_self, ?_⟩
      simp [hIdentifier]

theorem unmarked_accessors {as : List Accessor} {ts : List Token}
    (hts : ts.map Token.spelling = accessorSpelling l as) : Unmarked ts := by
  intro t ht
  cases ts with
  | nil => cases ht
  | cons u ts =>
    cases ht
    cases as with
    | nil => cases hts
    | cons a as =>
      cases a <;>
      · obtain ⟨hSpelling, -⟩ := List.cons.inj hts
        exact Token.is_of_spelling hSpelling (by decide) "::"

theorem length_nameSpelling (names : List String) :
    (nameSpelling l names).length = 2 * names.length := by
  induction names with
  | nil => rfl
  | cons name names ih =>
    rw [nameSpelling, List.length_cons, List.length_cons, ih, List.length_cons]
    omega

theorem length_le_accessorSpelling (as : List Accessor) :
    as.length ≤ (accessorSpelling l as).length := by
  induction as with
  | nil => exact Nat.le_refl 0
  | cons a as ih =>
    cases a <;>
    · simp only [accessorSpelling, List.length_cons]
      omega

/-- What an operand gives whose name and accessors were read. -/
def readOperand (evaluate : EntityId → Parsing Unit) (scope : EntityId) (place : Position)
    (name : String) (as : List Accessor) (ts : Tokens) : Parsing (Evaluated × Tokens) := do
  let t ← tree
  match t.find scope name true with
  | none => failAt (.undefinedName name) place
  | some id => do
    let v ← operandValue evaluate place name id as false
    return (v, ts)

/-- The tokens of a path are an operand with its name and its accessors, all of them. -/
theorem resolver_path (evaluate : EntityId → Parsing Unit) (scope : EntityId) (n : Nat)
    (last : Position) (p : OperandPath l) {ts : List Token}
    (hts : ts.map Token.spelling = p.spelling) :
    ∃ place, resolver evaluate scope (climb (resolver evaluate scope) (n + 2) lowestPrecedence)
        ⟨ts, last⟩ = readOperand evaluate scope place p.name p.accessors ⟨[], last⟩ := by
  have hFinish : ∀ {first : Token} {tail us : List Token},
      us.map Token.spelling = accessorSpelling l p.accessors → us.length ≤ tail.length →
      scopedNameTail first.position (tail.length + 1) first.text ⟨tail, last⟩ =
        pure (p.name, ⟨us, last⟩) →
      resolver evaluate scope (climb (resolver evaluate scope) (n + 2) lowestPrecedence)
        ⟨first :: tail, last⟩ =
        readOperand evaluate scope first.position p.name p.accessors ⟨[], last⟩ := by
    intro first tail us hus hLength hName
    have hBudget : p.accessors.length < tail.length + 1 := by
      have hLe := length_le_accessorSpelling (l := l) p.accessors
      rw [← hus, List.length_map] at hLe
      omega
    have hAccessors := accessorTail_spelled n first.position last
      (resolver evaluate scope) lowestPrecedence p.spoken hus hBudget
    generalize climb (resolver evaluate scope) (n + 2) lowestPrecedence = index at hAccessors ⊢
    unfold resolver readOperand
    simp only [Tokens.advance, List.tail_cons, Tokens.position, List.head?_cons, Option.map_some,
      Option.getD_some]
    rw [hName, pure_bind]
    dsimp only
    rewrite [hAccessors, pure_bind]
    rfl
  have hRestNames : ∀ name ∈ p.rest, IsName name := fun x hx =>
    p.isName x (List.mem_cons_of_mem _ hx)
  have hJoined : p.first ++ String.ofList (marked p.rest) =
      "::".intercalate (p.first :: p.rest) := by
    rw [← String.toList_inj, toList_join, String.toList_append, String.toList_ofList]
  have hFirstName := p.isName p.first List.mem_cons_self
  unfold spelling at hts
  unfold name at hFinish ⊢
  cases hAbsolute : p.absolute with
  | false =>
    rw [hAbsolute] at hts hFinish
    obtain ⟨first, tail, rfl, hFirst, htail⟩ := List.map_eq_cons_iff.mp hts
    obtain ⟨us, vs, rfl, hus, hvs⟩ := List.map_eq_append_iff.mp htail
    refine ⟨first.position, ?_⟩
    simp only [Bool.false_eq_true, if_false, String.empty_append] at hFinish ⊢
    refine hFinish hvs (by simp) ?_
    rw [(kind_eq_of_spelling hFirst).2, ← hJoined]
    refine scopedNameTail_marked _ _ hRestNames p.rest_kind hus (unmarked_accessors hvs) ?_ ?_
    · simpa using getLast?_append_name hFirstName ""
    · have hLength := length_nameSpelling (l := l) p.rest
      rw [← hus, List.length_map] at hLength
      rw [List.length_append]
      omega
  | true =>
    rw [hAbsolute] at hts hFinish
    obtain ⟨mark, ts, rfl, hMark, hts⟩ := List.map_eq_cons_iff.mp hts
    obtain ⟨first, tail, rfl, hFirst, htail⟩ := List.map_eq_cons_iff.mp hts
    obtain ⟨us, vs, rfl, hus, hvs⟩ := List.map_eq_append_iff.mp htail
    refine ⟨mark.position, ?_⟩
    simp only [if_true] at hFinish ⊢
    refine hFinish hvs (by simp; omega) ?_
    have hIdentifier : first.isIdentifier = true := by
      rw [isIdentifier_of_spelling hFirst,
        p.first_kind.resolve_right fun h => by rw [hAbsolute] at h; cases h.1]
      rfl
    have hTail := scopedNameTail_marked mark.position last hRestNames p.rest_kind hus
      (unmarked_accessors hvs) (getLast?_append_name hFirstName "::")
      (m := (us ++ vs).length + 1) (by
        have hLength := length_nameSpelling (l := l) p.rest
        rw [← hus, List.length_map] at hLength
        rw [List.length_append]
        omega)
    rw [(kind_eq_of_spelling hMark).2, ← hJoined, ← String.append_assoc, ← hTail, List.length_cons,
      scopedNameTail]
    simp [hIdentifier, Tokens.advance, (kind_eq_of_spelling hFirst).2]

/-- An operand starts with a word or with the mark of the root. -/
theorem startsOperand_of_name {t : Token} {name : String} (h : t.spelling = (wordKind l name, name))
    (hName : IsName name) (hKind : wordKind l name = .identifier ∨ wordKind l name = .keyword) :
    StartsOperand t := by
  obtain ⟨hTokenKind, hText⟩ := kind_eq_of_spelling h
  refine ⟨fun hIs => ?_, hTokenKind ▸ hKind.imp_right Or.inl⟩
  rw [Token.is, Bool.and_eq_true, beq_iff_eq, hText] at hIs
  rw [hIs.2] at hName
  exact absurd hName (by decide)

theorem startsOperand_of_mark {t : Token} (h : t.spelling = (.separator, "::")) : StartsOperand t :=
  ⟨by rw [Token.is_of_spelling h (by decide) "("]; exact nofun,
    Or.inr (Or.inr (Token.is_of_spelling h (by decide) "::"))⟩

/-- The operand that the tokens of a path are. -/
theorem operand_path (evaluate : EntityId → Parsing Unit) (scope : EntityId) (n : Nat)
    (last : Position) (p : OperandPath l) {ts : List Token}
    (hts : ts.map Token.spelling = p.spelling) :
    ∃ place, operand (resolver evaluate scope) (n + 3) ⟨ts, last⟩ =
      readOperand evaluate scope place p.name p.accessors ⟨[], last⟩ := by
  obtain ⟨place, hPath⟩ := resolver_path evaluate scope n last p hts
  refine ⟨place, hPath ▸ ?_⟩
  unfold spelling at hts
  cases hAbsolute : p.absolute with
  | true =>
    rw [hAbsolute] at hts
    obtain ⟨mark, us, rfl, hMark, -⟩ := List.map_eq_cons_iff.mp hts
    exact operand_word (startsOperand_of_mark hMark) us
  | false =>
    rw [hAbsolute] at hts
    obtain ⟨first, us, rfl, hFirst, -⟩ := List.map_eq_cons_iff.mp hts
    exact operand_word (startsOperand_of_name hFirst (p.isName p.first List.mem_cons_self)
      (p.first_kind.imp_right And.right)) us

/-! ## Names alone -/

variable {s : Session} {index : Tokens → Parsing (Evaluated × Tokens)} {id : EntityId}
  {absolute : Bool} {names : List String} {ts rest : List Token}

/-- The names of an operand are read as what `start` says and names behind marks. -/
theorem exists_nameTokens (last : Position) (rest : List Token)
    (hNames : ∀ name ∈ names, IsName name) (hNe : names ≠ [])
    (hKind : ∀ name ∈ names, wordKind l name = .identifier ∨ wordKind l name = .keyword)
    (hts : ts.map Token.spelling = nameTokens l absolute names) :
    ∃ first tail marks start, ts = first :: tail ∧ StartsOperand first ∧ marks ⊆ ts ∧
      marks.map Token.spelling = nameSpelling l (behindMarks absolute names) ∧
      (behindMarks absolute names).length < (tail ++ rest).length + 1 ∧
      start.toList.getLast? ≠ some ':' ∧
      start ++ String.ofList (marked (behindMarks absolute names)) = nameText absolute names ∧
      ∀ m, scopedNameTail first.position (m + 1) first.text ⟨tail ++ rest, last⟩ =
        scopedNameTail first.position (m + 1) start ⟨marks ++ rest, last⟩ := by
  obtain ⟨name, names, rfl⟩ := List.exists_cons_of_ne_nil hNe
  have hLength := congrArg List.length hts
  rw [List.length_map] at hLength
  cases absolute with
  | true =>
    obtain ⟨mark, tail, rfl, hMark, -⟩ := List.map_eq_cons_iff.mp hts
    refine ⟨mark, tail, mark :: tail, "", rfl, startsOperand_of_mark hMark, fun _ h => h, hts, ?_,
      by decide, ?_, fun m => ?_⟩
    · rw [nameTokens, if_pos rfl, length_nameSpelling, List.length_cons] at hLength
      rw [behindMarks, if_pos rfl, List.length_append]
      omega
    · rw [String.empty_append, ← String.toList_inj, nameText, String.toList_append, toList_join]
      exact String.toList_ofList
    · rw [List.cons_append, scopedNameTail_mark (by decide)
        (Token.is_of_spelling hMark (by decide) "::"), (kind_eq_of_spelling hMark).2]
      rfl
  | false =>
    obtain ⟨first, tail, rfl, hFirst, htail⟩ := List.map_eq_cons_iff.mp hts
    have hName := hNames name List.mem_cons_self
    have hText := (kind_eq_of_spelling hFirst).2
    refine ⟨first, tail, tail, first.text, rfl,
      startsOperand_of_name hFirst hName (hKind name List.mem_cons_self), List.subset_cons_self _ _,
      htail, ?_, ?_, ?_, fun m => rfl⟩
    · have hCount := length_nameSpelling (l := l) names
      rw [← htail, List.length_map] at hCount
      change names.length < _
      rw [List.length_append]
      omega
    · rw [hText]
      simpa using getLast?_append_name hName ""
    · rw [hText, ← String.toList_inj, nameText, String.toList_append, String.toList_append,
        toList_join, String.toList_ofList]
      rfl

/-- Names are an operand that stands for what they are found as if those behind a mark are
identifiers. -/
theorem operand_names (hNames : ∀ name ∈ names, IsName name) (hNe : names ≠ [])
    (hKind : ∀ name ∈ names, wordKind l name = .identifier ∨ wordKind l name = .keyword)
    (hIdentifier : ∀ name ∈ behindMarks absolute names, wordKind l name = .identifier)
    (hts : ts.map Token.spelling = nameTokens l absolute names) (hRest : Closes rest)
    (hFind : s.tree.find scope (nameText absolute names) true = some id) :
    ∃ first ∈ ts.head?, operand (resolver evaluate scope) (n + 1) ⟨ts ++ rest, last⟩ s =
      operandOf evaluate first.position (nameText absolute names) id ⟨rest, last⟩ s := by
  obtain ⟨first, tail, marks, start, rfl, hStarts, -, hMarks, hBudget, hStart, hText, hTail⟩ :=
    exists_nameTokens last rest hNames hNe hKind hts
  refine ⟨first, rfl, ?_⟩
  rw [List.cons_append, operand_word hStarts]
  refine resolver_of_name hRest ?_ hFind
  rw [hTail, ← hText]
  exact scopedNameTail_marked _ _ (fun name h => hNames name (behindMarks_subset _ _ h)) hIdentifier
    hMarks hRest.unmarked hStart hBudget

/-- Names are no operand if one of those behind a mark is a keyword. -/
theorem operand_names_refused (hNames : ∀ name ∈ names, IsName name) (hNe : names ≠ [])
    (hKind : ∀ name ∈ names, wordKind l name = .identifier ∨ wordKind l name = .keyword)
    (hOther : ∃ name ∈ behindMarks absolute names, wordKind l name ≠ .identifier)
    (hts : ts.map Token.spelling = nameTokens l absolute names) :
    ∃ t ∈ ts, operand (resolver evaluate scope) (n + 1) ⟨ts ++ rest, last⟩ s =
      failAtToken .identifierExpected t s := by
  obtain ⟨first, tail, marks, start, rfl, hStarts, hSubset, hMarks, hBudget, hStart, -, hTail⟩ :=
    exists_nameTokens last rest hNames hNe hKind hts
  obtain ⟨t, ht, hRefused⟩ := scopedNameTail_refused first.position last
    (fun name h => hNames name (behindMarks_subset _ _ h)) hOther hMarks rest hStart hBudget
  refine ⟨t, hSubset ht, ?_⟩
  rw [List.cons_append, operand_word hStarts]
  unfold resolver
  simp only [Tokens.advance, List.tail_cons, Tokens.position, List.head?_cons, Option.map_some,
    Option.getD_some]
  rw [hTail, hRefused]
  rfl

end Parsing

end IdlReader
