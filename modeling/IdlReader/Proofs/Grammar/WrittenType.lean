import IdlReader.Grammar.DeclaredType
import IdlReader.Proofs.Token.Scan

/-!
# Types as they are written

A type is written as the name of a base type, or as a name with a section between brackets in which
further types may be written. There is no white space around the brackets, so the brackets at the end
of sections that end together become tokens of two brackets each.

* `WrittenType`: types, whose bounds are those that may be read.
* `WrittenType.scans`: the tokens of a type in front of what follows it.
-/

namespace IdlReader

open Lexeme

/-! ## Names -/

namespace BaseType

/-- The words of the name of a base type. -/
def words : String → List String
  | "unsigned short" => ["unsigned", "short"]
  | "unsigned long" => ["unsigned", "long"]
  | "unsigned long long" => ["unsigned", "long", "long"]
  | "long long" => ["long", "long"]
  | "long double" => ["long", "double"]
  | name => [name]

/-- Whether a name with a word behind it is the name of another base type, or starts one. -/
def goesOn (name word : String) : Bool :=
  [("long", "long"), ("long", "double"), ("unsigned long", "long")].contains (name, word)

/-- The names of the types of the language and of all extensions. -/
def allNames : List (String × BaseType) := names ++ extensionNames.map fun x => (x.1, x.2.1)

/-- Whether a name may be a type on its own. -/
def isPlain (b : BaseType) : Bool :=
  b.elaborates?.isNone && !([sequence, map, pointer, bitfield].contains b)

/-- Whether the values of a type that is no enumeration are integers. -/
def isIntegral (b : BaseType) : Bool :=
  b.elaborates?.isNone && (b.kind?.map Kind.isIntegral).getD false

theorem isPlain_of_isIntegral {b : BaseType} (h : b.isIntegral = true) : b.isPlain = true := by
  revert h
  cases b <;> decide

end BaseType

/-- The name of a base type of a class. -/
def TypeName (p : BaseType → Bool) : Type :=
  { x : String × BaseType // x ∈ BaseType.allNames ∧ p x.2 = true }

namespace TypeName

variable {p : BaseType → Bool}

def text (x : TypeName p) : String := x.val.1

def base (x : TypeName p) : BaseType := x.val.2

/-- The type that is written by a name alone. -/
def declared (x : TypeName p) : DeclaredType := { base := x.base, text := x.text }

/-- The tokens of a name. -/
def spelling (x : TypeName p) : List (TokenKind × String) :=
  (BaseType.words x.text).map fun w => (.keyword, w)

/-- The name of an integral type as a type on its own. -/
def plain (x : TypeName BaseType.isIntegral) : TypeName BaseType.isPlain :=
  ⟨x.val, x.property.1, BaseType.isPlain_of_isIntegral x.property.2⟩

end TypeName

/-! ## Types -/

/-- A bound of a type. -/
def Bound : Type := { n : Nat // 1 ≤ n ∧ n < Nat.pow 2 32 }

/-- The types that hold values of another one. -/
inductive Container where
  | sequence
  | pointer
deriving DecidableEq, Repr

namespace Container

def base : Container → BaseType
  | sequence => .sequence
  | pointer => .pointer

def text : Container → String
  | sequence => "sequence"
  | pointer => "pointer"

end Container

/-- A type as it is written. -/
inductive WrittenType where
  | plain (name : TypeName BaseType.isPlain)
  | bounded (name : TypeName BaseType.isString) (length : Bound)
  | fixed (digits : Bound) (decimals : Nat) (h : decimals ≤ digits.val)
  | bitfield (bits : Nat) (h : 1 ≤ bits ∧ bits ≤ 64)
      (storage : Option (TypeName BaseType.isIntegral))
  | container (container : Container) (value : WrittenType) (length : Option Bound)
  | map (key value : WrittenType) (length : Option Bound)

/-- The spelling of brackets that close sections one after the other. -/
def closing (n : Nat) : List (TokenKind × String) :=
  List.replicate (n / 2) (TokenKind.operator, ">>") ++
    List.replicate (n % 2) (TokenKind.operator, ">")

theorem closing_add_two (n : Nat) : closing (n + 2) = (.operator, ">>") :: closing n := by
  unfold closing
  rw [Nat.add_div_right n (by decide), Nat.add_mod_right]
  rfl

namespace WrittenType

/-- The type that is read. -/
def declared : WrittenType → DeclaredType
  | plain x => x.declared
  | bounded x length => { x.declared with length := length.val }
  | fixed digits decimals _ => { base := .fixed, text := "fixed", length := digits.val, decimals }
  | bitfield bits _ storage =>
    { base := .bitfield, text := "bitfield", length := bits, value := storage.map TypeName.declared }
  | container c value length =>
    { base := c.base, text := c.text, length := (length.map Subtype.val).getD 0,
      value := some value.declared }
  | map key value length =>
    { base := .map, text := "map", length := (length.map Subtype.val).getD 0,
      key := some key.declared, value := some value.declared }

/-- The text of a bound behind a comma, if there is one. -/
def boundText : Option Bound → String
  | none => ""
  | some n => "," ++ toString n.val

/-- The text of a type. -/
def text : WrittenType → String
  | plain x => x.text
  | bounded x length => x.text ++ "<" ++ toString length.val ++ ">"
  | fixed digits decimals _ => "fixed<" ++ toString digits.val ++ "," ++ toString decimals ++ ">"
  | bitfield bits _ none => "bitfield<" ++ toString bits ++ ">"
  | bitfield bits _ (some x) => "bitfield<" ++ toString bits ++ "," ++ x.text ++ ">"
  | container c value length => c.text ++ "<" ++ value.text ++ boundText length ++ ">"
  | map key value length => "map<" ++ key.text ++ "," ++ value.text ++ boundText length ++ ">"

/-- How many brackets stand behind values that end with some, and a bound behind these. -/
def closersBehind (closers : Nat) : Option Bound → Nat
  | none => closers + 1
  | some _ => 1

/-- How many brackets stand at the end of a type. -/
def closers : WrittenType → Nat
  | plain _ => 0
  | container _ value length => closersBehind value.closers length
  | map _ value length => closersBehind value.closers length
  | _ => 1

/-- The tokens of values, and of a bound behind these, up to the brackets at the end. -/
def headBefore (head : List (TokenKind × String)) (closers : Nat) :
    Option Bound → List (TokenKind × String)
  | none => head
  | some n => head ++ closing closers ++ [(.separator, ","), (.literal .decInteger, toString n.val)]

/-- The tokens of a type up to the brackets at its end. -/
def head : WrittenType → List (TokenKind × String)
  | plain x => x.spelling
  | bounded x length => x.spelling ++ [(.operator, "<"), (.literal .decInteger, toString length.val)]
  | fixed digits decimals _ =>
    [(.keyword, "fixed"), (.operator, "<"), (.literal .decInteger, toString digits.val),
      (.separator, ","), (.literal .decInteger, toString decimals)]
  | bitfield bits _ none =>
    [(.keyword, "bitfield"), (.operator, "<"), (.literal .decInteger, toString bits)]
  | bitfield bits _ (some x) =>
    [(.keyword, "bitfield"), (.operator, "<"), (.literal .decInteger, toString bits),
      (.separator, ",")] ++ x.spelling
  | container c value length =>
    [(.keyword, c.text), (.operator, "<")] ++ headBefore value.head value.closers length
  | map key value length =>
    [(.keyword, "map"), (.operator, "<")] ++ (key.head ++ closing key.closers ++
      (.separator, ",") :: headBefore value.head value.closers length)

/-- The tokens of a type. -/
def spelling (t : WrittenType) : List (TokenKind × String) := t.head ++ closing t.closers

end WrittenType

/-! ## Tokens -/

section Scanning

variable {u : List Char} {l : Lexicon}

/-- The words of a name with a blank between them. -/
def joined : List String → List Char
  | [] => []
  | [w] => w.toList
  | w :: ws => w.toList ++ ' ' :: joined ws

/-- The words of which names of base types consist. -/
structure IsTypeWord (w : String) : Prop where
  name : IsName w
  plain : encodings.contains w = false
  keyword : wordKind ⟨true, true, true, true⟩ w = .keyword

instance (w : String) : Decidable (IsTypeWord w) :=
  decidable_of_iff (IsName w ∧ encodings.contains w = false ∧
    wordKind ⟨true, true, true, true⟩ w = .keyword)
    ⟨fun h => ⟨h.1, h.2.1, h.2.2⟩, fun h => ⟨h.name, h.plain, h.keyword⟩⟩

theorem isTypeWord_of_mem {x : String × BaseType} (h : x ∈ BaseType.allNames) :
    x.1.toList = joined (BaseType.words x.1) ∧ ∀ w ∈ BaseType.words x.1, IsTypeWord w := by
  have hAll : ∀ x ∈ BaseType.allNames,
      x.1.toList = joined (BaseType.words x.1) ∧ ∀ w ∈ BaseType.words x.1, IsTypeWord w := by
    decide +kernel
  exact hAll x h

variable (hl : l = ⟨true, true, true, true⟩)

include hl

theorem scans_word {w : String} (h : IsTypeWord w) (hu : ∀ c ∈ u.head?, Text.isWord c = false) :
    Scans l (w.toList ++ u) [(.keyword, w)] u := by
  subst hl
  have hQuote : encodings.contains w = true → ∀ c ∈ u.head?, isQuote c = false := fun hEncoding =>
    Bool.noConfusion (h.plain.symm.trans hEncoding)
  have hOpens := opens_word h.name hQuote (by rw [h.keyword]; exact nofun) hu
  rw [h.keyword] at hOpens
  have hScans := Scans.single hOpens
  rw [String.ofList_toList] at hScans
  exact hScans

theorem scans_joined {ws : List String} (hNe : ws ≠ []) (h : ∀ w ∈ ws, IsTypeWord w)
    (hu : ∀ c ∈ u.head?, Text.isWord c = false) :
    Scans l (joined ws ++ u) (ws.map fun w => (.keyword, w)) u := by
  induction ws with
  | nil => exact absurd rfl hNe
  | cons w ws ih =>
    have hWord := h w List.mem_cons_self
    cases ws with
    | nil => exact scans_word hl hWord hu
    | cons w' ws =>
      have hRest := ih (List.cons_ne_nil w' ws) fun v hv => h v (List.mem_cons_of_mem w hv)
      have hFirst := scans_word (u := ' ' :: (joined (w' :: ws) ++ u)) hl hWord
        (by rintro _ ⟨⟩; rfl)
      have hAll := hFirst.append (.space rfl hRest)
      rw [joined]
      · simpa using hAll
      · exact List.cons_ne_nil w' ws

/-- The name of a base type, in front of what is no word. -/
theorem TypeName.scans {p : BaseType → Bool} (x : TypeName p)
    (hu : ∀ c ∈ u.head?, Text.isWord c = false) : Scans l (x.text.toList ++ u) x.spelling u := by
  obtain ⟨hText, hWords⟩ := isTypeWord_of_mem x.property.1
  have hNe : BaseType.words x.text ≠ [] := by
    unfold BaseType.words
    split <;> exact List.cons_ne_nil _ _
  have hText : x.text.toList = joined (BaseType.words x.text) := hText
  rw [hText]
  exact scans_joined hl hNe hWords hu

omit hl

theorem scans_decimal (n : Nat) (hu : ∀ c ∈ u.head?, Text.isWord c = false ∧ c ≠ '.') :
    Scans l ((toString n).toList ++ u) [(.literal .decInteger, toString n)] u := by
  have hScans := Scans.single (l := l) (opens_decimal n hu)
  rw [String.ofList_toList] at hScans
  exact hScans

theorem scans_comma : Scans l (',' :: u) [(.separator, ",")] u := Scans.single opens_comma

theorem isDoubleOperator_of_isWord {b c : Char} (h : Text.isWord c = true) :
    isDoubleOperator b c = false := by
  refine Bool.eq_false_iff.mpr fun hDouble => ?_
  unfold isDoubleOperator at hDouble
  split at hDouble
  all_goals simp only [Bool.or_eq_true, beq_iff_eq, Bool.false_eq_true] at hDouble
  all_goals rcases hDouble with rfl | rfl <;> cases h

theorem scans_opening (hu : ∀ c ∈ u.head?, Text.isWord c = true) :
    Scans l ('<' :: u) [(.operator, "<")] u :=
  Scans.single (opens_operator (.inl rfl) fun c hc => isDoubleOperator_of_isWord (hu c hc))

/-- Brackets that close sections, in front of what is no operator with them. -/
theorem scans_closing (n : Nat) (hu : 0 < n → ∀ c ∈ u.head?, isDoubleOperator '>' c = false) :
    Scans l (List.replicate n '>' ++ u) (closing n) u := by
  induction n using Nat.strongRecOn with
  | ind n ih =>
  match n with
  | 0 => exact .done
  | 1 => exact Scans.single (opens_operator (.inr rfl) (hu Nat.one_pos))
  | n + 2 =>
    have hRest := ih n (by omega) fun _ => hu (Nat.succ_pos _)
    rw [closing_add_two]
    exact .token (s := ['>', '>']) opens_double hRest

/-- What may follow a type with brackets at its end, or without any. -/
structure Follows (n : Nat) (u : List Char) : Prop where
  word : n = 0 → ∀ c ∈ u.head?, Text.isWord c = false
  bracket : 0 < n → ∀ c ∈ u.head?, isDoubleOperator '>' c = false

theorem follows_comma (n : Nat) (u : List Char) : Follows n (',' :: u) := by
  refine ⟨fun _ => ?_, fun _ => ?_⟩ <;>
  · rintro _ ⟨⟩
    rfl

/-- A bound at the end of a section. -/
theorem scans_last (k : Nat) {n : Nat} (hu : Follows (n + 1) u) :
    Scans l ((toString k).toList ++ (List.replicate (n + 1) '>' ++ u))
      ((.literal .decInteger, toString k) :: closing (n + 1)) u := by
  have hEnd : ∀ c ∈ (List.replicate (n + 1) '>' ++ u).head?, Text.isWord c = false ∧ c ≠ '.' := by
    rintro _ ⟨⟩
    decide
  exact (scans_decimal k hEnd).append (scans_closing (n + 1) hu.bracket)

theorem isWord_decimal (n : Nat) :
    ∀ c ∈ ((toString n).toList ++ u).head?, Text.isWord c = true := by
  rw [Nat.toString_eq_ofList_toDigits, String.toList_ofList]
  cases hDigits : Nat.toDigits 10 n with
  | nil => exact absurd hDigits Nat.toDigits_ne_nil
  | cons d ds =>
    rintro _ ⟨⟩
    have hDigit : d.isDigit = true :=
      Nat.isDigit_of_mem_toDigits (b := 10) (n := n) (by decide) (by decide)
        (by rw [hDigits]; exact List.mem_cons_self)
    rw [Text.isWord, Char.isAlphanum, hDigit, Bool.or_true, Bool.true_or]

theorem TypeName.isWord_text {p : BaseType → Bool} (x : TypeName p) :
    ∀ c ∈ (x.text.toList ++ u).head?, Text.isWord c = true := by
  have hAll : ∀ x ∈ BaseType.allNames, (x.1.toList.head?.map Text.isWord) = some true := by
    decide +kernel
  have hHead : (x.text.toList.head?.map Text.isWord) = some true := hAll _ x.property.1
  cases hText : x.text.toList with
  | nil =>
    rw [hText] at hHead
    cases hHead
  | cons c t =>
    rw [hText] at hHead
    rintro _ ⟨⟩
    exact Option.some.inj hHead

theorem WrittenType.isWord_text (t : WrittenType) :
    ∀ c ∈ (t.text.toList ++ u).head?, Text.isWord c = true := by
  cases t with
  | plain x => exact x.isWord_text
  | bounded x length =>
    simp only [text, String.toList_append, List.append_assoc]
    exact x.isWord_text
  | fixed digits decimals h =>
    simp only [text, String.toList_append, List.append_assoc]
    rintro _ ⟨⟩
    rfl
  | bitfield bits h storage =>
    cases storage <;>
    · simp only [text, String.toList_append, List.append_assoc]
      rintro _ ⟨⟩
      rfl
  | container c value length =>
    cases c <;>
    · simp only [text, String.toList_append, List.append_assoc]
      rintro _ ⟨⟩
      rfl
  | map key value length =>
    simp only [text, String.toList_append, List.append_assoc]
    rintro _ ⟨⟩
    rfl

include hl

/-- The start of a section. -/
theorem scans_section {w : String} (h : IsTypeWord w) (hu : ∀ c ∈ u.head?, Text.isWord c = true) :
    Scans l (w.toList ++ '<' :: u) [(.keyword, w), (.operator, "<")] u :=
  (scans_word hl h (by rintro _ ⟨⟩; rfl)).append (scans_opening hu)

omit hl in
/-- Values and a bound up to the end of a section. -/
theorem scans_behind {t : WrittenType} (ih : ∀ {n : Nat} {u : List Char}, Follows (t.closers + n) u →
      Scans l (t.text.toList ++ (List.replicate n '>' ++ u)) (t.head ++ closing (t.closers + n)) u)
    (length : Option Bound) {n : Nat}
    (hu : Follows (WrittenType.closersBehind t.closers length + n) u) :
    Scans l (t.text.toList ++ ((WrittenType.boundText length).toList ++
        (List.replicate (n + 1) '>' ++ u)))
      (WrittenType.headBefore t.head t.closers length ++
        closing (WrittenType.closersBehind t.closers length + n)) u := by
  cases length with
  | none =>
    have hCount : t.closers + 1 + n = t.closers + (n + 1) := by omega
    unfold WrittenType.closersBehind at hu ⊢
    rw [hCount] at hu ⊢
    exact ih hu
  | some k =>
    have hCount : 1 + n = n + 1 := by omega
    unfold WrittenType.closersBehind at hu ⊢
    rw [hCount] at hu ⊢
    have hValue := ih (n := 0) (follows_comma t.closers ((toString k.val).toList ++
      (List.replicate (n + 1) '>' ++ u)))
    have hAll := hValue.append (scans_comma.append (scans_last k.val hu))
    simpa [WrittenType.boundText, WrittenType.headBefore] using hAll

/-- The tokens of a type with more brackets behind it. -/
theorem WrittenType.scans (t : WrittenType) {n : Nat} (hu : Follows (t.closers + n) u) :
    Scans l (t.text.toList ++ (List.replicate n '>' ++ u)) (t.head ++ closing (t.closers + n)) u := by
  induction t generalizing n u with
  | plain x =>
    have hEnd : ∀ c ∈ (List.replicate n '>' ++ u).head?, Text.isWord c = false := by
      cases n with
      | zero => exact hu.word rfl
      | succ n =>
        rintro _ ⟨⟩
        rfl
    have hClosing := scans_closing (l := l) n fun hPos => hu.bracket (by omega)
    have hScans := (x.scans hl hEnd).append hClosing
    simpa [text, head, closers] using hScans
  | bounded x length =>
    have hCount : 1 + n = n + 1 := by omega
    unfold closers at hu ⊢
    rw [hCount] at hu ⊢
    have hName := x.scans (u := '<' :: ((toString length.val).toList ++
      (List.replicate (n + 1) '>' ++ u))) hl (by rintro _ ⟨⟩; rfl)
    have hScans := hName.append
      ((scans_opening (isWord_decimal length.val)).append (scans_last length.val hu))
    simpa [text, head, List.replicate_succ] using hScans
  | fixed digits decimals h =>
    have hCount : 1 + n = n + 1 := by omega
    unfold closers at hu ⊢
    rw [hCount] at hu ⊢
    have hDigits := scans_decimal (l := l) digits.val (u := ',' :: ((toString decimals).toList ++
      (List.replicate (n + 1) '>' ++ u))) (by rintro _ ⟨⟩; decide)
    have hScans := (scans_section (w := "fixed") hl (by decide +kernel)
      (isWord_decimal digits.val)).append
        (hDigits.append (scans_comma.append (scans_last decimals hu)))
    simpa [text, head, List.replicate_succ] using hScans
  | bitfield bits h storage =>
    have hCount : 1 + n = n + 1 := by omega
    unfold closers at hu ⊢
    rw [hCount] at hu ⊢
    have hWord : IsTypeWord "bitfield" := by decide +kernel
    cases storage with
    | none =>
      have hScans := (scans_section hl hWord (isWord_decimal bits)).append (scans_last bits hu)
      simpa [text, head, List.replicate_succ] using hScans
    | some x =>
      have hBits := scans_decimal (l := l) bits (u := ',' :: (x.text.toList ++
        (List.replicate (n + 1) '>' ++ u))) (by rintro _ ⟨⟩; decide)
      have hStorage := x.scans (u := List.replicate (n + 1) '>' ++ u) hl (by rintro _ ⟨⟩; rfl)
      have hScans := (scans_section hl hWord (isWord_decimal bits)).append
        (hBits.append (scans_comma.append (hStorage.append (scans_closing (n + 1) hu.bracket))))
      simpa [text, head, List.replicate_succ] using hScans
  | container c value length ih =>
    have hWord : IsTypeWord c.text := by cases c <;> decide +kernel
    have hScans := (scans_section hl hWord (value.isWord_text (u := _))).append
      (scans_behind ih length hu)
    simpa [text, head, closers, List.replicate_succ] using hScans
  | map key value length ihKey ihValue =>
    have hKey := ihKey (n := 0) (follows_comma key.closers (value.text.toList ++
      ((boundText length).toList ++ (List.replicate (n + 1) '>' ++ u))))
    have hScans := (scans_section (w := "map") hl (by decide +kernel) (key.isWord_text (u := _))).append
      (hKey.append (scans_comma.append (scans_behind ihValue length hu)))
    simpa [text, head, closers, List.replicate_succ] using hScans

end Scanning

end IdlReader
