import IdlReader.Proofs.Source.Words

/-!
# Brackets

The brackets among tokens come in three shapes. A word of brackets is `Bracketed` if every bracket
has a partner of its own shape, and what stands between two partners is bracketed too.

Whether a word is bracketed can be told by reading it once with the brackets that are open
(`Bracket.close`). Words that leave the same brackets open amount to each other, so what is
bracketed may be left out wherever it stands.

* `bracketed_iff`: the words that are read without an open bracket at the end.
* `Amounts.append`, `amounts_of_bracketed`: what is bracketed amounts to nothing.
* `brackets_of_is`, `brackets_of_isWord`: which tokens are brackets.
-/

namespace IdlReader

/-- The shapes of brackets. -/
inductive Shape where
  | round
  | square
  | curly
deriving DecidableEq, Repr

/-- A bracket. -/
inductive Bracket where
  | opening (shape : Shape)
  | closing (shape : Shape)
deriving DecidableEq, Repr

/-- The texts of brackets. -/
def Bracket.texts : List (String × Bracket) :=
  [("(", .opening .round), (")", .closing .round), ("[", .opening .square),
    ("]", .closing .square), ("\x7b", .opening .curly), ("\x7d", .closing .curly)]

/-- The bracket that a token is. -/
def Token.bracket? (t : Token) : Option Bracket :=
  if t.isPlain then Bracket.texts.lookup t.text else none

/-- The brackets among tokens. -/
def brackets (ts : List Token) : List Bracket := ts.filterMap Token.bracket?

/-- Whether brackets are properly nested: an opening one is closed by one of its shape, and what
stands between the two and what stands behind them is properly nested as well. -/
inductive Bracketed : List Bracket → Prop where
  | nil : Bracketed []
  | pair (shape : Shape) {inner rest : List Bracket} (hInner : Bracketed inner)
      (hRest : Bracketed rest) :
      Bracketed (.opening shape :: (inner ++ .closing shape :: rest))

/-! ## Open brackets -/

/-- The brackets that are open behind a word, the last one first. `opened` are those that are open
in front of it. -/
def Bracket.close : (opened : List Shape) → List Bracket → Option (List Shape)
  | opened, [] => some opened
  | opened, .opening shape :: bs => close (shape :: opened) bs
  | shape :: opened, .closing shape' :: bs => if shape' = shape then close opened bs else none
  | [], .closing _ :: _ => none

/-- Whether a word closes brackets that are open, one after the other. -/
def Bracket.Closes : (opened : List Shape) → List Bracket → Prop
  | [], bs => Bracketed bs
  | shape :: opened, bs => ∃ inner rest, bs = inner ++ .closing shape :: rest ∧
      Bracketed inner ∧ Closes opened rest

namespace Bracket

theorem Closes.pair {shape : Shape} {opened : List Shape} {inner rest : List Bracket}
    (hInner : Bracketed inner) (hRest : Closes opened rest) :
    Closes opened (.opening shape :: (inner ++ .closing shape :: rest)) := by
  cases opened with
  | nil => exact Bracketed.pair shape hInner hRest
  | cons outer opened =>
    obtain ⟨inner', rest', rfl, hInner', hRest'⟩ := hRest
    refine ⟨.opening shape :: (inner ++ .closing shape :: inner'), rest', ?_,
      Bracketed.pair shape hInner hInner', hRest'⟩
    simp only [List.cons_append, List.append_assoc]

theorem closes_of_close {opened : List Shape} {bs : List Bracket}
    (h : close opened bs = some []) : Closes opened bs := by
  induction bs generalizing opened with
  | nil =>
    cases h
    exact .nil
  | cons b bs ih =>
    cases b with
    | opening shape =>
      obtain ⟨inner, rest, rfl, hInner, hRest⟩ := ih h
      exact Closes.pair hInner hRest
    | closing shape =>
      cases opened with
      | nil => cases h
      | cons outer opened =>
        rw [close] at h
        split at h
        · rename_i hShape
          exact ⟨[], bs, by rw [hShape, List.nil_append], .nil, ih h⟩
        · cases h

theorem close_append (opened : List Shape) (bs cs : List Bracket) :
    close opened (bs ++ cs) = (close opened bs).bind fun opened => close opened cs := by
  induction bs generalizing opened with
  | nil => rfl
  | cons b bs ih =>
    cases b with
    | opening shape => exact ih _
    | closing shape =>
      cases opened with
      | nil => rfl
      | cons outer opened =>
        rw [List.cons_append, close, close]
        split
        · exact ih _
        · rfl

theorem close_of_bracketed {bs : List Bracket} (h : Bracketed bs) (opened : List Shape) :
    close opened bs = some opened := by
  induction h generalizing opened with
  | nil => rfl
  | pair shape _ _ ihInner ihRest =>
    rw [close, close_append, ihInner, Option.bind_some, close, if_pos rfl, ihRest]

end Bracket

/-- The words that are read without an open bracket at the end. -/
theorem bracketed_iff {bs : List Bracket} : Bracketed bs ↔ Bracket.close [] bs = some [] :=
  ⟨fun h => Bracket.close_of_bracketed h [], fun h => Bracket.closes_of_close h⟩

instance (bs : List Bracket) : Decidable (Bracketed bs) := decidable_of_iff' _ bracketed_iff

example : Bracketed [.opening .round, .opening .curly, .closing .curly, .closing .round] := by
  decide

example : ¬ Bracketed [.opening .round, .closing .curly] := by decide

/-! ## Words that leave the same brackets open -/

/-- Whether behind two words the same brackets are open, whatever was open in front of them. -/
def Amounts (bs cs : List Bracket) : Prop :=
  ∀ opened, Bracket.close opened bs = Bracket.close opened cs

variable {bs bs' cs cs' ds : List Bracket}

namespace Amounts

theorem refl (bs : List Bracket) : Amounts bs bs := fun _ => rfl

theorem trans (h : Amounts bs cs) (h' : Amounts cs ds) : Amounts bs ds :=
  fun opened => (h opened).trans (h' opened)

theorem append (h : Amounts bs bs') (h' : Amounts cs cs') :
    Amounts (bs ++ cs) (bs' ++ cs') := by
  intro opened
  rw [Bracket.close_append, Bracket.close_append, h opened]
  exact congrArg _ (funext h')

/-- What stands in front of two words. -/
theorem behind (h : Amounts bs cs) (ds : List Bracket) : Amounts (ds ++ bs) (ds ++ cs) :=
  (refl ds).append h

/-- What stands behind two words. -/
theorem before (h : Amounts bs cs) (ds : List Bracket) : Amounts (bs ++ ds) (cs ++ ds) :=
  h.append (refl ds)

/-- What amounts to nothing may be left out at the end. -/
theorem drop (h : Amounts bs []) (ds : List Bracket) : Amounts (ds ++ bs) ds := by
  have hBehind := h.behind ds
  rwa [List.append_nil] at hBehind

end Amounts

theorem amounts_of_bracketed (h : Bracketed bs) : Amounts bs [] :=
  fun opened => Bracket.close_of_bracketed h opened

theorem bracketed_iff_amounts : Bracketed bs ↔ Amounts bs [] :=
  ⟨amounts_of_bracketed, fun h => bracketed_iff.mpr (h [])⟩

theorem Bracketed.append (h : Bracketed bs) (h' : Bracketed cs) : Bracketed (bs ++ cs) :=
  bracketed_iff_amounts.mpr ((amounts_of_bracketed h).append (amounts_of_bracketed h'))

/-- Two partners around what is bracketed. -/
theorem amounts_pair (shape : Shape) (h : Amounts bs []) :
    Amounts (.opening shape :: (bs ++ [Bracket.closing shape])) [] :=
  amounts_of_bracketed (.pair shape (bracketed_iff_amounts.mpr h) .nil)

/-! ## Brackets among tokens -/

theorem brackets_append (ts us : List Token) : brackets (ts ++ us) = brackets ts ++ brackets us :=
  List.filterMap_append

theorem brackets_cons (t : Token) (ts : List Token) :
    brackets (t :: ts) = brackets [t] ++ brackets ts := brackets_append [t] ts

theorem brackets_singleton (t : Token) : brackets [t] = t.bracket?.toList := by
  unfold brackets
  cases h : t.bracket? with
  | none => rw [List.filterMap_cons_none h]; rfl
  | some b => rw [List.filterMap_cons_some h]; rfl

/-- The bracket that a mark is. -/
def markOf (text : String) : List Bracket := (Bracket.texts.lookup text).toList

theorem brackets_of_is {t : Token} {text : String} (h : t.is text = true) :
    brackets [t] = markOf text := by
  rw [Token.is, Bool.and_eq_true, beq_iff_eq] at h
  rw [brackets_singleton, Token.bracket?, if_pos h.1, h.2, markOf]

/-- Tokens with a meaning of their own are no brackets. -/
theorem brackets_of_not_isPlain {t : Token} (h : t.isPlain = false) : brackets [t] = [] := by
  rw [brackets_singleton, Token.bracket?, h]
  rfl

theorem brackets_of_isFinish {t : Token} (h : t.isFinish = true) : brackets [t] = [] := by
  refine brackets_of_not_isPlain ?_
  rw [Token.isPlain, beq_iff_eq.mp h]

/-- Only the texts of brackets stand for brackets. -/
theorem exists_text {text : String} (h : markOf text ≠ []) : ∃ b ∈ Bracket.texts, b.1 = text := by
  unfold markOf at h
  cases hLookup : Bracket.texts.lookup text with
  | none =>
    rw [hLookup] at h
    exact absurd rfl h
  | some b =>
    obtain ⟨before, behind, hSplit, -⟩ := List.lookup_eq_some_iff.mp hLookup
    exact ⟨(text, b), hSplit ▸ List.mem_append_right before List.mem_cons_self, rfl⟩

theorem markOf_eq_nil {p : String → Prop} (hTexts : ∀ b ∈ Bracket.texts, ¬ p b.1)
    {text : String} (h : p text) : markOf text = [] := by
  cases hMark : markOf text with
  | nil => rfl
  | cons b bs =>
    obtain ⟨c, hc, rfl⟩ := exists_text (hMark ▸ List.cons_ne_nil b bs)
    exact absurd h (hTexts c hc)

theorem brackets_of_text {p : String → Prop} (hTexts : ∀ b ∈ Bracket.texts, ¬ p b.1)
    {t : Token} (h : p t.text) : brackets [t] = [] := by
  cases hPlain : t.isPlain with
  | false => exact brackets_of_not_isPlain hPlain
  | true =>
    have hText : t.is t.text = true := by rw [Token.is, hPlain, beq_self_eq_true, Bool.and_self]
    rw [brackets_of_is hText]
    exact markOf_eq_nil hTexts h

theorem brackets_of_markOf {t : Token} (h : markOf t.text = []) : brackets [t] = [] :=
  brackets_of_text (p := fun text => markOf text = []) (by decide) h

/-- A mark that is no bracket. -/
theorem brackets_of_mark {t : Token} {text : String} (h : t.is text = true)
    (hText : markOf text = []) : brackets [t] = [] := (brackets_of_is h).trans hText

theorem brackets_of_isOneOf {t : Token} {texts : List String} (h : t.isOneOf texts = true)
    (hTexts : ∀ text ∈ texts, markOf text = []) : brackets [t] = [] := by
  obtain ⟨text, hMem, hMark⟩ := List.any_eq_true.mp h
  exact brackets_of_mark hMark (hTexts text hMem)

/-- Names are no brackets. -/
theorem brackets_of_isWord {t : Token} (h : t.isWord = true) (hLexical : t.Lexical) :
    brackets [t] = [] := brackets_of_text (p := IsName) (by decide) (hLexical h)

/-! ## Tokens that are bracketed -/

/-- Whether the brackets among tokens are properly nested. Nothing is said about words that are no
names. -/
def Enclosed (ts : List Token) : Prop := Lexical ts → Bracketed (brackets ts)

namespace Enclosed

variable {t opening closing : Token} {ts us : List Token} {shape : Shape}

theorem nil : Enclosed [] := fun _ => .nil

theorem of_brackets (h : brackets ts = []) : Enclosed ts := fun _ => h ▸ .nil

theorem of_isWord (h : t.isWord = true) : Enclosed [t] := fun hLexical =>
  brackets_of_isWord h (hLexical t (List.mem_singleton_self t)) ▸ .nil

theorem append (h : Enclosed ts) (h' : Enclosed us) : Enclosed (ts ++ us) := by
  intro hLexical
  rw [brackets_append]
  exact (h (hLexical.mono fun _ ht => List.mem_append_left _ ht)).append
    (h' (hLexical.mono fun _ ht => List.mem_append_right _ ht))

theorem cons (h : Enclosed [t]) (h' : Enclosed ts) : Enclosed (t :: ts) := append h h'

/-- Tokens between two partners. -/
theorem pair (hOpening : brackets [opening] = [.opening shape])
    (hClosing : brackets [closing] = [.closing shape]) (h : Enclosed ts) :
    Enclosed (opening :: (ts ++ [closing])) := by
  intro hLexical
  have hInner : Lexical ts := hLexical.mono fun t ht =>
    List.mem_cons_of_mem opening (List.mem_append_left _ ht)
  rw [brackets_cons, brackets_append, hOpening, hClosing]
  exact .pair shape (h hInner) .nil

end Enclosed

end IdlReader
