import IdlReader.Text.Blank
import IdlReader.Token.Lexer

/-!
# Macro definitions

A macro has a name, parameters if it is called like a function, and a body. A table holds
the macros that are defined. A macro may be defined again with the same content only.

* `find?_eraseName_self`: a macro that was removed is not defined.
-/

namespace IdlReader

/-- A defined macro. -/
structure MacroDefinition where
  name : String
  /-- The parameters of a macro that is called like a function. -/
  parameters : Option (List String)
  body : String
  /-- The tokens of the body. -/
  tokens : List Token
deriving DecidableEq, Repr

namespace MacroDefinition

/-- Whether calls of a macro have arguments. -/
def isFunctionLike (d : MacroDefinition) : Bool := d.parameters.isSome

/-- Whether two definitions have the same content. -/
def sameContent (d e : MacroDefinition) : Bool :=
  d.name == e.name && d.parameters == e.parameters && d.body == e.body

/-- Reads one parameter after the other; `seen` holds the earlier ones with the latest
first. -/
def readParameters (seen : List String) : List (List Char) → Except Fault (List String)
  | [] => .ok seen.reverse
  | p :: ps =>
    let p := Text.trim p
    let name := String.ofList p
    if p.isEmpty || !p.all Text.isWord then fail .parameterNameExpected
    else if seen.contains name then fail .parameterRepeated
    else readParameters (name :: seen) ps

/-- The parts of a text between commas. -/
def splitCommas : List Char → List (List Char)
  | [] => [[]]
  | c :: cs =>
    if c = ',' then [] :: splitCommas cs
    else
      match splitCommas cs with
      | [] => [[c]]
      | p :: ps => (c :: p) :: ps

/-- The parameters of a list in parentheses, of which `s` holds what follows the opening
one, and what is left behind the closing one. -/
def readParameterList (s : List Char) : Except Fault (List String × List Char) :=
  let list := s.takeWhile (· ≠ ')')
  match s.dropWhile (· ≠ ')') with
  | [] => fail .parameterListOpen
  | _ :: rest => do
    let list := Text.trim list
    let parameters ← if list.isEmpty then pure [] else readParameters [] (splitCommas list)
    return (parameters, rest)

/-- Reads a definition such as `F(a, b) a + b`. -/
def read (l : Lexicon) (text : List Char) : Except Fault MacroDefinition := do
  let text := Text.trimLeft text
  let name := text.takeWhile Text.isWord
  let rest := text.dropWhile Text.isWord
  if !Text.isName name then fail .definitionNameMissing
  let (parameters, rest) ← match rest with
    | '(' :: s => do
      let (parameters, rest) ← readParameterList s
      pure (some parameters, rest)
    | rest => pure (none, rest)
  let body := Text.trim rest
  let tokens ← tokenize l false 0 body
  return { name := String.ofList name, parameters, body := String.ofList body, tokens }

end MacroDefinition

/-- The macros that are defined, with at most one of a name. -/
structure MacroTable where
  lexicon : Lexicon
  definitions : List MacroDefinition := []
deriving DecidableEq, Repr

namespace MacroTable

/-- The macro with a name. -/
def find? (t : MacroTable) (name : String) : Option MacroDefinition :=
  t.definitions.find? fun d => d.name == name

/-- Whether a macro with a name is defined. -/
def isDefined (t : MacroTable) (name : String) : Bool := (t.find? name).isSome

/-- The table without the macro of a name. -/
def eraseName (t : MacroTable) (name : String) : MacroTable :=
  { t with definitions := t.definitions.filter fun d => d.name != name }

/-- Defines a macro by a text such as `F(a, b) a + b`; gives its name. -/
def define (t : MacroTable) (text : List Char) : Except Fault (String × MacroTable) := do
  let d ← MacroDefinition.read t.lexicon text
  match t.find? d.name with
  | some e => if d.sameContent e then return (d.name, t) else fail .macroRedefined
  | none => return (d.name, { t with definitions := d :: t.definitions })

/-- Defines a macro by a text such as `NAME` or `NAME=VALUE`. -/
def predefine (t : MacroTable) (text : List Char) : Except Fault (String × MacroTable) :=
  let name := text.takeWhile (· ≠ '=')
  match text.dropWhile (· ≠ '=') with
  | [] => t.define text
  | _ :: value => t.define (Text.trim name ++ ' ' :: value)

/-- The table of the predefined macros of an environment. -/
def ofEnvironment (env : Environment) : Except Fault MacroTable :=
  env.defines.foldlM (fun t text => Prod.snd <$> t.predefine text.toList) ⟨env.lexicon, []⟩

theorem find?_eraseName_self (t : MacroTable) (name : String) :
    (t.eraseName name).find? name = none := by
  simp [find?, eraseName]

end MacroTable

end IdlReader
