import IdlReader.Macro.Table

/-!
# Expansion of macros

A call of a macro is replaced by the tokens of its body, with the arguments in place of the
parameters. `#` makes a text of an argument and `##` joins two tokens to one. The result
is searched for further calls; a macro that is being expanded is hidden from the search, so
the expansion ends.
-/

namespace IdlReader

namespace Macro

/-! ## Arguments -/

/-- Puts a token in front of the first of several arguments. -/
def consFirst (t : Token) : List (List Token) → List (List Token)
  | [] => [[t]]
  | a :: as => (t :: a) :: as

/-- The number of open parentheses behind a token. -/
def depthAfter (depth : Nat) (t : Token) : Nat :=
  if t.is "(" then depth + 1 else if t.is ")" then depth - 1 else depth

/-- The arguments up to the parenthesis that closes the call, and the number of tokens up
to it. `depth` parentheses are open inside of the call. -/
def splitArguments (depth : Nat) : List Token → Option (List (List Token) × Nat)
  | [] => none
  | t :: ts =>
    if t.is ")" && depth == 0 then some ([[]], 1)
    else if t.is "," && depth == 0 then
      (splitArguments 0 ts).map fun r => ([] :: r.1, r.2 + 1)
    else (splitArguments (depthAfter depth t) ts).map fun r => (consFirst t r.1, r.2 + 1)

/-- The arguments of a call, of which `ts` follows the opening parenthesis, and the number
of tokens up to the closing one. -/
def arguments (ts : List Token) : Except Fault (List (List Token) × Nat) :=
  match splitArguments 0 ts with
  | some r => .ok r
  | none => fail .callUnclosed

/-! ## Substitution -/

/-- A text with a backslash in front of each backslash and quote. -/
def escapeQuoted : List Char → List Char
  | [] => []
  | c :: cs => if c = '\\' || c = '"' then '\\' :: c :: escapeQuoted cs else c :: escapeQuoted cs

/-- The string literal of the texts of an argument, at the place of the token `at`. -/
def stringize (argument : List Token) (place : Token) : Token :=
  Token.point (.literal .string)
    (String.ofList ('"' :: escapeQuoted (joinTexts argument).toList ++ ['"']))
    place.position place.source

/-- The parameter that a token names, by its number. -/
def parameter? (parameters : List String) (t : Token) : Option Nat :=
  if t.isWord then parameters.findIdx? (· == t.text) else none

/-- A call of a macro: its definition and the arguments for its parameters. -/
structure Call where
  definition : MacroDefinition
  arguments : List (List Token)

namespace Call

/-- The argument for the parameter that a token names. -/
def argument? (c : Call) (t : Token) : Option (List Token) := do
  let i ← parameter? (c.definition.parameters.getD []) t
  c.arguments[i]?

/-- The tokens that `##` makes of its operands: the last token in front of it and the
argument or token behind it, of which the first joins the last. -/
def paste (l : Lexicon) (c : Call) (left : Token) (sign next : Token) :
    Except Fault (List Token) := do
  let right := (c.argument? next).getD [next]
  let joined := left.text ++ (right.head?.map Token.text).getD ""
  let tokens ← tokenize l false sign.source joined.toList
  return tokens ++ right.tail

/-- Replaces the parameters in a body. `out` holds what came out so far with the latest
first, and `expand` expands an argument. -/
def substitute (l : Lexicon) (c : Call) (expand : List Token → Except Fault (List Token)) :
    List Token → List Token → Except Fault (List Token)
  | out, [] => .ok out.reverse
  | out, [t] =>
    if t.is "#" then fail (.stringizeOperand c.definition.name)
    else if t.is "##" then fail (.pasteOperand c.definition.name)
    else
      match c.argument? t with
      | some a => do
        let a ← expand a
        return out.reverse ++ a
      | none => .ok (t :: out).reverse
  | out, t :: next :: body =>
    if t.is "#" then
      match c.argument? next with
      | some a => substitute l c expand (stringize a t :: out) body
      | none => fail (.stringizeOperand c.definition.name)
    else if t.is "##" then
      match out with
      | left :: out => do
        let joined ← c.paste l left t next
        substitute l c expand (joined.reverse ++ out) body
      | [] => fail (.pasteOperand c.definition.name)
    else
      match c.argument? t with
      | some a =>
        if next.is "##" then substitute l c expand (a.reverse ++ out) (next :: body)
        else do
          let a ← expand a
          substitute l c expand (a.reverse ++ out) (next :: body)
      | none => substitute l c expand (t :: out) (next :: body)

end Call

/-! ## Calls inside of tokens -/

/-- Expands one call: the hidden names, the token that names the macro and the arguments
if there are any. -/
abbrev Expander := List String → Token → Option (List (List Token)) → Except Fault (List Token)

/-- The macro that a token may call. -/
def called? (table : MacroTable) (hidden : List String) (t : Token) : Option MacroDefinition :=
  if t.isWord && !t.expanded && !hidden.contains t.text then table.find? t.text else none

/-- Expands the calls in a list of tokens behind the first `skip` tokens, which belong to
an earlier call. -/
def rescan (table : MacroTable) (expand : Expander) (hidden : List String) :
    (skip : Nat) → List Token → Except Fault (List Token)
  | _, [] => .ok []
  | skip + 1, _ :: ts => rescan table expand hidden skip ts
  | 0, t :: ts =>
    match called? table hidden t with
    | none => do
      let rest ← rescan table expand hidden 0 ts
      return t :: rest
    | some d =>
      if d.isFunctionLike then
        if (ts.head?.map (·.is "(")).getD false then do
          let (args, taken) ← arguments (ts.drop 1)
          let replaced ← expand (t.text :: hidden) t (some args)
          let rest ← rescan table expand hidden (taken + 1) ts
          return replaced ++ rest
        else do
          let rest ← rescan table expand hidden 0 ts
          return t :: rest
      else do
        let replaced ← expand (t.text :: hidden) t none
        let rest ← rescan table expand hidden 0 ts
        return replaced ++ rest

/-- The arguments of a call for as many parameters. Empty parentheses hold no argument if
there is no parameter. -/
def matchArguments (name : Token) (parameters : List String)
    (args : Option (List (List Token))) : Except Fault (List (List Token)) :=
  let args := args.getD []
  let args := if parameters.isEmpty && args == [[]] then [] else args
  if args.length < parameters.length then failAt .argumentsMissing name.position
  else if parameters.length < args.length then failAt .argumentsTooMany name.position
  else .ok args

/-- The tokens in place of a call before they are searched for further calls. -/
def replace (table : MacroTable) (expand : List Token → Except Fault (List Token))
    (d : MacroDefinition) (name : Token) (args : Option (List (List Token))) :
    Except Fault (List Token) :=
  match d.parameters with
  | none => .ok d.tokens
  | some parameters => do
    let args ← matchArguments name parameters args
    Call.substitute table.lexicon ⟨d, args⟩ expand [] d.tokens

/-- Expands a call. Every call inside of a call hides one more of the defined names, so at
most as many calls as there are macros lie inside of each other. `expand` starts with one
more, and no call comes to `depth` zero: what is given there is of no account. -/
def expandWithin (table : MacroTable) : (depth : Nat) → Expander
  | 0, _, name, _ => .ok [name]
  | depth + 1, hidden, name, args =>
    match table.find? name.text with
    | none => fail (.macroUndefined name.text)
    | some d => do
      let search := rescan table (expandWithin table depth) hidden 0
      let replaced ← replace table search d name args
      search replaced

/-- A token that an expansion put in the place of a macro's name. -/
def placeAt (name t : Token) : Token :=
  { t with
    span := ⟨name.position, ⟨name.position.line, name.span.last.col⟩⟩,
    source := name.source, expanded := true }

/-- Expands the call of a macro; all tokens stand where its name stood. -/
def expand (table : MacroTable) (name : Token) (args : Option (List (List Token))) :
    Except Fault (List Token) := do
  let tokens ← expandWithin table (table.definitions.length + 1) [name.text] name args
  return tokens.map (placeAt name)

end Macro

end IdlReader
