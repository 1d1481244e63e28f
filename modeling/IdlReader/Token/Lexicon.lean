import IdlReader.Environment

/-!
# Words with a meaning

A lexicon says which words are keywords and which one writes the null literal. It depends
on the enabled extensions.

* `isKeyword_of_mem_keywords`: the words of the language itself are keywords whatever the
  extensions.
-/

namespace IdlReader

/-- The extensions that bring words of their own. -/
structure Lexicon where
  interfaceType : Bool
  exceptionType : Bool
  pointerType : Bool
  unicode : Bool
deriving DecidableEq, Repr

/-- The words of an environment. -/
def Environment.lexicon (env : Environment) : Lexicon :=
  ⟨env.enables .interfaceType, env.enables .exceptionType, env.enables .pointerType,
    env.enables .unicode⟩

namespace Lexicon

/-- The keywords of the language itself. -/
def keywords : List String :=
  ["any", "attribute", "bitfield", "bitmask", "bitset", "boolean", "byte", "case", "char",
    "const", "default", "double", "enum", "exception", "fixed", "float", "getraises", "in",
    "inout", "int", "int8", "int16", "int32", "int64", "interface", "local", "long", "map",
    "module", "native", "octet", "out", "raises", "readonly", "sequence", "setraises",
    "short", "string", "struct", "switch", "typedef", "uint", "uint8", "uint16", "uint32",
    "uint64", "union", "unsigned", "void", "wchar", "wstring"]

/-- The keywords that the extensions add. -/
def extended (l : Lexicon) : List String :=
  (if l.interfaceType then ["interface_id", "interface_t"] else [])
    ++ (if l.exceptionType then ["exception_id"] else [])
    ++ (if l.pointerType then ["pointer"] else [])
    ++ (if l.unicode then ["char16", "char32", "u8string", "u16string", "u32string"] else [])

/-- Whether a word is a keyword. -/
def isKeyword (l : Lexicon) (word : String) : Bool :=
  keywords.contains word || l.extended.contains word

/-- Whether a word writes the null literal. -/
def isNull (l : Lexicon) (word : String) : Bool :=
  word == "nullptr" || (l.interfaceType && word == "null")

theorem isKeyword_of_mem_keywords (l : Lexicon) {word : String} (h : word ∈ keywords) :
    l.isKeyword word = true := by
  simp [isKeyword, h]

end Lexicon

end IdlReader
