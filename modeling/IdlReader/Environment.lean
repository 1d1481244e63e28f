import IdlReader.Text.Blank
import IdlReader.ValueList

/-!
# Environments

An environment holds what a reading depends on besides the text: where to look for
included files, which macros are predefined, how deep files may include each other, and
which extensions of the language are enabled.
-/

namespace IdlReader

/-- The extensions of the language. -/
inductive Extension where
  /-- The types `interface_id` and `interface_t`, and `null`. -/
  | interfaceType
  /-- The type `exception_id`. -/
  | exceptionType
  /-- The type `pointer`. -/
  | pointerType
  /-- Characters of 16 and 32 bits and the strings of encoded characters. -/
  | unicode
  /-- Names that differ in case are different names. -/
  | caseSensitiveNames
  /-- Declarations may be named by keywords. -/
  | contextDependentNames
  /-- Arrays of more than one dimension. -/
  | multiDimArray
deriving DecidableEq, Repr

/-- The extensions in their listed order. -/
def Extension.all : List Extension :=
  [.interfaceType, .exceptionType, .pointerType, .unicode, .caseSensitiveNames,
    .contextDependentNames, .multiDimArray]

/-- What a reading depends on besides the text. -/
structure Environment where
  includeDirs : List String := []
  outputDir : Option String := none
  /-- Predefined macros, each as `NAME` or `NAME=VALUE`. -/
  defines : List String := []
  /-- How many files may be open at once. -/
  maxIncludeDepth : Nat := 48
  extensions : List Extension :=
    [.interfaceType, .exceptionType, .pointerType, .unicode, .contextDependentNames,
      .multiDimArray]
deriving DecidableEq, Repr

namespace Environment

/-- The environment in which all extensions are disabled. -/
def strict : Environment := { extensions := [] }

/-- Whether an extension is enabled. -/
def enables (env : Environment) (e : Extension) : Bool := env.extensions.contains e

/-- The environment with an extension enabled or disabled. -/
def setExtension (env : Environment) (e : Extension) (enabled : Bool) : Environment :=
  { env with
    extensions :=
      Extension.all.filter fun d => if d = e then enabled else env.extensions.contains d }

/-- The environment with one more predefined macro. -/
def addDefine (env : Environment) (define : String) : Environment :=
  { env with defines := env.defines ++ [define] }

/-- The environment with the directories of a list of values; empty values name none. -/
def addIncludeList (env : Environment) (list : String) : Except Cause Environment := do
  let dirs ← ValueList.split list.toList
  let dirs := (dirs.filter fun d => !d.isEmpty).map String.ofList
  return { env with includeDirs := env.includeDirs ++ dirs }

/-- The environment with the macros of a list of values; blank values define none. -/
def addDefineList (env : Environment) (list : String) : Except Cause Environment := do
  let defines ← ValueList.split list.toList
  let defines := (defines.filter fun d => !(Text.trim d).isEmpty).map String.ofList
  return { env with defines := env.defines ++ defines }

theorem enables_setExtension (env : Environment) (e : Extension) (enabled : Bool) :
    (env.setExtension e enabled).enables e = enabled := by
  cases e <;> cases enabled <;> simp [setExtension, enables, Extension.all]

end Environment

end IdlReader
