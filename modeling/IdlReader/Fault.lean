import IdlReader.Position

/-!
# Faults

A fault is the reason why an operation did not answer: a cause, and the place it was
found at as far as that is known. Causes are data (`Cause`); their category and their
wording are functions of them (`Cause.category`, `Cause.message`).

A place is filled in from the inside out: whoever knows it first states it
(`Fault.placed`, `Fault.inFile`), and callers only add what is still missing (`Fault.orAt`,
`Fault.orInFile`).
-/

namespace IdlReader

/-- What part of the job a cause belongs to. -/
inductive Category where
  /-- Malformed characters, comments or literals. -/
  | lexical
  /-- Tokens that the grammar cannot place. -/
  | grammar
  /-- A name that stands for nothing. -/
  | resolution
  /-- A name that is taken. -/
  | duplicate
  /-- A constant that cannot be computed. -/
  | constant
  /-- A file that cannot be included. -/
  | inclusion
  /-- A malformed or misplaced directive. -/
  | directive
  /-- A broken promise between two parts of this library. -/
  | internal
deriving DecidableEq, Repr

/-- Why an operation did not answer. -/
inductive Cause where
  -- lists of values
  | listQuoteUnterminated
  | listQuoteInside
  | listLeadingSeparator
  -- characters and tokens
  | strayCharacter (c : Char)
  | unterminatedComment
  | unterminatedString
  | unterminatedCharacter
  | missingDigits
  | badOctal
  | badSuffix
  -- literals
  | literalExpected
  | integerTooLarge
  | signedIntegerTooLarge
  | badFixedPoint
  | badFloatingPoint
  | emptyCharacter
  | characterOutOfRange
  | badEscape
  | badCharacterCode
  -- constants
  | castAbove
  | castBelow
  | castBelowSigned
  | castPrecision
  | castIncompatible
  | operandsIncompatible
  | operandsNotIntegral
  | booleanBitwise
  | booleanDivision
  | booleanSign
  | divisionByZero
  | shiftCount
  -- expressions
  | expressionMissing
  | operandMissing
  | operatorExpected
  | tokenInExpression (text : String)
  | constantExpressionExpected
  | expected (text : String)
  | unknownVariable (text : String)
  -- definitions and calls of macros
  | definitionNameMissing
  | parameterListOpen
  | parameterNameExpected
  | parameterRepeated
  | macroRedefined
  | macroUndefined (name : String)
  | argumentsMissing
  | argumentsTooMany
  | stringizeOperand (name : String)
  | pasteOperand (name : String)
  | callUnclosed
  | callUnclosedIn (name : String)
  -- directives
  | directiveUnknown
  | pragmaUnsupported
  | verbatimEndAlone
  | verbatimEndMissing
  | elifUnexpected
  | elifRepeated
  | elseUnexpected
  | elseRepeated
  | endifUnexpected
  | endifMissing
  | definedOperandInParentheses
  | definedOperand
  | definedParenthesis
  | includeTarget
  | includeUnclosed
  | includeNameEmpty
  -- files
  | includeNotFound
  | includeRepeated (path : String)
  | includeTooDeep
  | sourceUnopened (path reason : String)
  | sourceUnread (path reason : String)
  | includeUnopened (path reason : String)
  | includeUnread (path reason : String)
  -- names
  | nameInherited (name : String)
  | nameTakenBy (kind : String)
  | nameTaken
  | undefinedName (name : String)
  -- types
  | typeNameExpected
  | unsignedBaseExpected
  | kindMismatch (kind : String)
  | typeInvalid
  | fixedSizeNumber
  | fixedDecimalsNumber
  | stringSizeNumber
  | bitCountNumber
  | bitCountTooLarge
  | bitfieldIntegral
  | sizeNumber
  | templateOpen
  | templateClose
  | stringTemplateClose
  | commaExpected
  -- definitions
  | identifierExpected
  | reservedName
  | unnamedAtRoot
  | unnamedDefinition
  | openBraceExpected
  | closeBraceExpected
  | closeBraceUnexpected
  | inheritanceUnsupported
  | baseNotFound
  | baseKind
  | baseForward
  | switchExpected
  | switchOpen
  | switchClose
  | switchType
  | keywordUnexpected (text : String)
  | onlyInterfacesLocal
  | semicolonUnexpected
  | semicolonAfterToken
  | declarationRequired
  | attributeExpected
  -- declarations
  | variableUnsupported
  | voidUnsupported
  | interfaceUnsupported
  | parenthesisUnexpected
  | parenthesisOpenExpected
  | parenthesisCloseExpected
  | declarationUnterminated
  | multipleUnsupported
  | raisesSeparate
  | accessorRaises (text : String)
  | setRaisesReadonly
  | raisesRepeated (text : String)
  | raisesEmpty
  | notAnException (name : String)
  | assignmentUnsupported
  | assignmentExpected
  | assignmentUnterminated
  | bracketUnexpected
  | dimensionsUnsupported
  | dimensionAtEnd
  | dimensionUnclosed
  | directionExpected
  | caseColonExpected
  | caseLabelMissing
  | defaultWithValue
  | definitionInUnion
  | enumSeparator
  -- values
  | memberNameExpected
  | notADeclaration (name : String)
  | valueUnusable (name : String)
  | circular
  | arraySizeZero
  | arrayOverfull
  | compoundOverfull
  | initializerExpected
  | initializerGap
  | typeUnassignable (text : String)
  | constExpected
  | enumEntryConstant
  | enumEntryScalar (name : String)
  | enumEntryRepeated (name : String)
  | caseLabelConstant
  | defaultRepeated
  | caseLabelRepeated
  -- promises between the parts of the library
  | childrenUnsupported (kind name : String)
  | scopeMissing
  | inputExhausted
  /-- A cause in somebody else's words. -/
  | stated (category : Category) (text : String)
deriving DecidableEq, Repr

namespace Cause

/-- The category of a cause. -/
def category : Cause → Category
  | listQuoteUnterminated | listQuoteInside | listLeadingSeparator => .grammar
  | strayCharacter _ | unterminatedComment | unterminatedString | unterminatedCharacter
  | missingDigits | badOctal | badSuffix => .lexical
  | literalExpected => .grammar
  | integerTooLarge | signedIntegerTooLarge | badFixedPoint | badFloatingPoint
  | emptyCharacter | characterOutOfRange | badEscape | badCharacterCode => .lexical
  | castAbove | castBelow | castBelowSigned | castPrecision | castIncompatible
  | operandsIncompatible | operandsNotIntegral | booleanBitwise | booleanDivision
  | booleanSign | divisionByZero | shiftCount => .constant
  | unknownVariable _ => .resolution
  | definitionNameMissing | parameterListOpen | parameterNameExpected | parameterRepeated
  | macroRedefined | argumentsMissing | argumentsTooMany | stringizeOperand _
  | pasteOperand _ | callUnclosed | callUnclosedIn _ => .directive
  | macroUndefined _ => .internal
  | directiveUnknown | pragmaUnsupported | verbatimEndAlone | verbatimEndMissing
  | elifUnexpected | elifRepeated | elseUnexpected | elseRepeated | endifUnexpected
  | endifMissing | definedOperandInParentheses | definedOperand | definedParenthesis
  | includeTarget | includeUnclosed | includeNameEmpty => .directive
  | includeNotFound | includeRepeated _ | includeTooDeep | sourceUnopened _ _
  | sourceUnread _ _ | includeUnopened _ _ | includeUnread _ _ => .inclusion
  | nameInherited _ | nameTakenBy _ | nameTaken => .duplicate
  | undefinedName _ => .resolution
  | valueUnusable _ | circular | arraySizeZero | arrayOverfull | compoundOverfull
  | constExpected | enumEntryConstant | enumEntryScalar _ | enumEntryRepeated _
  | caseLabelConstant => .constant
  | childrenUnsupported _ _ | scopeMissing | inputExhausted => .internal
  | stated category _ => category
  | _ => .grammar

/-- The wording of a cause. -/
def message : Cause → String
  | listQuoteUnterminated => "Incorrect value (unterminated quoted string)!"
  | listQuoteInside =>
    "Incorrect value (quoted string cannot start in the middle of another string)!"
  | listLeadingSeparator => "Incorrect value (string part cannot start with a comma)!"
  | strayCharacter c => s!"Unexpected character '{c}'."
  | unterminatedComment => "Unterminated comment."
  | unterminatedString => "Unterminated string literal."
  | unterminatedCharacter => "Unterminated character literal."
  | missingDigits => "Invalid number, missing digits."
  | badOctal => "Invalid octal number."
  | badSuffix => "Invalid suffix on numeric literal."
  | literalExpected => "Expecting a literal."
  | integerTooLarge => "Integer literal is too large."
  | signedIntegerTooLarge => "Integer literal is too large for a signed type."
  | badFixedPoint => "Invalid fixed-point literal."
  | badFloatingPoint => "Invalid floating point literal."
  | emptyCharacter => "Empty character literal."
  | characterOutOfRange => "Character literal value is out of range."
  | badEscape => "Invalid escape sequence."
  | badCharacterCode => "Invalid character code."
  | castAbove =>
    "Cannot cast to type, the value exceeds the maximum possible value of the target type."
  | castBelow =>
    "Cannot cast to type, the value is below the minumum possible value of the target type."
  | castBelowSigned =>
    "Cannot cast to type, the value is below the minumum possible value of the signed version " ++
      "of the target type."
  | castPrecision =>
    "Cannot cast to type, the value precision is below the smallest possible precision of the " ++
      "target type."
  | castIncompatible => "Cannot cast to target type, the types are incompatible."
  | operandsIncompatible => "The types of both operands are not compatible."
  | operandsNotIntegral => "The operation requires integral operands."
  | booleanBitwise => "Cannot execute bitwise operations on a boolean."
  | booleanDivision => "Cannot divide a boolean."
  | booleanSign => "Cannot execute unary arithmic operations on a boolean."
  | divisionByZero => "Division by zero."
  | shiftCount => "The shift count is out of range."
  | expressionMissing => "Missing expression."
  | operandMissing => "Missing operand."
  | operatorExpected => "Expecting operator"
  | tokenInExpression text => s!"Unexpected token '{text}' in expression."
  | constantExpressionExpected => "Expecting a constant expression."
  | expected text => s!"Expecting '{text}'."
  | unknownVariable text => s!"unknown variable '{text}'"
  | definitionNameMissing => "Definition name missing."
  | parameterListOpen => "Unexpected symbol in parameter list."
  | parameterNameExpected => "Expecting a parameter name."
  | parameterRepeated => "Duplicate parameter names for macro definition."
  | macroRedefined => "Redefinition of macro with different content."
  | macroUndefined name => s!"Internal error: macro '{name}' is not defined"
  | argumentsMissing => "Missing parameters while calling macro"
  | argumentsTooMany => "Provided too many parameters while calling macro"
  | stringizeOperand name => s!"Cannot stringificate while resolving macro {name}"
  | pasteOperand name => s!"Double concatinating operator while resolving macro {name}"
  | callUnclosed => "Expecting a right parenthesis."
  | callUnclosedIn name => s!"Missing ')' closing the arguments of macro '{name}'."
  | directiveUnknown => "Unknown preprocessor directive."
  | pragmaUnsupported => "Unsupported preprocessor directive \"#pragma\" found."
  | verbatimEndAlone =>
    "Preprocessor directive \"#verbatim_end\" without \"verbatim_begin\" found."
  | verbatimEndMissing => "Missing '#verbatim_end' directive."
  | elifUnexpected => "Unexpected '#elif' directive."
  | elifRepeated => "Duplicate '#elif' directive."
  | elseUnexpected => "Unexpected '#else' directive."
  | elseRepeated => "Duplicate '#else' directive."
  | endifUnexpected => "Unexpected '#endif' directive."
  | endifMissing => "Missing '#endif' directive."
  | definedOperandInParentheses =>
    "Expecting macro name between parenthesis of defined operator"
  | definedOperand => "Expecting macro name following defined operator"
  | definedParenthesis => "Expecting right parenthesis"
  | includeTarget => "Invalid symbol."
  | includeUnclosed => "Unexpected end of line."
  | includeNameEmpty => "No filename supplied."
  | includeNotFound => "Include file not found."
  | includeRepeated path =>
    s!"The file '{path}' was included before - circular inclusion of files?"
  | includeTooDeep => "Passed maximum amount of nested files - circular inclusion of files?"
  | sourceUnopened path reason => s!"Cannot open source file '{path}': {reason}"
  | sourceUnread path reason => s!"Cannot read source file '{path}': {reason}"
  | includeUnopened path reason => s!"Cannot open include file '{path}': {reason}"
  | includeUnread path reason => s!"Cannot read include file '{path}': {reason}"
  | nameInherited name => s!"The name '{name}' is already used by an inherited entity."
  | nameTakenBy kind =>
    s!"An identifier with the same name exists already as {kind} " ++
      "(case insensitive name checking)."
  | nameTaken =>
    "An identifier with the same name exists already (case insensitive name checking)."
  | undefinedName name => s!"Could not find the definition of '{name}'."
  | typeNameExpected => "Expecting a type identifier."
  | unsignedBaseExpected => "Expecting 'short' or 'long' following 'unsigned'."
  | kindMismatch kind => s!"Provided identifier is not {kind}."
  | typeInvalid => "Declaration type is invalid."
  | fixedSizeNumber =>
    "Expecting a positive number for the fixed size of the fixed point type."
  | fixedDecimalsNumber =>
    "Expecting a positive number or zero for the decimals of the fixed point type."
  | stringSizeNumber => "Expecting a positive number for the fixed size of the string."
  | bitCountNumber => "Expecting a positive number for the amount of bits."
  | bitCountTooLarge => "A bitfield cannot hold more than 64 bits."
  | bitfieldIntegral => "Expecting an integral type for the bitfield."
  | sizeNumber => "Expecting a positive number for the fixed size."
  | templateOpen => "Expecting '<' defining the template section."
  | templateClose => "Expecting '>' closing the template section."
  | stringTemplateClose => "Expecting '>' closing the template section of the string."
  | commaExpected => "Expecting a comma ','."
  | identifierExpected => "Expecting an identifier."
  | reservedName => "The identifier cannot be a reserved keyword."
  | unnamedAtRoot => "Unnamed definitions are not supported at root level."
  | unnamedDefinition => "Unnamed definition is not supported."
  | openBraceExpected => "Expecting curly bracket '\x7b'."
  | closeBraceExpected => "Expecting curly bracket '\x7d'."
  | closeBraceUnexpected => "Unexpected curly bracket '\x7d'."
  | inheritanceUnsupported => "Inheritance is not supported."
  | baseNotFound => "Base not found."
  | baseKind => "Cannot inherit from different types."
  | baseForward => "Base type found, but only declared; definition is missing."
  | switchExpected => "Expecting a switch statement following the union identifier."
  | switchOpen => "Expecting a left bracket '('."
  | switchClose => "Expecting a right bracket ')'."
  | switchType => "Expecting an integral or enum identifier type or variable."
  | keywordUnexpected text => s!"Unexpected keyword '{text}'."
  | onlyInterfacesLocal => "Unexpected token. Only interfaces can be local."
  | semicolonUnexpected => "Unexpected token ';'."
  | semicolonAfterToken => "Missing ';' following the token."
  | declarationRequired =>
    "The definition requires a declaration following the definition content - " ++
      "unexpected token ';'."
  | attributeExpected => "Expecting 'attribute' keyword following 'readonly'."
  | variableUnsupported => "Variable declaration is not supported."
  | voidUnsupported => "The use of 'void' as type is not supported."
  | interfaceUnsupported => "The declaration of interfaces is not supported."
  | parenthesisUnexpected => "Unexpected left bracket '('."
  | parenthesisOpenExpected => "Expected left bracket '('."
  | parenthesisCloseExpected => "Expected right bracket ')'."
  | declarationUnterminated => "Missing semicolon ';' following the declaration."
  | multipleUnsupported =>
    "Multiple declarations on a single line of code is not supported for this type."
  | raisesSeparate =>
    "Cannot set a separate 'raises' exception list; use the 'getraises' or 'setraises' " ++
      "keyword instead."
  | accessorRaises text =>
    s!"Cannot set a separate '{text}' exception list; use the 'raises' keyword instead."
  | setRaisesReadonly => "Cannot set a set-raises exception list for a readonly type."
  | raisesRepeated text => s!"Multiple definitions of '{text}' exceptions are not allowed."
  | raisesEmpty => "Missing exception types."
  | notAnException name => s!"The type '{name}' is not an exception."
  | assignmentUnsupported =>
    "Assignment operator detected, but type doesn't support assignments."
  | assignmentExpected => "Expecting an assignment operator."
  | assignmentUnterminated => "Unexpected end of file found; missing ';'."
  | bracketUnexpected => "Unexpected token '['."
  | dimensionsUnsupported =>
    "Multi-dimensional arrays are not allowed. Unexpected token '['."
  | dimensionAtEnd => "Unexpected end of file found; missing ']'."
  | dimensionUnclosed => "Unexpected end of declaration; missing ']'."
  | directionExpected => "Expecting a parameter direction 'in', 'out' or 'inout'."
  | caseColonExpected => "Expecting a colon ':' following the case label."
  | caseLabelMissing => "Missing case label value."
  | defaultWithValue => "Default case label cannot have a value."
  | definitionInUnion => "Cannot make a definition inside an union."
  | enumSeparator => "Expecting a comma ',' or a closing curly bracket '\x7d'."
  | memberNameExpected => "Expecting a member name."
  | notADeclaration name => s!"Expecting a value; '{name}' is not a declaration."
  | valueUnusable name => s!"The value of '{name}' cannot be used in an expression."
  | circular => "Circular referencing entity."
  | arraySizeZero => "The array size must be larger than zero."
  | arrayOverfull => "Too many values for the array."
  | compoundOverfull => "Too many values for the compound type."
  | initializerExpected => "Expecting an initializer list '\x7b'."
  | initializerGap => "Missing value in the initializer list."
  | typeUnassignable text => s!"The type '{text}' cannot be assigned a value."
  | constExpected => "A const declaration requires a constant expression."
  | enumEntryConstant => "An enum entry requires a constant value."
  | enumEntryScalar name => s!"The value for '{name}' must be a system type value."
  | enumEntryRepeated name => s!"The value for '{name}' is already defined for another entry."
  | caseLabelConstant => "A case label requires a constant value."
  | defaultRepeated => "Duplicate default switch found."
  | caseLabelRepeated => "Duplicate switch case label found."
  | childrenUnsupported kind name =>
    s!"Internal error: the {kind} '{name}' cannot hold children"
  | scopeMissing => "Internal error: the parent entity has no scope"
  | inputExhausted => "Internal error: the input is exhausted"
  | stated _ text => text

end Cause

/-- A cause and the place it was found at, as far as that is known. -/
structure Fault where
  cause : Cause
  position : Option Position
  file : Option String
deriving DecidableEq, Repr

namespace Fault

/-- A fault of which only the cause is known. -/
def of (cause : Cause) : Fault := ⟨cause, none, none⟩

/-- The same fault, found at `p`. -/
def placed (f : Fault) (p : Position) : Fault := { f with position := some p }

/-- The same fault, found in `file`. -/
def inFile (f : Fault) (file : String) : Fault := { f with file := some file }

/-- Places a fault at `p` unless its position is known. -/
def orAt (f : Fault) (p : Position) : Fault :=
  { f with position := f.position.or (some p) }

/-- Places a fault in `file` unless its file is known. -/
def orInFile (f : Fault) (file : Option String) : Fault :=
  { f with file := f.file.or file }

/-- A fault as one line: the file and the line go in front of the wording when the line
is known. -/
def display (f : Fault) : String :=
  match f.position with
  | some p => f.file.getD "" ++ "(" ++ toString p.line ++ "): " ++ f.cause.message
  | none => f.cause.message

theorem orAt_of_position {f : Fault} {p : Position} (h : f.position = some p) (q : Position) :
    f.orAt q = f := by
  cases f
  simp_all [orAt]

end Fault

/-- Throws a cause of which nothing else is known. -/
def fail {m : Type → Type} [MonadExceptOf Fault m] {α : Type} (cause : Cause) : m α :=
  throwThe Fault (Fault.of cause)

/-- Throws a cause that was found at `p`. -/
def failAt {m : Type → Type} [MonadExceptOf Fault m] {α : Type} (cause : Cause)
    (p : Position) : m α :=
  throwThe Fault ((Fault.of cause).placed p)

end IdlReader
