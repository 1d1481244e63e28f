import IdlReader.Constant.Kind
import IdlReader.Environment

/-!
# Declared types

A declared type is a base type with the bounds, element types and definition that go with
it. `BaseType.ofText?` reads the name of a base type; extensions add names of their own.

* `kind?_isText_iff`: the texts among the values are those of the string types.
-/

namespace IdlReader

/-- The number of an entity, in the order in which entities are read. -/
abbrev EntityId := Nat

/-- The base types. -/
inductive BaseType where
  | short
  | unsignedShort
  | long
  | unsignedLong
  | longLong
  | unsignedLongLong
  | fixed
  | float
  | double
  | longDouble
  | char
  | wchar
  | boolean
  | native
  | octet
  | string
  | wstring
  | enum
  | struct
  | union
  | exception
  | interface
  | sequence
  | map
  | bitset
  | bitfield
  | bitmask
  | any
  | void
  | interfaceId
  | interfaceType
  | exceptionId
  | pointer
  | char16
  | char32
  | u8string
  | u16string
  | u32string
deriving DecidableEq, Repr, Inhabited

namespace BaseType

/-- The names of the types of the language itself. -/
def names : List (String × BaseType) :=
  [("short", short), ("unsigned short", unsignedShort), ("long", long),
    ("unsigned long", unsignedLong), ("long long", longLong),
    ("unsigned long long", unsignedLongLong), ("fixed", fixed), ("float", float),
    ("double", double), ("long double", longDouble), ("char", char), ("wchar", wchar),
    ("int8", char), ("int16", short), ("int32", long), ("int64", longLong), ("int", long),
    ("uint8", octet), ("uint16", unsignedShort), ("uint32", unsignedLong),
    ("uint64", unsignedLongLong), ("uint", unsignedLong), ("boolean", boolean),
    ("native", native), ("octet", octet), ("byte", octet), ("string", string),
    ("wstring", wstring), ("enum", enum), ("struct", struct), ("union", union),
    ("interface", interface), ("sequence", sequence), ("map", map), ("bitset", bitset),
    ("bitfield", bitfield), ("bitmask", bitmask), ("any", any), ("void", void)]

/-- The names of the types that extensions add. -/
def extensionNames : List (String × BaseType × Extension) :=
  [("interface_id", interfaceId, .interfaceType),
    ("interface_t", interfaceType, .interfaceType),
    ("exception_id", exceptionId, .exceptionType), ("pointer", pointer, .pointerType),
    ("char16", char16, .unicode), ("char32", char32, .unicode),
    ("u8string", u8string, .unicode), ("u16string", u16string, .unicode),
    ("u32string", u32string, .unicode)]

/-- The base type with a name. -/
def ofText? (env : Environment) (text : String) : Option BaseType :=
  match names.lookup text with
  | some b => some b
  | none =>
    match extensionNames.lookup text with
    | some (b, e) => if env.enables e then some b else none
    | none => none

/-- The kind of the values of a type; only scalar types have values of one kind. -/
def kind? : BaseType → Option Kind
  | short => some (.integer .int16)
  | unsignedShort => some (.integer .uint16)
  | long | enum => some (.integer .int32)
  | unsignedLong => some (.integer .uint32)
  | longLong => some (.integer .int64)
  | unsignedLongLong => some (.integer .uint64)
  | fixed => some (.real .fixed)
  | float => some (.real .float)
  | double => some (.real .double)
  | longDouble => some (.real .longDouble)
  | char => some (.integer .int8)
  | wchar | char32 => some (.integer .uint32)
  | char16 => some (.integer .uint16)
  | boolean => some (.integer .bool)
  | octet => some (.integer .uint8)
  | string | u8string => some (.text .string)
  | wstring => some (.text .wide)
  | u16string => some (.text .string16)
  | u32string => some (.text .string32)
  | _ => none

/-- Whether an array of a type may be written as a text. -/
def isCharacter : BaseType → Bool
  | char | wchar | char16 | char32 => true
  | _ => false

def isString : BaseType → Bool
  | string | wstring | u8string | u16string | u32string => true
  | _ => false

theorem kind?_isText_iff (b : BaseType) :
    (∃ k, b.kind? = some k ∧ k.isText = true) ↔ b.isString = true := by
  cases b <;> simp [kind?, isString, Kind.isText]

end BaseType

/-- A type as it is declared. -/
structure DeclaredType where
  base : BaseType
  /-- The type as it is written. -/
  text : String
  /-- The entity that a named type refers to. -/
  definition : Option EntityId := none
  /-- The bound of a string, sequence or map, the digits of a fixed-point type or the bits
  of a bitfield; zero if there is none. -/
  length : Nat := 0
  decimals : Nat := 0
  key : Option DeclaredType := none
  /-- The type of the elements, or the type that stores a bitfield. -/
  value : Option DeclaredType := none
deriving Repr, Inhabited

/-- The kind of the values of a type. -/
def DeclaredType.kind? (t : DeclaredType) : Option Kind := t.base.kind?

end IdlReader
