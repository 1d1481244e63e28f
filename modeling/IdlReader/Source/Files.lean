/-!
# Files

A tree of files as a value: the directory in which a reading takes place and the files
with their content. Paths are texts; `FileTree.canonical` finds the one absolute path of
what a path names, without `.`, `..` and doubled slashes.
-/

namespace IdlReader

/-- Why a path names nothing, or its content cannot be read. -/
inductive FileFault where
  | missing
  | notDirectory
  | isDirectory
  | notText
deriving DecidableEq, Repr

/-- The system's wording of a fault. -/
def FileFault.message : FileFault → String
  | missing => "No such file or directory (os error 2)"
  | notDirectory => "Not a directory (os error 20)"
  | isDirectory => "Is a directory (os error 21)"
  | notText => "stream did not contain valid UTF-8"

namespace Path

/-- The parts of a text between slashes. -/
def splitSlashes : List Char → List (List Char)
  | [] => [[]]
  | c :: cs =>
    if c = '/' then [] :: splitSlashes cs
    else
      match splitSlashes cs with
      | [] => [[c]]
      | p :: ps => (c :: p) :: ps

/-- The parts of a path between slashes. -/
def parts (path : String) : List String := (splitSlashes path.toList).map String.ofList

/-- Whether a path starts at the root. -/
def isAbsolute (path : String) : Bool := path.toList.head? == some '/'

/-- The path of the names from the root on. -/
def ofNames (names : List String) : String := "/" ++ "/".intercalate names

/-- A path relative to a directory. -/
def join (dir path : String) : String :=
  if isAbsolute path || dir == "" then path
  else if dir.toList.getLast? = some '/' then dir ++ path
  else dir ++ "/" ++ path

end Path

/-- Files below the root, and the directory in which a reading takes place. Names stand
for the paths from the root on. -/
structure FileTree where
  directory : List String
  files : List (List String × List UInt8)
deriving DecidableEq, Repr

namespace FileTree

/-- The tree without files. -/
def empty : FileTree := ⟨[], []⟩

/-- Whether names lead to a directory: a part of the way to a file or to the directory of
the reading. -/
def isDirectory (t : FileTree) (names : List String) : Bool :=
  names.isPrefixOf t.directory || t.files.any fun f => names.isPrefixOf f.1 && names != f.1

/-- The content of the file that names lead to. -/
def content? (t : FileTree) (names : List String) : Option (List UInt8) := t.files.lookup names

/-- Follows the parts of a path from the names `here`, which are kept with the last one
first. -/
def follow (t : FileTree) : List String → List String → Except FileFault (List String)
  | here, [] => .ok here
  | here, part :: parts =>
    if !t.isDirectory here.reverse then .error .notDirectory
    else if part == "" || part == "." then t.follow here parts
    else if part == ".." then t.follow here.tail parts
    else
      let there := part :: here
      if t.isDirectory there.reverse || (t.content? there.reverse).isSome then
        t.follow there parts
      else .error .missing

/-- The names that a path leads to. -/
def resolve (t : FileTree) (path : String) : Except FileFault (List String) :=
  if path == "" then .error .missing
  else
    List.reverse <$>
      t.follow (if Path.isAbsolute path then [] else t.directory.reverse) (Path.parts path)

/-- The absolute path of what a path names. -/
def canonical (t : FileTree) (path : String) : Except FileFault String :=
  Path.ofNames <$> t.resolve path

/-- Whether a path names a file. -/
def isFile (t : FileTree) (path : String) : Bool :=
  match t.resolve path with
  | .ok names => (t.content? names).isSome
  | .error _ => false

/-- The text of the file that a path names. -/
def read (t : FileTree) (path : String) : Except FileFault String := do
  let names ← t.resolve path
  match t.content? names with
  | none => throw .isDirectory
  | some bytes =>
    match String.fromUTF8? ⟨bytes.toArray⟩ with
    | some text => return text
    | none => throw .notText

/-- The path of the directory of the reading. -/
def directoryPath (t : FileTree) : String := Path.ofNames t.directory

/-- The path of the directory that holds the file of an absolute path. -/
def parentPath (path : String) : String := Path.ofNames ((Path.parts path).drop 1).dropLast

end FileTree

end IdlReader
