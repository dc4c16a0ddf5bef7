import NameIndex.Files.Path
import NameIndex.Text.Utf8

/-!
# File trees

The files that a run can see: each with its place below the root of all files, directories included,
and the place of the working directory. A directory exists if it is listed, if something is listed
below it, or if the working directory is there or below it.

A path is walked element by element, from the root if it is absolute and from the working directory
otherwise. The directory above the root is the root itself.

## Main definitions

* `FileTree.read`, `FileTree.write` — the content of a file.
* `FileTree.places` — every file and directory.
-/

namespace NameIndex

/-! ## §1 Contents and errors -/

/-- The content of a file: text, or bytes that need not be text. -/
inductive Content where
  | text (text : String)
  | bytes (bytes : List UInt8)
  deriving Repr, DecidableEq

namespace Content

/-- The content as text, bad bytes replaced. -/
def chars : Content → List Char
  | .text s => s.toList
  | .bytes b => Text.Utf8.decodeLossy b

/-- The content as text, if it is text. -/
def chars? : Content → Option (List Char)
  | .text s => some s.toList
  | .bytes b => Text.Utf8.decode? b

end Content

/-- Why a file cannot be reached. -/
inductive FileCause where
  | missing
  | notDirectory
  | isDirectory
  deriving Repr, DecidableEq

/-- The wording of a cause. -/
def FileCause.message : FileCause → String
  | .missing => "no such file or directory"
  | .notDirectory => "not a directory"
  | .isDirectory => "is a directory"

/-- An operation on a file that failed. -/
structure FileError where
  operation : String
  path : String
  cause : FileCause
  deriving Repr, DecidableEq

/-- The wording of a failed operation. -/
def FileError.message (e : FileError) : String :=
  e.operation ++ " " ++ e.path ++ ": " ++ e.cause.message

/-! ## §2 Trees -/

/-- A file or a directory. -/
inductive FileNode where
  | file (content : Content)
  | directory
  deriving Repr, DecidableEq

/-- Files and directories by their places, later entries first, and the place of the working
directory. -/
structure FileTree where
  entries : List (List (List Char) × FileNode)
  here : List (List Char)
  deriving Repr, DecidableEq

namespace FileTree

/-- The tree with nothing but the working directory and the directories above it. -/
def within (here : List (List Char)) : FileTree := ⟨[], here⟩

/-- The tree without files, seen from its root. -/
def empty : FileTree := within []

/-- The elements of a path that say something. -/
def steps (path : List Char) : List (List Char) :=
  (Path.elements path).filter fun e => e ≠ [] ∧ e ≠ ['.']

/-- The place from which a path is walked. -/
def start (t : FileTree) (path : List Char) : List (List Char) :=
  if Path.isAbsolute path then [] else t.here

/-- The place that a path names if all directories on its way are there. -/
def place (t : FileTree) (path : List Char) : List (List Char) :=
  (steps path).foldl (fun place e => if e = ['.', '.'] then place.dropLast else place ++ [e])
    (t.start path)

/-- Adds a file or directory, with the directories above it. -/
def put (t : FileTree) (path : String) (node : FileNode) : FileTree :=
  { t with entries := (t.place path.toList, node) :: t.entries }

/-- What stands at a place, given by its elements from the root. -/
def at? (t : FileTree) (place : List (List Char)) : Option FileNode :=
  if place.isPrefixOf t.here then some .directory
  else match t.entries.find? fun e => e.1 = place with
    | some (_, node) => some node
    | none => if t.entries.any fun e => place.isPrefixOf e.1 then some .directory else none

/-- The place is a directory. -/
def isDirectory (t : FileTree) (place : List (List Char)) : Bool :=
  t.at? place == some .directory

/-- Follows the elements of a path from the place `above`, which is in reversed order and is a
directory. -/
def walk (t : FileTree) (above : List (List Char)) :
    List (List Char) → Except FileCause (List (List Char))
  | [] => .ok above.reverse
  | e :: rest =>
    if e = ['.', '.'] then t.walk above.tail rest
    else
      match t.at? (e :: above).reverse with
      | none => .error .missing
      | some .directory => t.walk (e :: above) rest
      | some (.file _) => if rest.isEmpty then .ok (e :: above).reverse else .error .notDirectory

/-- Follows a path up to the end or up to its last element. -/
def locate (t : FileTree) (path : List Char) (elements : List (List Char)) :
    Except FileCause (List (List Char)) :=
  if path.isEmpty then .error .missing else t.walk (t.start path).reverse elements

/-- The path can only lead to a directory, because it ends in a slash or a dot. -/
def demandsDirectory (path : List Char) : Bool :=
  (Path.elements path).getLast?.any fun e => e = [] ∨ e = ['.']

/-- What a path leads to. -/
def open? (t : FileTree) (path : List Char) : Except FileCause FileNode := do
  let place ← t.locate path (steps path)
  match t.at? place with
  | none => throw .missing
  | some .directory => return .directory
  | some (.file content) =>
    if demandsDirectory path then throw .notDirectory
    return .file content

/-- The content of the file that a path leads to. -/
def read (t : FileTree) (path : String) : Except FileError Content :=
  match t.open? path.toList with
  | .error cause => .error ⟨"open", path, cause⟩
  | .ok .directory => .error ⟨"read", path, .isDirectory⟩
  | .ok (.file content) => .ok content

/-- The place at which a path allows a file to be written: its directory must exist. -/
def writable? (t : FileTree) (path : List Char) : Except FileCause (List (List Char)) := do
  let directory ← t.locate path (steps path).dropLast
  unless t.isDirectory directory do throw .notDirectory
  match (steps path).getLast? with
  | none => throw .isDirectory
  | some name =>
    if name = ['.', '.'] then throw .isDirectory
    match t.at? (directory ++ [name]) with
    | some .directory => throw .isDirectory
    | some (.file _) => if demandsDirectory path then throw .notDirectory
    | none => if demandsDirectory path then throw .isDirectory
    return directory ++ [name]

/-- Writes a file into a directory that exists. -/
def write (t : FileTree) (path : String) (content : Content) : Except FileError FileTree :=
  match t.writable? path.toList with
  | .error cause => .error ⟨"open", path, cause⟩
  | .ok place => .ok { t with entries := (place, .file content) :: t.entries }

/-! ## §3 Listing -/

/-- Every place below a directory, the directory itself and all directories on the way included,
without repetition. -/
def places (t : FileTree) (directory : List (List Char)) : List (List (List Char)) :=
  let below := t.entries.filterMap fun e =>
    if directory.isPrefixOf e.1 then some (e.1.drop directory.length) else none
  ([] :: below.flatMap fun place => (List.range (place.length + 1)).map place.take).eraseDups

end FileTree

end NameIndex
