import NameIndex.Manifest.Evaluation

/-!
# Manifest files

A manifest is a file that assigns the list of segment files to the name `segments`. The names in
the list count from the directory of the manifest, unless they are absolute; files are selected in
that directory too.
-/

namespace NameIndex

/-- The content of a manifest file. -/
structure Manifest where
  /-- The directory of the file. -/
  directory : String
  /-- The segment files in document order. -/
  segments : List String
  deriving Repr, DecidableEq

/-- Why a manifest file gives no list of segment files. -/
inductive ManifestError where
  /-- The file cannot be opened. -/
  | unopened (cause : FileError)
  /-- The file can be opened but not read. -/
  | unreadable (name : String) (cause : FileError)
  /-- The evaluation fails. -/
  | failed (name : String) (cause : Manifest.ScriptError)
  /-- The list is not assigned. -/
  | noSegments (name : String)
  /-- What is assigned is no list of strings. -/
  | badSegments (name : String) (cause : Manifest.StringListError)
  deriving Repr, DecidableEq

/-- The wording of an error. How an evaluation has failed is not told here. -/
def ManifestError.message : ManifestError → String
  | .unopened cause => "open manifest: " ++ cause.message
  | .unreadable name cause => "eval manifest " ++ name ++ ": " ++ cause.message
  | .failed name _ => "eval manifest " ++ name
  | .noSegments name => "manifest " ++ name ++ ": missing global 'segments'"
  | .badSegments name cause => "manifest " ++ name ++ ": " ++ cause.message

namespace Manifest

/-- The name of the list. -/
def segmentsName : String := "segments"

/-- A name in the list as a path from the working directory. -/
def resolve (directory : List Char) (name : String) : String :=
  if Path.isAbsolute name.toList then name
  else String.ofList (Path.join directory name.toList)

/-- The manifest that the values of a file make up. -/
def ofGlobals (name : String) (globals : List (String × Value)) : Except ManifestError Manifest :=
  match globals.lookup segmentsName with
  | none => .error (.noSegments name)
  | some v =>
    match v.strings segmentsName with
    | .error cause => .error (.badSegments name cause)
    | .ok names =>
      let directory := Path.directory name.toList
      .ok ⟨String.ofList directory, names.map (resolve directory)⟩

/-- The place of a directory in a tree. -/
def placeOf (tree : FileTree) (directory : List Char) : List (List Char) :=
  match tree.locate directory (FileTree.steps directory) with
  | .ok place => place
  | .error _ => []

/-- The manifest in a file, and what its evaluation prints. -/
def load (tree : FileTree) (name : String) : List String × Except ManifestError Manifest :=
  match tree.read name with
  | .error cause =>
    ([], .error (if cause.cause = .isDirectory then .unreadable name cause else .unopened cause))
  | .ok content =>
    let place := placeOf tree (Path.directory name.toList)
    let evaluation := evaluate (tree.select place) content.chars?
    (evaluation.printed,
      match evaluation.globals with
      | .error cause => .error (.failed name cause)
      | .ok globals => ofGlobals name globals)

end Manifest

end NameIndex
