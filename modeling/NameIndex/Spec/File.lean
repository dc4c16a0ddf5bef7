import NameIndex.Files.Tree
import NameIndex.Spec.Convert
import NameIndex.Spec.Json
import NameIndex.Spec.Yaml

/-!
# Description files

Descriptions in files, as JSON or as YAML by the extension of the file's name. A file holds one
segment or a list of segments. Files are read from left to right; the first failure decides. The
library that knows YAML is a parameter.

## Main definitions

* `SetSpec.load`, `SetSpec.store` — a collection in one file.
* `SegmentSpec.loadAll` — the segments of several files, one after the other.
-/

namespace NameIndex

/-! ## §1 Formats and errors -/

/-- The format of a file. -/
inductive FileFormat where
  | json
  | yaml
  deriving Repr, DecidableEq

namespace FileFormat

/-- The format that a name stands for. -/
def ofName (name : String) : FileFormat :=
  let extension := String.ofList (Path.extension name.toList)
  if extension = ".yaml" ∨ extension = ".yml" then .yaml else .json

/-- The name of the format. -/
def text : FileFormat → String
  | .json => "json"
  | .yaml => "yaml"

end FileFormat

/-- Why a description file cannot be read or written. -/
inductive SpecFileError where
  /-- The file cannot be read. -/
  | unreadable (cause : FileError)
  /-- The file cannot be written. -/
  | unwritable (name : String) (cause : FileError)
  /-- The text is not of its format. -/
  | malformed (format : FileFormat) (name : String)
  /-- The text is of its format, but does not describe what it should. -/
  | unfit (format : FileFormat) (name : String)
  /-- A breach of contract, such as a missing segment. -/
  | fault (fault : Fault)
  deriving Repr, DecidableEq

/-- The wording of an error. -/
def SpecFileError.message : SpecFileError → String
  | .unreadable cause => "read: " ++ cause.message
  | .unwritable name cause => "write " ++ name ++ ": " ++ cause.message
  | .malformed format name => "unmarshal " ++ format.text ++ " " ++ name
  | .unfit format name => "unmarshal " ++ format.text ++ " " ++ name
  | .fault f => f.message

/-! ## §2 Reading -/

section

variable (yaml : Yaml.Library)

/-- Decodes the content of a file, given how a value of either format is understood. -/
def decodeContent {α : Type} (name : String) (ofJson : Json → Option α)
    (ofYaml : yaml.Node → Option α) (content : Content) : Except SpecFileError α :=
  match FileFormat.ofName name with
  | .json =>
    match Json.parse? content.chars with
    | none => .error (.malformed .json name)
    | some j => (ofJson j).elim (.error (.unfit .json name)) .ok
  | .yaml =>
    match yaml.parse content with
    | none => .error (.malformed .yaml name)
    | some node => (ofYaml node).elim (.error (.unfit .yaml name)) .ok

/-- The content of a file. -/
def readContent (tree : FileTree) (name : String) : Except SpecFileError Content :=
  match tree.read name with
  | .ok content => .ok content
  | .error cause => .error (.unreadable cause)

/-- The collection that a file describes. -/
def SetSpec.load (tree : FileTree) (name : String) : Except SpecFileError SetSpec := do
  decodeContent yaml name SetSpec.ofJson? (SetSpec.ofYaml? yaml) (← readContent tree name)

namespace SegmentSpec

/-- Notes the file that a segment came from, if it does not say. -/
def fillSource (name : String) : Option SegmentSpec → Except SpecFileError (Option SegmentSpec)
  | some s => .ok (some (if s.source = "" then { s with source := name } else s))
  | none => .error (.fault .absentElement)

/-- The segments that a file describes. -/
def load (tree : FileTree) (name : String) :
    Except SpecFileError (List (Option SegmentSpec)) := do
  let file ← decodeContent yaml name FileSpec.ofJson? (FileSpec.ofYaml? yaml)
    (← readContent tree name)
  (file.segments.getD [some file.segment]).mapM (fillSource name)

/-- The segments of several files, in sequence. -/
def loadAll (tree : FileTree) (names : List String) :
    Except SpecFileError (List (Option SegmentSpec)) := do
  return (← names.mapM (load yaml tree)).flatten

end SegmentSpec

/-! ## §3 Writing -/

/-- The text of a file of a given name. -/
def SetSpec.fileText (name : String) (s : SetSpec) : String :=
  match FileFormat.ofName name with
  | .json => s.toJson.text
  | .yaml => yaml.print s.toYaml

/-- Writes a collection into a file. -/
def SetSpec.store (tree : FileTree) (name : String) (s : SetSpec) :
    Except SpecFileError FileTree :=
  match tree.write name (.text (s.fileText yaml name)) with
  | .ok tree => .ok tree
  | .error cause => .error (.unwritable name cause)

end

end NameIndex
