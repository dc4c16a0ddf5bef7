import NameIndex.Index.Update
import NameIndex.Manifest.File
import NameIndex.Spec.File
import NameIndex.Tool.Console
import NameIndex.Tool.Report

/-!
# A run of the tool

A run reads the segment files, indexes the collection that they describe, drops segments by a second
update, and answers the questions. Reports go to the output; logs and progress go to the console,
and what is there when the run fails stays there.

## Main definitions

* `Tool.load` — the descriptions in all segment files.
* `Tool.build` — the index of a list of descriptions, after the drops.
* `Tool.run` — everything that a run prints, and how it ends.
-/

namespace NameIndex.Tool

/-! ## §1 Failures -/

/-- Why a run fails. -/
inductive RunError where
  | manifest (cause : ManifestError)
  | file (cause : SpecFileError)
  | spec (cause : SpecError)
  /-- A segment to drop that is not there, or not there any more. -/
  | unknownDrop (id : SegmentId)
  | fault (fault : Fault)
  /-- The output takes no more. -/
  | outputFull
  deriving Repr, DecidableEq

/-- The wording of a failure. -/
def RunError.message : RunError → String
  | .manifest cause => cause.message
  | .file cause => cause.message
  | .spec cause => cause.message
  | .unknownDrop id => "-drop: unknown segment " ++ id.toNat.repr
  | .fault f => f.message
  | .outputFull => "stdout full"

/-- A step of a run, which may fail and which writes on the console. -/
abbrev Step : Type → Type := ExceptT RunError (StateM String)

/-- Writes on the console. -/
def tell (text : String) : Step Unit := modify (· ++ text)

/-- A step that fails for a cause of another kind. -/
def orFail {ε α : Type} (error : ε → RunError) : Except ε α → Step α
  | .ok a => return a
  | .error e => throw (error e)

/-! ## §2 Steps -/

/-- How a run writes on the console. -/
structure Display where
  level : Level
  progress : Bool
  deriving Repr, DecidableEq

/-- The segment files: those of the manifest, then those of the command line. -/
def fileNames (tree : FileTree) (o : Options) : Step (List String) := do
  if o.manifest.isEmpty then return o.files
  let (printed, outcome) := Manifest.load tree o.manifest
  tell (Console.infoText o.level printed)
  let m ← orFail .manifest outcome
  return m.segments ++ o.files

/-- The descriptions in all segment files. -/
def load (yaml : Yaml.Library) (tree : FileTree) (o : Options) :
    Step (List (Option SegmentSpec)) := do
  let names ← fileNames tree o
  let specs ← orFail .file (SegmentSpec.loadAll yaml tree names)
  if o.progress then tell (Console.loadProgress specs.length names.length)
  return specs

/-- Brings an index into step with a collection and shows it. -/
def update (display : Display) (ix : Index) (c : Collection) (last : Bool) : Step Index := do
  let (ix, events) ← orFail .fault (ix.apply (.update c))
  tell (Console.eventText display.level events)
  if display.progress then tell (Console.indexProgress ix.stats.segments last)
  return ix

/-- Takes a segment out of a collection. -/
def drop (c : Collection) (id : SegmentId) : Except RunError Collection :=
  match c.drop? id with
  | some c => .ok c
  | none => .error (.unknownDrop id)

/-- The index of a list of descriptions, after the segments of a second list are dropped. -/
def build (display : Display) (specs : List (Option SegmentSpec)) (drops : List SegmentId) :
    Step Index := do
  let c ← orFail .spec (Collection.ofSpecs specs)
  let ix ← update display (.new .empty) c drops.isEmpty
  if drops.isEmpty then return ix
  let c ← orFail id (drops.foldlM drop c)
  update display ix c true

/-- The reports on the questions of a command line. -/
def inquire (yaml : Yaml.Library) (tree : FileTree) (o : Options) : Step (List Report) := do
  let specs ← load yaml tree o
  let ix ← build ⟨o.level, o.progress⟩ specs o.drop
  orFail .fault (ix.reports o.questions)

/-! ## §3 The run -/

/-- Everything that a run shows. -/
structure Transcript where
  output : String
  console : String
  failure : Option RunError
  deriving Repr, DecidableEq

/-- A run, on an output that takes any number of bytes or no more than some number. -/
def run (yaml : Yaml.Library) (tree : FileTree) (o : Options) (room : Option Nat) : Transcript :=
  match (inquire yaml tree o).run "" with
  | (.error e, console) => ⟨"", console, some e⟩
  | (.ok reports, console) =>
    let (output, done) := Piece.deliver room (reports.flatMap (Report.pieces o.dump))
    ⟨output, console, if done then none else some .outputFull⟩

end NameIndex.Tool
