import NameIndex.Tool.Run
import NameIndex.Yaml.Fragment

/-!
# The command line

`nameck` with its options and files. Files are read as they are named; the names that the patterns
of a manifest can select are read from standard input, one on a line.
-/

namespace NameIndex.CommandLine

/-- What stands at a path of the working directory. -/
def probe (path : String) : IO (Option FileNode) := do
  try
    let bytes ← IO.FS.readBinFile path
    return some (.file (.bytes bytes.toList))
  catch e =>
    match e with
    | .inappropriateType .. => return some .directory
    | _ => return none

/-- The tree with what stands at the paths. -/
def gather (tree : FileTree) (paths : List String) : IO FileTree :=
  paths.foldlM
    (fun tree path => do
      match ← probe path with
      | some node => return tree.put path node
      | none => return tree)
    tree

/-- The lines of standard input. -/
partial def inputLines (input : IO.FS.Stream) : IO (List String) := do
  let line ← input.getLine
  if line.isEmpty then return []
  return String.ofList (line.toList.takeWhile (· ≠ '\n')) :: (← inputLines input)

/-- The files that a run can see: those named on the command line, and with a manifest those it can
select and those it lists. -/
def filesFor (o : Options) : IO FileTree := do
  let here := FileTree.steps (← IO.currentDir).toString.toList
  let tree ← gather (.within here) o.files
  if o.manifest.isEmpty then return tree
  let tree ← gather tree (o.manifest :: (← inputLines (← IO.getStdin)))
  match (Manifest.load tree o.manifest).2 with
  | .ok m => gather tree m.segments
  | .error _ => return tree

/-- Reports a failure. -/
def fail (message : String) : IO UInt32 := do
  IO.eprintln ("nameck: " ++ message)
  return 1

end NameIndex.CommandLine

open NameIndex NameIndex.CommandLine in
/-- Runs the tool. -/
def main (arguments : List String) : IO UInt32 := do
  match Options.parse Level.parse arguments with
  | .error e =>
    IO.eprint e.shown
    CommandLine.fail e.message
  | .ok o =>
    let t := Tool.run Yaml.fragment (← filesFor o) o none
    IO.eprint t.console
    IO.print t.output
    match t.failure with
    | some e => CommandLine.fail e.message
    | none => return 0
