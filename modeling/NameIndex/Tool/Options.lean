import NameIndex.Segment.Basic
import NameIndex.Text.Numeral
import NameIndex.Tool.Level
import NameIndex.Tool.ValueList

/-!
# Options of the command line

Options come first, with one dash or two; a value follows as the next argument or after an equals
sign. Switches take a value only after an equals sign. The options end at the first argument that
is none, at a single dash, or after two dashes alone; what is left are files.

The first mistake from the left decides. Mistakes in the form of the options are shown with an
overview of all options; after those come, in this order, the lack of anything to read, the
segments to drop, and the level of the log.

## Main definitions

* `Options.parse` — the options of a command line.
* `OptionError.message`, `OptionError.shown` — what is reported and what is printed.
-/

namespace NameIndex

/-! ## §1 Options and errors -/

/-- What the tool is asked to do. -/
structure Options where
  /-- The manifest that lists segment files; none if empty. -/
  manifest : String
  /-- Segment files after those of the manifest. -/
  files : List String
  labels : List String
  symbols : List String
  floats : List String
  /-- The variables whose disjoint partners are asked for. -/
  disjoint : List String
  /-- All disjointness constraints are asked for. -/
  disjointList : Bool
  /-- The segments to drop before the lookups. -/
  drop : List SegmentId
  /-- Answers are printed in full. -/
  dump : Bool
  /-- Progress is reported. -/
  progress : Bool
  level : Level
  deriving Repr, DecidableEq

/-- Why a text is no segment id. -/
inductive NumeralError where
  | badSyntax
  | outOfRange
  deriving Repr, DecidableEq

/-- The wording of the error. -/
def NumeralError.message : NumeralError → String
  | .badSyntax => "invalid syntax"
  | .outOfRange => "value out of range"

/-- Why a command line is refused. -/
inductive OptionError where
  /-- A dash that is not followed by a name. -/
  | badSyntax (argument : String)
  | undefined (name : String)
  /-- An option at the end of the line whose value is missing. -/
  | needsArgument (name : String)
  | badSwitch (value name : String)
  | help
  /-- Neither a manifest nor a file is given. -/
  | nothingToRead
  | badDrop (value : String) (cause : NumeralError)
  | badLevel (cause : LevelError)
  deriving Repr, DecidableEq

namespace OptionError

/-- The wording of the error. -/
def message : OptionError → String
  | .badSyntax argument => "bad flag syntax: " ++ argument
  | .undefined name => "flag provided but not defined: -" ++ name
  | .needsArgument name => "flag needs an argument: -" ++ name
  | .badSwitch v name =>
    "invalid boolean value " ++ Text.quoted v ++ " for -" ++ name ++ ": parse error"
  | .help => "flag: help requested"
  | .nothingToRead => "-manifest or a non-empty list of segment files is required"
  | .badDrop v cause =>
    "-drop " ++ Text.quoted v ++ ": strconv.ParseUint: parsing " ++ Text.quoted v ++ ": "
      ++ cause.message
  | .badLevel cause => "-log_level: " ++ cause.message

end OptionError

/-! ## §2 The options by name -/

/-- The options as they are given, with values still to be understood. -/
structure RawOptions where
  manifest : String
  labels : ValueList
  symbols : ValueList
  floats : ValueList
  disjoint : ValueList
  disjointList : Bool
  drop : ValueList
  dump : Bool
  progress : Bool
  level : String
  deriving Repr, DecidableEq

/-- No option is given. -/
def RawOptions.blank : RawOptions :=
  ⟨"", .empty, .empty, .empty, .empty, false, .empty, false, false, "warn"⟩

/-- How an option changes what is given. -/
inductive Setting where
  | switch (set : RawOptions → Bool → RawOptions)
  | single (set : RawOptions → String → RawOptions)
  /-- An option whose values are collected. -/
  | repeated (set : RawOptions → String → RawOptions)

/-- One option: its name, what it changes, and what the overview says about it. -/
structure OptionEntry where
  name : String
  setting : Setting
  purpose : String

/-- All options, in the order of their names. -/
def optionTable : List OptionEntry :=
  [⟨"disjoint", .repeated fun o v => { o with disjoint := o.disjoint.add v },
      "variable whose global disjoint partners should be listed (repeatable)"⟩,
    ⟨"drop", .repeated fun o v => { o with drop := o.drop.add v },
      "segment id to remove with an incremental update before the lookups (repeatable)"⟩,
    ⟨"dump", .switch fun o v => { o with dump := v }, "dump lookup results in full"⟩,
    ⟨"dv", .switch fun o v => { o with disjointList := v },
      "list all global disjoint variable statements"⟩,
    ⟨"float", .repeated fun o v => { o with floats := o.floats.add v },
      "variable whose floating hypothesis should be looked up (repeatable)"⟩,
    ⟨"label", .repeated fun o v => { o with labels := o.labels.add v },
      "label to look up (repeatable)"⟩,
    ⟨"log_level", .single fun o v => { o with level := v },
      "log level (debug, info, warn, error) (default \"warn\")"⟩,
    ⟨"manifest", .single fun o v => { o with manifest := v },
      "optional starlark manifest that assigns the list of segment files to 'segments'"⟩,
    ⟨"progress", .switch fun o v => { o with progress := v },
      "report loading progress on stderr"⟩,
    ⟨"symbol", .repeated fun o v => { o with symbols := o.symbols.add v },
      "math symbol to look up (repeatable)"⟩]

/-- The option of a name. -/
def setting? (name : String) : Option Setting :=
  (optionTable.find? fun e => e.name = name).map (·.setting)

/-- The kind of value that the overview shows for an option. -/
def Setting.valueWord : Setting → String
  | .switch _ => ""
  | .single _ => " string"
  | .repeated _ => " value"

/-- The overview of all options. -/
def usage : String :=
  "Usage of nameck:\n" ++ String.join (optionTable.map fun e =>
    "  -" ++ e.name ++ e.setting.valueWord ++ "\n    \t" ++ e.purpose ++ "\n")

/-- What is printed about an error before it is reported: mistakes in the form of the options come
with the overview, and a question for help is the overview alone. -/
def OptionError.shown (e : OptionError) : String :=
  match e with
  | .help => usage
  | .badSyntax _ | .undefined _ | .needsArgument _ | .badSwitch .. => e.message ++ "\n" ++ usage
  | .nothingToRead | .badDrop .. | .badLevel _ => ""

/-! ## §3 Arguments -/

/-- What an argument is. -/
inductive Argument where
  /-- Not an option: the first of the files. -/
  | operand
  /-- The end of the options. -/
  | terminator
  | malformed
  /-- An option, and the value after its equals sign. -/
  | option (name : String) (value : Option String)
  deriving Repr, DecidableEq

/-- The name of an option and the value after its first equals sign. -/
def splitValue (text : List Char) : String × Option String :=
  match text.dropWhile (· ≠ '=') with
  | _ :: v => (String.ofList (text.takeWhile (· ≠ '=')), some (String.ofList v))
  | [] => (String.ofList text, none)

/-- The option whose name and value follow the dashes. -/
def Argument.ofName (text : List Char) : Argument :=
  match text with
  | [] => .malformed
  | c :: _ =>
    if c = '-' ∨ c = '=' then .malformed
    else
      let (name, v) := splitValue text
      .option name v

/-- What an argument is. -/
def Argument.of (argument : String) : Argument :=
  match argument.toList with
  | ['-', '-'] => .terminator
  | '-' :: '-' :: name => .ofName name
  | '-' :: c :: name => .ofName (c :: name)
  | _ => .operand

/-- The value of a switch. -/
def switchValue? (text : String) : Option Bool :=
  if text ∈ ["1", "t", "T", "TRUE", "true", "True"] then some true
  else if text ∈ ["0", "f", "F", "FALSE", "false", "False"] then some false
  else none

/-- The option asks for help if no other option has its name. -/
def isHelp (name : String) : Bool := name = "help" ∨ name = "h"

/-- Reads arguments from left to right; the options, and what is left of the arguments. -/
def parseArguments (o : RawOptions) : List String → Except OptionError (RawOptions × List String)
  | [] => .ok (o, [])
  | argument :: rest =>
    match Argument.of argument with
    | .operand => .ok (o, argument :: rest)
    | .terminator => .ok (o, rest)
    | .malformed => .error (.badSyntax argument)
    | .option name v =>
      match setting? name with
      | none => .error (if isHelp name then .help else .undefined name)
      | some (.switch set) =>
        match switchValue? (v.getD "true") with
        | some b => parseArguments (set o b) rest
        | none => .error (.badSwitch (v.getD "true") name)
      | some (.single set) | some (.repeated set) =>
        match v, rest with
        | some v, rest => parseArguments (set o v) rest
        | none, v :: rest => parseArguments (set o v) rest
        | none, [] => .error (.needsArgument name)

/-! ## §4 Values -/

/-- The number that digits write after `n`; the first digit that is none, or that makes the number
too large for an id, decides the failure. -/
def idFrom (n : Nat) : List Char → Except NumeralError Nat
  | [] => .ok n
  | c :: rest =>
    match Text.Numeral.digit? c with
    | none => .error .badSyntax
    | some d => if UInt32.size ≤ 10 * n + d then .error .outOfRange else idFrom (10 * n + d) rest

/-- The segment id that a text writes. -/
def parseId (text : String) : Except NumeralError SegmentId :=
  if text.isEmpty then .error .badSyntax
  else do return UInt32.ofNat (← idFrom 0 text.toList)

/-- The segment id to drop. -/
def parseDrop (text : String) : Except OptionError SegmentId :=
  match parseId text with
  | .ok id => .ok id
  | .error cause => .error (.badDrop text cause)

/-- The level of the log. -/
def parseLevel (readLevel : Level.Reader) (text : String) : Except OptionError Level :=
  match readLevel text with
  | .ok level => .ok level
  | .error cause => .error (.badLevel cause)

/-- The options that are given, with files after them. -/
def RawOptions.toOptions (readLevel : Level.Reader) (o : RawOptions) (files : List String) :
    Except OptionError Options := do
  if o.manifest.isEmpty && files.isEmpty then throw .nothingToRead
  let drop ← o.drop.values.mapM parseDrop
  let level ← parseLevel readLevel o.level
  return {
    manifest := o.manifest
    files
    labels := o.labels.values
    symbols := o.symbols.values
    floats := o.floats.values
    disjoint := o.disjoint.values
    disjointList := o.disjointList
    drop
    dump := o.dump
    progress := o.progress
    level }

/-- The options of a command line, given how levels are read. -/
def Options.parse (readLevel : Level.Reader) (arguments : List String) :
    Except OptionError Options := do
  let (o, files) ← parseArguments .blank arguments
  o.toOptions readLevel files

end NameIndex
