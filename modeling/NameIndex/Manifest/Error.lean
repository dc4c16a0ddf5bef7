import NameIndex.Manifest.Value
import NameIndex.Pattern.Selection

/-!
# Failures of a manifest

Why a manifest cannot be evaluated. Some failures show before anything is evaluated: a malformed
text, a name that nothing defines, a name assigned twice, an argument given twice. All others show
when the evaluation reaches them, so what was printed before stays printed.

Only the selection of files says in words what was wrong with it.
-/

namespace NameIndex.Manifest

/-- Why a selection of files fails. -/
inductive GlobError where
  /-- More positional arguments than there are parameters. -/
  | tooManyArguments (given most : Nat)
  /-- A parameter without which nothing can be selected. -/
  | missingArgument (parameter : String)
  /-- An argument that is no list; given by its name or by its place. -/
  | notList (parameter : String) (byName : Bool) (type : String)
  /-- An argument given both by its place and by its name. -/
  | repeatedArgument (parameter : String)
  /-- A name that no parameter has, and the parameter that may be meant. -/
  | unknownArgument (name : String) (nearest : Option String)
  /-- A list with something else than strings in it. -/
  | notStrings (cause : StringListError)
  /-- A malformed pattern. -/
  | badPattern (cause : PatternError)
  deriving Repr, DecidableEq

/-- The wording of a failed selection. -/
def GlobError.message : GlobError → String
  | .tooManyArguments given most =>
    "glob: got " ++ given.repr ++ " arguments, want at most " ++ most.repr
  | .missingArgument parameter => "glob: missing argument for " ++ parameter
  | .notList parameter byName type =>
    "glob: for parameter " ++ (if byName then Text.quoted parameter else parameter) ++ ": got "
      ++ type ++ ", want list"
  | .repeatedArgument parameter =>
    "glob: got multiple values for keyword argument " ++ Text.quoted parameter
  | .unknownArgument name nearest =>
    "glob: unexpected keyword argument " ++ Text.quoted name
      ++ (nearest.map fun n => " (did you mean " ++ n ++ "?)").getD ""
  | .notStrings cause => cause.message
  | .badPattern cause => cause.message

/-- Why a manifest cannot be evaluated. -/
inductive ScriptError where
  /-- The text is no manifest. -/
  | malformed
  /-- A name that nothing defines. -/
  | undefined (name : String)
  /-- A name assigned for the second time. -/
  | reassigned (name : String)
  /-- An argument given for the second time. -/
  | repeatedArgument (name : String)
  /-- A name used before it is assigned. -/
  | unassigned (name : String)
  /-- An operator that does not fit its operands. -/
  | operands
  | divisionByZero
  /-- A result that is too large. -/
  | tooLarge
  /-- An index outside of a sequence. -/
  | outOfRange
  /-- A key that a dictionary does not have, or has already. -/
  | badKey
  /-- A value that cannot be gone through. -/
  | notIterable
  /-- A sequence with more or fewer items than there are targets. -/
  | unevenTargets
  /-- A value that cannot be called. -/
  | notCallable
  /-- A field that a value does not have. -/
  | noField (name : String)
  /-- An argument that a function does not take. -/
  | badArgument
  /-- The manifest has ended the evaluation itself. -/
  | stopped (message : String)
  /-- Another file is asked for. -/
  | noLoading (file : String)
  /-- The selection of files has failed. -/
  | glob (cause : GlobError)
  deriving Repr, DecidableEq

/-- The words of the failure, if it is one of a selection. -/
def ScriptError.globMessage? : ScriptError → Option String
  | .glob cause => some cause.message
  | _ => none

end NameIndex.Manifest
