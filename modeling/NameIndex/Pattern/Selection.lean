import NameIndex.Pattern.Listing
import NameIndex.Text.Quoted

/-!
# Selecting files

A selection is made by a list of patterns and a list of exclusions. Patterns are taken in sequence;
what one pattern lists comes in the order of its text; a name that an exclusion matches is left
out, and a name that was selected before is not selected again. The first malformed pattern decides
the failure, while a malformed exclusion excludes nothing.

The rule does not depend on what patterns mean, so `select` takes the listing and the matching as
arguments.
-/

namespace NameIndex

/-- A malformed pattern. -/
structure PatternError where
  pattern : String
  deriving Repr, DecidableEq

/-- The wording of the error. -/
def PatternError.message (e : PatternError) : String :=
  "glob " ++ Text.quoted e.pattern ++ ": syntax error in pattern"

namespace Selection

/-- Names in the order of their text. -/
def sorted (names : List String) : List String := names.mergeSort fun a b => !(b < a)

/-- Adds the names that are neither selected already nor excluded, in sequence. -/
def extend (isExcluded : String → Bool) (selected : List String) : List String → List String
  | [] => selected
  | name :: rest =>
    if name ∈ selected ∨ isExcluded name then extend isExcluded selected rest
    else extend isExcluded (selected ++ [name]) rest

/-- Goes through the patterns, after those that selected `selected`. -/
def selectFrom {ε : Type} (listing : String → Except ε (List String))
    (isExcluded : String → Bool) (selected : List String) :
    List String → Except ε (List String)
  | [] => .ok selected
  | pattern :: rest => do
    let names ← listing pattern
    selectFrom listing isExcluded (extend isExcluded selected (sorted names)) rest

/-- The names that the patterns list and no exclusion matches. -/
def select {ε : Type} (listing : String → Except ε (List String))
    (matching : String → String → Bool) (patterns excludes : List String) :
    Except ε (List String) :=
  selectFrom listing (fun name => excludes.any fun exclude => matching exclude name) [] patterns

end Selection

/-- The names that a pattern lists below a directory of a tree. -/
def FileTree.listPattern (tree : FileTree) (directory : List (List Char)) (pattern : String) :
    Except PatternError (List String) :=
  match Pattern.parse? pattern with
  | some p => .ok (p.list tree directory)
  | none => .error ⟨pattern⟩

/-- The pattern matches the name; a malformed pattern matches none. -/
def Pattern.isMatch (pattern name : String) : Bool :=
  (Pattern.parse? pattern).any (·.describes name)

/-- The files below a directory that a selection names. -/
def FileTree.select (tree : FileTree) (directory : List (List Char))
    (patterns excludes : List String) : Except PatternError (List String) :=
  Selection.select (tree.listPattern directory) Pattern.isMatch patterns excludes

end NameIndex
