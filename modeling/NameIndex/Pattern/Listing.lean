import NameIndex.Files.Tree
import NameIndex.Pattern.Match

/-!
# Listing files by pattern

The files and directories below a directory that a pattern describes. In contrast to matching,
which looks at text only, `x/**` lists `x` only if it is a directory, a pattern that ends in a slash
lists directories only, and a pattern without any wildcard lists the name as it is written.

What stands before the first wildcard has to be a clean path: an element that is empty or a dot
leads nowhere. An alternative without text at the end of a choice is not tried.
-/

namespace NameIndex.Pattern

/-! ## §1 Elements -/

/-- An element of a simple pattern. -/
inductive Element where
  /-- Any number of elements. -/
  | deep
  /-- One element, described by glyphs. -/
  | named (glyphs : List Glyph)
  deriving Repr, DecidableEq

/-- The element that glyphs describe. -/
def Element.ofGlyphs (glyphs : List Glyph) : Element :=
  if glyphs = [.anyRun, .anyRun] then .deep else .named glyphs

/-- The glyphs between slashes. -/
def splitSlashes : List Glyph → List (List Glyph)
  | [] => [[]]
  | .slash :: rest => [] :: splitSlashes rest
  | g :: rest =>
    match splitSlashes rest with
    | first :: more => (g :: first) :: more
    | [] => [[g]]

/-- The glyph stands for more than one text. -/
def isWild : Glyph → Bool
  | .anyOne | .anyRun | .oneOf .. => true
  | .char _ | .escaped _ | .slash => false

/-- The characters that a backslash can make plain. -/
def isReserved (c : Char) : Bool :=
  c ∈ ['*', '?', '[', ']', '\x7b', '\x7d']

/-- The text that glyphs without wildcards stand for. A backslash before a character that needs
none is part of the text. -/
def plainText : List Glyph → List Char
  | [] => []
  | .char c :: rest => c :: plainText rest
  | .escaped c :: rest => if isReserved c then c :: plainText rest else '\\' :: c :: plainText rest
  | .slash :: rest => '/' :: plainText rest
  | _ :: rest => plainText rest

/-- The elements describe a place, which is given by its elements. -/
def matchesPlace : List Element → List (List Char) → Bool
  | [], place => place.isEmpty
  | .deep :: rest, [] => matchesPlace rest []
  | .deep :: rest, x :: place =>
    matchesPlace rest (x :: place) || matchesPlace (.deep :: rest) place
  | .named _ :: _, [] => false
  | .named gs :: rest, x :: place => matchesFrom false gs x && matchesPlace rest place
termination_by elements place => elements.length + place.length

/-! ## §2 Listing -/

/-- The place that a clean path leads to: a dot, or elements that are neither empty nor dots. -/
def cleanPlace? (path : List Char) : Option (List (List Char)) :=
  if path = ['.'] then some []
  else
    let elements := Path.elements path
    if elements.any fun e => e = [] ∨ e = ['.'] ∨ e = ['.', '.'] then none else some elements

/-- The path without one slash at its end. -/
def withoutSlash (path : List Char) : List Char :=
  if 1 < path.length ∧ path.getLast? = some '/' then path.dropLast else path

/-- The name of a place. -/
def placeName (place : List (List Char)) : String :=
  if place.isEmpty then "." else String.ofList (List.intercalate ['/'] place)

/-- The elements describe a place of a tree. Where they end in any number of elements, those may
be none only for a directory. -/
def lists (elements : List Element) (directoriesOnly isDirectory : Bool)
    (place : List (List Char)) : Bool :=
  if isDirectory then matchesPlace elements place
  else
    !directoriesOnly &&
      matchesPlace
        (if elements.getLast? = some .deep then elements ++ [.named [.anyRun]] else elements) place

/-- What a simple pattern lists below a directory. -/
def listSimple (tree : FileTree) (directory : List (List Char)) (glyphs : List Glyph) :
    List String :=
  if !glyphs.any isWild then
    match cleanPlace? (withoutSlash (plainText glyphs)) with
    | some place =>
      if (tree.at? (directory ++ place)).isSome then [String.ofList (plainText glyphs)] else []
    | none => []
  else
    let pieces := splitSlashes glyphs
    let before := pieces.takeWhile fun piece => !piece.any isWild
    let after := pieces.dropWhile fun piece => !piece.any isWild
    let start := if before.isEmpty then some []
      else cleanPlace? (List.intercalate ['/'] (before.map plainText))
    match start with
    | none => []
    | some start =>
      let elements := (after.filter (· ≠ [])).map Element.ofGlyphs
      let places := tree.places (directory ++ start)
      let chosen := places.filter fun place =>
        lists elements (after.getLast? = some [])
          (tree.isDirectory (directory ++ start ++ place)) place
      chosen.map fun place => placeName (start ++ place)

/-- What a pattern lists below a directory. -/
def list (tree : FileTree) (directory : List (List Char)) (p : Pattern) : List String :=
  (p.expand false).flatMap (listSimple tree directory)

end NameIndex.Pattern
