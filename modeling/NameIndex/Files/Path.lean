/-!
# Paths

Paths are text with elements between slashes. Cleaning a path removes what says nothing: doubled
slashes, elements that name the directory itself, and each element that a following `..` takes
back.
-/

namespace NameIndex.Path

/-- The elements between slashes. -/
def elements (path : List Char) : List (List Char) :=
  match path with
  | [] => [[]]
  | '/' :: rest => [] :: elements rest
  | c :: rest =>
    match elements rest with
    | [] => [[c]]
    | first :: more => (c :: first) :: more

/-- The path starts at the root of all files. -/
def isAbsolute : List Char → Bool
  | '/' :: _ => true
  | _ => false

/-- One element after the cleaned elements before it, which are in reversed order. -/
def cleanStep (rooted : Bool) (done : List (List Char)) (element : List Char) : List (List Char) :=
  if element = [] ∨ element = ['.'] then done
  else if element = ['.', '.'] then
    match done with
    | [] => if rooted then [] else [element]
    | last :: before => if last = ['.', '.'] then element :: done else before
  else element :: done

/-- The shortest path with the same meaning. -/
def clean (path : List Char) : List Char :=
  let rooted := isAbsolute path
  let done := ((elements path).foldl (cleanStep rooted) []).reverse
  let joined := List.intercalate ['/'] done
  if rooted then '/' :: joined else if joined.isEmpty then ['.'] else joined

/-- Everything up to the last slash, cleaned: the directory that holds the path. -/
def directory (path : List Char) : List Char :=
  clean (path.reverse.dropWhile (· ≠ '/')).reverse

/-- A path inside a directory, cleaned. -/
def join (directory path : List Char) : List Char :=
  clean (directory ++ '/' :: path)

/-- The last element from its last dot on; empty without a dot. -/
def extension (path : List Char) : List Char :=
  let last := (path.reverse.takeWhile (· ≠ '/')).reverse
  if last.contains '.' then '.' :: (last.reverse.takeWhile (· ≠ '.')).reverse else []

end NameIndex.Path
