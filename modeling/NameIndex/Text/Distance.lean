/-!
# Edit distance

The least number of characters to insert, to delete or to replace that makes one text of another,
and the nearest of several candidates by it.
-/

namespace NameIndex.Text.Distance

/-- The next row of the table of distances: `row` holds the distances of one text to the starts of
`target`, of which `first` is the one that starts the new row. -/
def nextRow (c : Char) (first : Nat) : List Nat → List Char → List Nat
  | corner :: above :: row, d :: target =>
    let best := min (min (above + 1) (first + 1)) (corner + if c = d then 0 else 1)
    first :: nextRow c best (above :: row) target
  | _, _ => [first]

/-- The rows of the table from a row on, one for each character of a text; the last one. -/
def lastRow (target : List Char) : List Nat → List Char → List Nat
  | row, [] => row
  | row, c :: text => lastRow target (nextRow c (row.headD 0 + 1) row target) text

/-- The edit distance of two texts. -/
def distance (text target : List Char) : Nat :=
  (lastRow target (List.range (target.length + 1)) text).getLastD 0

/-- A name without underscores and without letter case. -/
def folded (name : String) : List Char := (name.toList.filter (· ≠ '_')).map Char.toLower

/-- The candidate nearest to a name, if fewer than half of the characters of the name have to
change; the first one of several. -/
def nearest? (name : String) (candidates : List String) : Option String :=
  let text := folded name
  (candidates.foldl
    (fun (best : Option String × Nat) candidate =>
      let d := distance text (folded candidate)
      if d < best.2 then (some candidate, d) else best)
    (none, (text.length + 1) / 2)).1

end NameIndex.Text.Distance
