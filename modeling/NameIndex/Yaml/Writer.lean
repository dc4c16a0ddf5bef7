import NameIndex.Yaml.Presentation

/-!
# Writing YAML

A document as it is laid out: mappings and sequences over several lines, short lists of texts in
brackets on one line. Collections are set in to the next multiple of the step; inside a sequence
they are set in just as far as the dash and its space reach.

Where the lines and columns are does not depend on how a text is presented, so the layout is written
for any way of presenting texts: inside brackets or outside, and with an indentation for lines after
the first.
-/

namespace NameIndex.Yaml

/-- What a document is written from. -/
inductive Layout where
  | null
  | number (n : Int)
  | text (text : String)
  /-- Texts in brackets on one line. -/
  | brackets (texts : List String)
  | sequence (items : List Layout)
  | mapping (pairs : List (String × Layout))
  deriving Repr

namespace Layout

/-- The indentation of what stands inside a mapping at `n`. -/
def deeper (n : Nat) : Nat := step * ((n + step) / step)

/-- Ends a line, unless a literal scalar has ended it. -/
def endLine (line : List Char) : List Char :=
  if line.getLast?.any isBreak then line else line ++ ['\n']

section

variable (present : Bool → Nat → String → List Char)

/-- Texts in brackets. -/
def writeBrackets (indent : Nat) (texts : List String) : List Char :=
  '[' :: (List.intercalate [',', ' '] (texts.map (present true indent)) ++ [']'])

mutual

/-- What follows a dash; a mapping starts on that line, and its keys stand at `n`. -/
def writeItem (n : Nat) : Layout → List Char
  | .null => endLine "null".toList
  | .number k => endLine k.repr.toList
  | .text t => endLine (present false n t)
  | .brackets ts => endLine (writeBrackets present (deeper n) ts)
  | .sequence [] => endLine "[]".toList
  | .sequence (item :: items) =>
    '-' :: ' ' :: writeItem (n + 2) item ++ writeItems n items
  | .mapping [] => endLine ['\x7b', '\x7d']
  | .mapping ((key, v) :: pairs) =>
    key.toList ++ ':' :: writeValue n v ++ writePairs n pairs

/-- What follows a key that stands at `n`. -/
def writeValue (n : Nat) : Layout → List Char
  | .null => endLine " null".toList
  | .number k => endLine (' ' :: k.repr.toList)
  | .text t => endLine (' ' :: present false (deeper n) t)
  | .brackets ts => endLine (' ' :: writeBrackets present (deeper (deeper n)) ts)
  | .sequence [] => endLine " []".toList
  | .sequence (item :: items) => '\n' :: writeItems (deeper n) (item :: items)
  | .mapping [] => endLine [' ', '\x7b', '\x7d']
  | .mapping (pair :: pairs) => '\n' :: writePairs (deeper n) (pair :: pairs)

/-- The items of a sequence whose dashes stand at `n`. -/
def writeItems (n : Nat) : List Layout → List Char
  | [] => []
  | item :: items =>
    List.replicate n ' ' ++ '-' :: ' ' :: writeItem (n + 2) item ++ writeItems n items

/-- The pairs of a mapping whose keys stand at `n`. -/
def writePairs (n : Nat) : List (String × Layout) → List Char
  | [] => []
  | (key, v) :: pairs =>
    List.replicate n ' ' ++ key.toList ++ ':' :: writeValue n v ++ writePairs n pairs

end

/-- The text of a document in which texts are presented in a given way. -/
def documentBy (d : Layout) : String := String.ofList (writeItem present 0 d)

end

/-- The text of a document in which every text has the style that is chosen for it. -/
def document (d : Layout) : String := d.documentBy presented

end Layout

end NameIndex.Yaml
