import NameIndex.Text.Numeral
import NameIndex.Yaml.Block
import NameIndex.Yaml.Library
import NameIndex.Yaml.Scalar

/-!
# A fragment of YAML

A library that reads and writes documents without tags, anchors, aliases, merged mappings and folded
scalars. A text takes the characters of any scalar, however it is written. A number takes plain
numbers, cut toward zero. No key may come twice in a mapping, not even one that names no field; a key
that says nothing names none.

## Main definition

* `fragment` — the library.
-/

namespace NameIndex.Yaml

open NameIndex.Text

namespace Node

/-- The node says nothing. -/
def isNull : Node → Bool
  | .scalar true text => Scalar.meaning text == .null
  | _ => false

/-- The items of a sequence. -/
def items? : Node → Option (List Node)
  | .sequence items => some items
  | _ => none

/-- Two keys are the same: scalars with the same characters, or collections of one kind. -/
def sameKey : Node → Node → Bool
  | .scalar _ a, .scalar _ b => a == b
  | .sequence _, .sequence _ => true
  | .mapping _, .mapping _ => true
  | _, _ => false

/-- No key comes twice. -/
def distinctKeys : List (Node × Node) → Bool
  | [] => true
  | (key, _) :: rest => !rest.any (fun other => sameKey key other.1) && distinctKeys rest

/-- A node decoded as a scalar, unless it says nothing. -/
def scalar? {α : Type} (read : Bool → String → Option α) : Decoder Node α
  | .scalar plain text =>
    if (Node.scalar plain text).isNull then some none else (read plain text).map some
  | _ => none

/-- The characters of a scalar. -/
def text : Decoder Node String := scalar? fun _ text => some text

/-- A plain number, cut toward zero. -/
def number? (plain : Bool) (text : String) : Option Int :=
  if plain then
    match Scalar.meaning text with
    | .int n => some n
    | .float x => some x.truncate
    | _ => none
  else none

/-- A signed number. -/
def int : Decoder Node Int32 := scalar? fun plain text => (number? plain text).bind Numeral.int32?

/-- An unsigned number. -/
def word : Decoder Node UInt32 := scalar? fun plain text => (number? plain text).bind Numeral.word32?

/-- The entries of a mapping whose keys are scalars and come once. -/
def entries? : Node → Option (List (String × Node))
  | .mapping pairs =>
    if distinctKeys pairs then
      (pairs.mapM fun p => (text p.1).map fun key? => key?.map fun key => (key, p.2)).map
        fun entries => entries.filterMap fun e => e
    else none
  | _ => none

end Node

/-- The library for the fragment. -/
def fragment : Library where
  Node := Node
  parse content := content.chars?.bind parse?
  isNull := Node.isNull
  items? := Node.items?
  entries? := Node.entries?
  text := Node.text
  int := Node.int
  word := Node.word
  slice := itemsOf Node.isNull Node.items?
  pointer := valueOf Node.isNull
  record := recordOf Node.isNull Node.entries?
  print := Layout.document

end NameIndex.Yaml
