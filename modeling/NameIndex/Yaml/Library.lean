import NameIndex.Files.Tree
import NameIndex.Yaml.Writer

/-!
# The library that knows YAML

YAML is read and written by a library, which is a parameter of everything that has to do with
description files. What it offers is a reader that turns a text into a node, views of a node, and
decoders that put what a node says into a place of some type; and a printer.

A decoder says `none` if a node does not fit its place, and `some none` if the place is left as it
is. Decoders of lists, optional values and structures are made from those of their parts. A structure
is given by the fields that it has, each with its key; `itemsOf`, `valueOf` and `recordOf` say what
such decoders come to, in terms of the views.
-/

namespace NameIndex.Yaml

/-- How nodes are decoded into a place of a type. -/
abbrev Decoder (Node α : Type) : Type := Node → Option (Option α)

/-- A field of a structure: its key, and how a node changes the structure. -/
abbrev FieldRule (Node σ : Type) : Type := String × (σ → Node → Option σ)

/-- A field given by how it is decoded and where it stands in the structure. -/
def field {Node σ α : Type} (key : String) (decode : Decoder Node α) (set : σ → α → σ) :
    FieldRule Node σ :=
  (key, fun s node => (decode node).map fun v? => (v?.map (set s)).getD s)

/-- A library that reads and writes YAML. -/
structure Library where
  /-- What stands at a place in a document. -/
  Node : Type
  /-- The root of the first document of a text; `none` if the text is malformed. A text without a
  document has a root that says nothing. -/
  parse : Content → Option Node
  /-- The node says nothing. -/
  isNull : Node → Bool
  /-- The items of a sequence. -/
  items? : Node → Option (List Node)
  /-- The entries of a mapping, by the names that their keys give, in the sequence in which they are
  decoded; `none` also for a mapping with keys that cannot stand together. -/
  entries? : Node → Option (List (String × Node))
  text : Decoder Node String
  int : Decoder Node Int32
  word : Decoder Node UInt32
  /-- A list, which may be absent. -/
  slice : {α : Type} → Decoder Node α → Decoder Node (Option (List α))
  /-- A value that may be absent. -/
  pointer : {α : Type} → Decoder Node α → Decoder Node (Option α)
  /-- A structure, from its fields and from what it is before. -/
  record : {σ : Type} → List (FieldRule Node σ) → σ → Decoder Node σ
  /-- The text of a document. -/
  print : Layout → String

/-! ## What decoders come to -/

section

variable {Node α σ : Type} (isNull : Node → Bool)

/-- A node that says nothing makes a list absent. Every item of a sequence is decoded, and those
that leave their place as it is are dropped. -/
def itemsOf (items? : Node → Option (List Node)) (decode : Decoder Node α) :
    Decoder Node (Option (List α)) := fun node =>
  if isNull node then some (some none)
  else (items? node).bind fun items =>
    (items.mapM decode).map fun values => some (some (values.filterMap fun v => v))

/-- A node that says nothing makes a value absent. -/
def valueOf (decode : Decoder Node α) : Decoder Node (Option α) := fun node =>
  if isNull node then some (some none) else (decode node).map (Option.map some)

/-- The change that one entry makes; an entry that names no field makes none. -/
def entry (fields : List (FieldRule Node σ)) (s : σ) (e : String × Node) : Option σ :=
  match fields.find? fun f => f.1 = e.1 with
  | some f => f.2 s e.2
  | none => some s

/-- No field is named twice. -/
def namesOnce (fields : List (FieldRule Node σ)) (entries : List (String × Node)) : Bool :=
  fields.all fun f => (entries.filter fun e => e.1 = f.1).length ≤ 1

/-- The entries of a mapping change the fields that they name, one after the other; a node that says
nothing changes none. -/
def recordOf (entries? : Node → Option (List (String × Node))) (fields : List (FieldRule Node σ))
    (s : σ) : Decoder Node σ := fun node =>
  if isNull node then some none
  else (entries? node).bind fun entries =>
    if namesOnce fields entries then (entries.foldlM (entry fields) s).map some else none

end

end NameIndex.Yaml
