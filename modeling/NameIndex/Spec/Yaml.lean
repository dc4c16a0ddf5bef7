import NameIndex.Spec.Basic
import NameIndex.Yaml.Library

/-!
# Descriptions in YAML

The structures as a YAML library sees them: each by its fields, with their keys and with the
decoders of what stands in them. The fields of a segment are fields of a file besides, next to the
list of segments.

Nothing leaves text and numbers as they are, makes a list absent, and makes a list element absent.

## Main definitions

* `SetSpec.ofYaml?`, `FileSpec.ofYaml?` — reading; `none` if the document does not fit.
* `SetSpec.toYaml` — writing; fields without content are left out.
-/

namespace NameIndex

/-! ## §1 The structures -/

section

variable (yaml : Yaml.Library)

open Yaml

/-- A symbol. -/
def SymbolSpec.decode : Decoder yaml.Node SymbolSpec := yaml.record
  [field "name" yaml.text fun s v => { s with name := v },
   field "type" yaml.text fun s v => { s with type := v },
   field "index" yaml.int fun s v => { s with index := v },
   field "ordinal" yaml.int fun s v => { s with ordinal := v }] .blank

/-- A local variable. -/
def LocalVarSpec.decode : Decoder yaml.Node LocalVarSpec := yaml.record
  [field "name" yaml.text fun s v => { s with name := v },
   field "index" yaml.int fun s v => { s with index := v },
   field "ordinal" yaml.int fun s v => { s with ordinal := v }] .blank

/-- A labelled statement. -/
def LabelSpec.decode : Decoder yaml.Node LabelSpec := yaml.record
  [field "label" yaml.text fun s v => { s with label := v },
   field "index" yaml.int fun s v => { s with index := v }] .blank

/-- A floating hypothesis. -/
def FloatSpec.decode : Decoder yaml.Node FloatSpec := yaml.record
  [field "name" yaml.text fun s v => { s with name := v },
   field "label" yaml.text fun s v => { s with label := v },
   field "typecode" yaml.text fun s v => { s with typecode := v },
   field "index" yaml.int fun s v => { s with index := v }] .blank

/-- A disjointness constraint. -/
def DisjointSpec.decode : Decoder yaml.Node DisjointSpec := yaml.record
  [field "vars" (yaml.slice yaml.text) fun s v => { s with vars := v },
   field "index" yaml.int fun s v => { s with index := v }] .blank

/-- A list of structures that may be missing, for which absent and empty are the same. -/
def Yaml.records {σ α : Type} (key : String) (decode : Decoder yaml.Node α)
    (set : σ → List (Option α) → σ) : FieldRule yaml.Node σ :=
  field key (yaml.slice (yaml.pointer decode)) fun s v => set s (v.getD [])

/-- The fields of a segment. -/
def SegmentSpec.yamlFields : List (FieldRule yaml.Node SegmentSpec) :=
  [field "id" yaml.word fun s v => { s with id := v },
   field "source" yaml.text fun s v => { s with source := v },
   records yaml "symbols" (SymbolSpec.decode yaml) fun s v => { s with symbols := v },
   records yaml "localVars" (LocalVarSpec.decode yaml) fun s v => { s with localVars := v },
   records yaml "labels" (LabelSpec.decode yaml) fun s v => { s with labels := v },
   records yaml "floats" (FloatSpec.decode yaml) fun s v => { s with floats := v },
   records yaml "globalDvs" (DisjointSpec.decode yaml) fun s v => { s with disjoints := v }]

/-- A segment. -/
def SegmentSpec.decode : Decoder yaml.Node SegmentSpec :=
  yaml.record (SegmentSpec.yamlFields yaml) .blank

/-- A list of segments. -/
def SegmentSpec.decodeList : Decoder yaml.Node (Option (List (Option SegmentSpec))) :=
  yaml.slice (yaml.pointer (SegmentSpec.decode yaml))

/-- The fields of a collection. -/
def SetSpec.yamlFields : List (FieldRule yaml.Node SetSpec) :=
  [field "segments" (SegmentSpec.decodeList yaml) fun s v => { s with segments := v }]

variable {yaml} in
/-- A field of the segment that a file describes. -/
def FileSpec.ofSegmentYamlField (f : FieldRule yaml.Node SegmentSpec) :
    FieldRule yaml.Node FileSpec :=
  (f.1, fun s node => (f.2 s.segment node).map fun v => { s with segment := v })

/-- The fields of a file: those of a segment, and a list of segments, which counts if it is there. -/
def FileSpec.yamlFields : List (FieldRule yaml.Node FileSpec) :=
  (SegmentSpec.yamlFields yaml).map FileSpec.ofSegmentYamlField ++
    [field "segments" (yaml.pointer (SegmentSpec.decodeList yaml)) fun s v =>
      { s with segments := v.map (·.getD []) }]

/-! ## §2 Reading -/

/-- The collection that a document describes; a document that says nothing describes none. -/
def SetSpec.ofYaml? (node : yaml.Node) : Option SetSpec :=
  (yaml.record (SetSpec.yamlFields yaml) SetSpec.blank node).map (·.getD .blank)

/-- The file that a document describes. -/
def FileSpec.ofYaml? (node : yaml.Node) : Option FileSpec :=
  (yaml.record (FileSpec.yamlFields yaml) FileSpec.blank node).map (·.getD .blank)

end

/-! ## §3 Writing -/

namespace SpecPair

open Yaml

/-- A number as a pair; zero is left out. -/
def int (key : String) (n : Int32) : List (String × Layout) :=
  if n = 0 then [] else [(key, .number n.toInt)]

/-- A list as a pair; the empty list is left out. -/
def list {α : Type} (key : String) (item : α → Layout) (xs : List (Option α)) :
    List (String × Layout) :=
  if xs.isEmpty then []
  else [(key, .sequence (xs.map fun x => (x.map item).getD .null))]

/-- A text as a pair; the empty text is left out. -/
def text (key : String) (s : String) : List (String × Layout) :=
  if s = "" then [] else [(key, .text s)]

end SpecPair

open SpecPair in
def SymbolSpec.toYaml (s : SymbolSpec) : Yaml.Layout :=
  .mapping ([("name", .text s.name), ("type", .text s.type)]
    ++ int "index" s.index ++ int "ordinal" s.ordinal)

open SpecPair in
def LocalVarSpec.toYaml (s : LocalVarSpec) : Yaml.Layout :=
  .mapping ([("name", .text s.name)] ++ int "index" s.index ++ int "ordinal" s.ordinal)

open SpecPair in
def LabelSpec.toYaml (s : LabelSpec) : Yaml.Layout :=
  .mapping ([("label", .text s.label)] ++ int "index" s.index)

open SpecPair in
def FloatSpec.toYaml (s : FloatSpec) : Yaml.Layout :=
  .mapping ([("name", .text s.name), ("label", .text s.label), ("typecode", .text s.typecode)]
    ++ int "index" s.index)

open SpecPair in
def DisjointSpec.toYaml (s : DisjointSpec) : Yaml.Layout :=
  .mapping ([("vars", .brackets (s.vars.getD []))] ++ int "index" s.index)

open SpecPair in
def SegmentSpec.toYaml (s : SegmentSpec) : Yaml.Layout :=
  .mapping ([("id", .number s.id.toNat)]
    ++ text "source" s.source
    ++ list "symbols" SymbolSpec.toYaml s.symbols
    ++ list "localVars" LocalVarSpec.toYaml s.localVars
    ++ list "labels" LabelSpec.toYaml s.labels
    ++ list "floats" FloatSpec.toYaml s.floats
    ++ list "globalDvs" DisjointSpec.toYaml s.disjoints)

/-- The document of a collection; its list is always written. -/
def SetSpec.toYaml (s : SetSpec) : Yaml.Layout :=
  .mapping [("segments",
    .sequence ((s.segments.getD []).map fun x => (x.map SegmentSpec.toYaml).getD .null))]

end NameIndex
