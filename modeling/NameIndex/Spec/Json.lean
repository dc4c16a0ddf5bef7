import NameIndex.Json.Reader
import NameIndex.Json.Writer
import NameIndex.Spec.Basic
import NameIndex.Text.Fold
import NameIndex.Text.Numeral

/-!
# Descriptions in JSON

A JSON value is **laid over** a description: members that name a field change it, in the order of
the text, and all others are skipped. So of repeated members the last one wins, and a list that
comes twice is laid over the elements that are there. Nothing (`null`) leaves text and numbers as
they are, makes a list absent, and makes a list element absent.

A list that comes again with fewer elements keeps the others behind it, and if it comes once more
and grows, it is laid over these (`Buffer`). So what is laid over is a draft, whose lists are
buffers; the description is what the draft shows in the end.

Names of members are compared without regard to letter case.

## Main definitions

* `SetSpec.ofJson?`, `FileSpec.ofJson?` — reading; `none` if the value does not fit.
* `SetSpec.toJson` — writing; fields without content are left out.
-/

namespace NameIndex

open NameIndex.Text

/-! ## §1 Lists that are laid over -/

/-- A list, and the elements that it had when it was longer: they are kept behind it, and a list
that grows again finds them there. -/
structure Buffer (α : Type) where
  elements : List α
  behind : List α
  deriving Repr, DecidableEq

namespace Buffer

variable {α : Type}

/-- The empty list, with nothing behind it. -/
def empty : Buffer α := ⟨[], []⟩

/-- The elements and what is behind them. -/
def all (b : Buffer α) : List α := b.elements ++ b.behind

/-- The list with other elements, which take the places of those that were there. An empty list
keeps nothing behind it. -/
def refilled (b : Buffer α) (elements : List α) : Buffer α :=
  if elements.isEmpty then .empty else ⟨elements, b.all.drop elements.length⟩

end Buffer

/-- A disjointness constraint that is laid over. -/
structure DisjointSpec.Draft where
  vars : Option (Buffer String)
  index : Int32
  deriving Repr, DecidableEq

/-- A segment that is laid over. -/
structure SegmentSpec.Draft where
  id : SegmentId
  source : String
  symbols : Buffer (Option SymbolSpec)
  localVars : Buffer (Option LocalVarSpec)
  labels : Buffer (Option LabelSpec)
  floats : Buffer (Option FloatSpec)
  disjoints : Buffer (Option DisjointSpec.Draft)
  deriving Repr, DecidableEq

/-- A collection that is laid over. -/
structure SetSpec.Draft where
  segments : Option (Buffer (Option SegmentSpec.Draft))
  deriving Repr, DecidableEq

/-- A file that is laid over. -/
structure FileSpec.Draft where
  segment : SegmentSpec.Draft
  segments : Option (Buffer (Option SegmentSpec.Draft))
  deriving Repr, DecidableEq

/-! ### Drafts in which nothing is stated yet, and what drafts show -/

def DisjointSpec.Draft.blank : DisjointSpec.Draft := ⟨none, 0⟩

def SegmentSpec.Draft.blank : SegmentSpec.Draft := ⟨0, "", .empty, .empty, .empty, .empty, .empty⟩

def SetSpec.Draft.blank : SetSpec.Draft := ⟨none⟩

def FileSpec.Draft.blank : FileSpec.Draft := ⟨.blank, none⟩

def DisjointSpec.Draft.shown (d : DisjointSpec.Draft) : DisjointSpec where
  vars := d.vars.map (·.elements)
  index := d.index

def SegmentSpec.Draft.shown (d : SegmentSpec.Draft) : SegmentSpec where
  id := d.id
  source := d.source
  symbols := d.symbols.elements
  localVars := d.localVars.elements
  labels := d.labels.elements
  floats := d.floats.elements
  disjoints := d.disjoints.elements.map (Option.map DisjointSpec.Draft.shown)

/-- The segments of a list. -/
def SegmentSpec.Draft.shownAll (b : Buffer (Option SegmentSpec.Draft)) : List (Option SegmentSpec) :=
  b.elements.map (Option.map SegmentSpec.Draft.shown)

def SetSpec.Draft.shown (d : SetSpec.Draft) : SetSpec where
  segments := d.segments.map SegmentSpec.Draft.shownAll

def FileSpec.Draft.shown (d : FileSpec.Draft) : FileSpec where
  segment := d.segment.shown
  segments := d.segments.map SegmentSpec.Draft.shownAll

/-! ## §2 Laying values over fields -/

/-- How a value changes what is there; `none` if the value does not fit. -/
abbrev Overlay (α : Type) : Type := α → Json → Option α

namespace Overlay

variable {α : Type}

/-- A text field. -/
def text : Overlay String
  | old, .null => some old
  | _, .string s => some s
  | _, _ => none

/-- An unsigned number; a sign does not fit. -/
def word : Overlay UInt32
  | old, .null => some old
  | _, .number t => (Numeral.nat? t.toList).bind fun n => Numeral.word32? n
  | _, _ => none

/-- A signed number without fraction and exponent. -/
def int : Overlay Int32
  | old, .null => some old
  | _, .number t => (Numeral.int? t.toList).bind Numeral.int32?
  | _, _ => none

/-- Lays the items of an array over the elements of a list, from left to right; elements beyond
the list start from `fresh`. -/
def items (fresh : α) (item : Overlay α) : List α → List Json → Option (List α)
  | _, [] => some []
  | [], j :: js => do return (← item fresh j) :: (← items fresh item [] js)
  | a :: as, j :: js => do return (← item a j) :: (← items fresh item as js)

/-- A list that may be absent. -/
def list? (fresh : α) (item : Overlay α) : Overlay (Option (Buffer α))
  | _, .null => some none
  | old, .array js =>
    let old := old.getD .empty
    (items fresh item old.all js).map fun elements => some (old.refilled elements)
  | _, _ => none

/-- A list for which absent and empty are the same. -/
def list (fresh : α) (item : Overlay α) : Overlay (Buffer α) := fun old j =>
  (list? fresh item (some old) j).map (·.getD .empty)

/-- An element that may be absent. -/
def optional (fresh : α) (whole : Overlay α) : Overlay (Option α)
  | _, .null => some none
  | old, j => (whole (old.getD fresh) j).map some

/-- A list of elements that may be absent. -/
def optionals (fresh : α) (whole : Overlay α) : Overlay (Buffer (Option α)) :=
  list none (optional fresh whole)

/-- A field of a structure: its name, and how a value changes it. -/
abbrev FieldRule (σ : Type) : Type := String × Overlay σ

/-- A field given by what it reads and what it replaces. -/
def field {σ : Type} (name : String) (get : σ → α) (set : σ → α → σ) (lay : Overlay α) :
    FieldRule σ :=
  (name, fun s j => (lay (get s) j).map (set s))

/-- The change that one member makes. -/
def member {σ : Type} (fields : List (FieldRule σ)) (s : σ) (m : String × Json) : Option σ :=
  match fields.find? fun f => Fold.same f.1 m.1 with
  | some f => f.2 s m.2
  | none => some s

/-- A structure: the members of an object change its fields one after the other. -/
def fields {σ : Type} (fields : List (FieldRule σ)) : Overlay σ
  | old, .null => some old
  | old, .object members => members.foldlM (member fields) old
  | _, _ => none

end Overlay

/-! ## §3 The structures -/

open Overlay in
/-- A symbol. -/
def SymbolSpec.overlay : Overlay SymbolSpec := fields
  [field "name" (·.name) (fun s v => { s with name := v }) text,
   field "type" (·.type) (fun s v => { s with type := v }) text,
   field "index" (·.index) (fun s v => { s with index := v }) int,
   field "ordinal" (·.ordinal) (fun s v => { s with ordinal := v }) int]

open Overlay in
/-- A local variable. -/
def LocalVarSpec.overlay : Overlay LocalVarSpec := fields
  [field "name" (·.name) (fun s v => { s with name := v }) text,
   field "index" (·.index) (fun s v => { s with index := v }) int,
   field "ordinal" (·.ordinal) (fun s v => { s with ordinal := v }) int]

open Overlay in
/-- A labelled statement. -/
def LabelSpec.overlay : Overlay LabelSpec := fields
  [field "label" (·.label) (fun s v => { s with label := v }) text,
   field "index" (·.index) (fun s v => { s with index := v }) int]

open Overlay in
/-- A floating hypothesis. -/
def FloatSpec.overlay : Overlay FloatSpec := fields
  [field "name" (·.name) (fun s v => { s with name := v }) text,
   field "label" (·.label) (fun s v => { s with label := v }) text,
   field "typecode" (·.typecode) (fun s v => { s with typecode := v }) text,
   field "index" (·.index) (fun s v => { s with index := v }) int]

open Overlay in
/-- A disjointness constraint. -/
def DisjointSpec.overlay : Overlay DisjointSpec.Draft := fields
  [field "vars" (·.vars) (fun s v => { s with vars := v }) (list? "" text),
   field "index" (·.index) (fun s v => { s with index := v }) int]

open Overlay in
/-- The fields of a segment. -/
def SegmentSpec.fields : List (FieldRule SegmentSpec.Draft) :=
  [field "id" (·.id) (fun s v => { s with id := v }) word,
   field "source" (·.source) (fun s v => { s with source := v }) text,
   field "symbols" (·.symbols) (fun s v => { s with symbols := v })
     (optionals .blank SymbolSpec.overlay),
   field "localVars" (·.localVars) (fun s v => { s with localVars := v })
     (optionals .blank LocalVarSpec.overlay),
   field "labels" (·.labels) (fun s v => { s with labels := v })
     (optionals .blank LabelSpec.overlay),
   field "floats" (·.floats) (fun s v => { s with floats := v })
     (optionals .blank FloatSpec.overlay),
   field "globalDvs" (·.disjoints) (fun s v => { s with disjoints := v })
     (optionals .blank DisjointSpec.overlay)]

/-- A segment. -/
def SegmentSpec.overlay : Overlay SegmentSpec.Draft := Overlay.fields SegmentSpec.fields

/-- The list of segments of a collection. -/
def SegmentSpec.overlayList : Overlay (Option (Buffer (Option SegmentSpec.Draft))) :=
  Overlay.list? none (Overlay.optional .blank SegmentSpec.overlay)

/-- A collection. -/
def SetSpec.overlay : Overlay SetSpec.Draft := Overlay.fields
  [Overlay.field "segments" (·.segments) (fun s v => { s with segments := v })
    SegmentSpec.overlayList]

/-- A field of the segment that a file describes. -/
def FileSpec.ofSegmentField (f : Overlay.FieldRule SegmentSpec.Draft) :
    Overlay.FieldRule FileSpec.Draft :=
  (f.1, fun s j => (f.2 s.segment j).map fun v => { s with segment := v })

/-- Either layout. -/
def FileSpec.overlay : Overlay FileSpec.Draft := Overlay.fields
  (SegmentSpec.fields.map FileSpec.ofSegmentField ++
    [Overlay.field "segments" (·.segments) (fun s v => { s with segments := v })
      SegmentSpec.overlayList])

/-! ## §4 Reading -/

/-- The collection that a value describes. -/
def SetSpec.ofJson? (j : Json) : Option SetSpec :=
  (SetSpec.overlay .blank j).map SetSpec.Draft.shown

/-- The file that a value describes. -/
def FileSpec.ofJson? (j : Json) : Option FileSpec :=
  (FileSpec.overlay .blank j).map FileSpec.Draft.shown

/-! ## §5 Writing -/

namespace SpecMember

/-- A number as a member; zero is left out. -/
def int (name : String) (n : Int32) : List (String × Json) :=
  if n = 0 then [] else [(name, .number n.toInt.repr)]

/-- A list as a member; the empty list is left out. -/
def list {α : Type} (name : String) (item : α → Json) (xs : List (Option α)) :
    List (String × Json) :=
  if xs.isEmpty then []
  else [(name, .array (xs.map fun x => (x.map item).getD .null))]

/-- A text as a member; the empty text is left out. -/
def text (name : String) (s : String) : List (String × Json) :=
  if s = "" then [] else [(name, .string s)]

end SpecMember

open SpecMember in
def SymbolSpec.toJson (s : SymbolSpec) : Json :=
  .object ([("name", .string s.name), ("type", .string s.type)]
    ++ int "index" s.index ++ int "ordinal" s.ordinal)

open SpecMember in
def LocalVarSpec.toJson (s : LocalVarSpec) : Json :=
  .object ([("name", .string s.name)] ++ int "index" s.index ++ int "ordinal" s.ordinal)

open SpecMember in
def LabelSpec.toJson (s : LabelSpec) : Json :=
  .object ([("label", .string s.label)] ++ int "index" s.index)

open SpecMember in
def FloatSpec.toJson (s : FloatSpec) : Json :=
  .object ([("name", .string s.name), ("label", .string s.label), ("typecode", .string s.typecode)]
    ++ int "index" s.index)

open SpecMember in
def DisjointSpec.toJson (s : DisjointSpec) : Json :=
  .object ([("vars", match s.vars with
      | some vars => .array (vars.map .string)
      | none => .null)]
    ++ int "index" s.index)

open SpecMember in
def SegmentSpec.toJson (s : SegmentSpec) : Json :=
  .object ([("id", .number s.id.toNat.repr)]
    ++ text "source" s.source
    ++ list "symbols" SymbolSpec.toJson s.symbols
    ++ list "localVars" LocalVarSpec.toJson s.localVars
    ++ list "labels" LabelSpec.toJson s.labels
    ++ list "floats" FloatSpec.toJson s.floats
    ++ list "globalDvs" DisjointSpec.toJson s.disjoints)

/-- The value of a collection; its list is always written. -/
def SetSpec.toJson (s : SetSpec) : Json :=
  .object [("segments",
    .array ((s.segments.getD []).map fun x => (x.map SegmentSpec.toJson).getD .null))]

end NameIndex
