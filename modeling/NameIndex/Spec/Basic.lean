import NameIndex.Segment.Basic

/-!
# Segment descriptions

The form in which segments are kept in files. It differs from a segment in three ways: it carries
its id and a note on where it came from, the type of a symbol is a word, and list elements can be
missing, because a file may hold nothing where a declaration is expected. Each kind of declaration
has a description of its own, so that the form of the files does not depend on that of segments.
-/

namespace NameIndex

/-- A symbol declaration whose type is a word still to be understood. -/
structure SymbolSpec where
  name : String
  type : String
  index : Int32
  ordinal : Int32
  deriving Repr, DecidableEq

/-- The description of a variable declared for one statement. -/
structure LocalVarSpec where
  name : String
  index : Int32
  ordinal : Int32
  deriving Repr, DecidableEq

/-- The description of a labelled statement. -/
structure LabelSpec where
  label : String
  index : Int32
  deriving Repr, DecidableEq

/-- The description of a floating hypothesis. -/
structure FloatSpec where
  name : String
  label : String
  typecode : String
  index : Int32
  deriving Repr, DecidableEq

/-- The description of a disjointness constraint. The list of variables may be absent. -/
structure DisjointSpec where
  vars : Option (List String)
  index : Int32
  deriving Repr, DecidableEq

/-- The description of one segment. -/
structure SegmentSpec where
  id : SegmentId
  /-- Where the segment came from, such as the name of a file. -/
  source : String
  symbols : List (Option SymbolSpec)
  localVars : List (Option LocalVarSpec)
  labels : List (Option LabelSpec)
  floats : List (Option FloatSpec)
  disjoints : List (Option DisjointSpec)
  deriving Repr, DecidableEq

/-- The description of a collection; the order of the list is the order of the document. The list
may be absent, which is not the same as an empty list to a reader of files. -/
structure SetSpec where
  segments : Option (List (Option SegmentSpec))
  deriving Repr, DecidableEq

/-- What a file can hold: the fields of one segment, and a list of segments, which counts if it is
there. -/
structure FileSpec where
  segment : SegmentSpec
  segments : Option (List (Option SegmentSpec))
  deriving Repr, DecidableEq

/-! ## Descriptions in which nothing is stated yet -/

def SymbolSpec.blank : SymbolSpec := ⟨"", "", 0, 0⟩

def SegmentSpec.blank : SegmentSpec := ⟨0, "", [], [], [], [], []⟩

def SetSpec.blank : SetSpec := ⟨none⟩

def FileSpec.blank : FileSpec := ⟨.blank, none⟩

def LocalVarSpec.blank : LocalVarSpec := ⟨"", 0, 0⟩

def LabelSpec.blank : LabelSpec := ⟨"", 0⟩

def FloatSpec.blank : FloatSpec := ⟨"", "", "", 0⟩

def DisjointSpec.blank : DisjointSpec := ⟨none, 0⟩

end NameIndex
