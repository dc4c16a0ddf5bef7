import NameIndex.Text.Quoted

/-!
# Segments

A database is split into **segments**, chunks that are parsed and replaced independently. A
segment lists what it declares: math symbols, variables local to one statement, labelled
statements, floating hypotheses and global disjointness constraints. Declarations carry the
statement index inside the segment and, where one statement declares several names, the ordinal of
the token.
-/

namespace NameIndex

/-- The stable identity of a segment across edits. -/
abbrev SegmentId : Type := UInt32

/-! ## §1 Symbol types -/

/-- The kind of a math symbol. Other numbers can be recorded, and count as neither kind. -/
inductive SymbolType where
  /-- A variable. -/
  | variable
  /-- A constant. -/
  | constant
  /-- A number that stands for no kind. -/
  | other (number : Int)
  deriving Repr, DecidableEq

namespace SymbolType

/-- The symbol type with a number. -/
def ofNumber (n : Int) : SymbolType :=
  if n = 0 then .variable else if n = 1 then .constant else .other n

/-- The number of a symbol type. -/
def number : SymbolType → Int
  | .variable => 0
  | .constant => 1
  | .other n => n

/-- The word for a symbol type. -/
def text : SymbolType → String
  | .variable => "variable"
  | .constant => "constant"
  | .other n => "SymbolType(" ++ n.repr ++ ")"

/-- The symbol type that a word names; only the two kinds have one. -/
def parse? (word : String) : Option SymbolType :=
  if word = "variable" then some .variable
  else if word = "constant" then some .constant
  else none

/-- The report on a word that names no symbol type. -/
def unknownMessage (word : String) : String := "unknown symbol type " ++ Text.quoted word

end SymbolType

/-! ## §2 Declarations -/

/-- A global constant or variable. -/
structure SymbolDecl where
  name : String
  type : SymbolType
  index : Int32
  ordinal : Int32
  deriving Repr, DecidableEq

/-- A variable declared for one statement only. -/
structure LocalVarDecl where
  name : String
  index : Int32
  ordinal : Int32
  deriving Repr, DecidableEq

/-- A labelled statement. -/
structure LabelDecl where
  label : String
  index : Int32
  deriving Repr, DecidableEq

/-- A floating hypothesis, which binds a variable to a typecode. -/
structure FloatDecl where
  name : String
  label : String
  typecode : String
  index : Int32
  deriving Repr, DecidableEq

/-- A disjointness constraint that is in force globally. The list of variables may be absent,
which differs from the empty list in what is written and not in what it means. -/
structure DisjointDecl where
  vars : Option (List String)
  index : Int32
  deriving Repr, DecidableEq

/-- The variables that the constraint names, in declared order. -/
def DisjointDecl.names (d : DisjointDecl) : List String := d.vars.getD []

/-- The declarations of one chunk of the database. -/
structure Segment where
  symbols : List SymbolDecl
  localVars : List LocalVarDecl
  labels : List LabelDecl
  floats : List FloatDecl
  disjoints : List DisjointDecl
  deriving Repr, DecidableEq

/-- The segment that declares nothing. -/
def Segment.empty : Segment := ⟨[], [], [], [], []⟩

end NameIndex
