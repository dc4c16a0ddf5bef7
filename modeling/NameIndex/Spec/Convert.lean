import NameIndex.Segment.Collection
import NameIndex.Spec.Basic

/-!
# From descriptions to segments and back

A description becomes a segment when every element is present and every symbol type is understood;
the first element that is not so decides the failure, kind by kind in the order symbols, local
variables, labels, floating hypotheses, disjointness constraints. A list of descriptions becomes a
collection when each becomes a segment and no id is used twice.
-/

namespace NameIndex

/-- Why descriptions do not make up a collection. -/
inductive SpecError where
  /-- A symbol type that is neither of the two kinds. -/
  | unknownSymbolType (segment : SegmentId) (symbol word : String)
  /-- An id used by an earlier description. -/
  | repeatedId (segment : SegmentId) (source : String)
  /-- A breach of contract, such as a missing element. -/
  | fault (fault : Fault)
  deriving Repr, DecidableEq

/-- The wording of an error. -/
def SpecError.message : SpecError → String
  | .unknownSymbolType id symbol word =>
    "segment " ++ id.toNat.repr ++ ": symbol " ++ Text.quoted symbol ++ ": "
      ++ SymbolType.unknownMessage word
  | .repeatedId id source => "duplicate segment id " ++ id.toNat.repr ++ " (" ++ source ++ ")"
  | .fault f => f.message

/-! ## §1 One segment -/

/-- An element that must be there. -/
def present {α : Type} : Option α → Except SpecError α
  | some a => .ok a
  | none => .error (.fault .absentElement)

/-- A list like the given one; an absent list has an absent copy, and an empty one an empty copy. -/
def cloned {α : Type} : Option (List α) → Option (List α)
  | none => none
  | some xs => some ([] ++ xs)

/-! ### From the description of a declaration to the declaration -/

/-- Understands the type of a symbol of the segment `id`. -/
def SymbolSpec.toDecl (id : SegmentId) (s : SymbolSpec) : Except SpecError SymbolDecl :=
  match SymbolType.parse? s.type with
  | some type => .ok { name := s.name, type, index := s.index, ordinal := s.ordinal }
  | none => .error (.unknownSymbolType id s.name s.type)

def LocalVarSpec.toDecl (s : LocalVarSpec) : LocalVarDecl where
  name := s.name
  index := s.index
  ordinal := s.ordinal

def LabelSpec.toDecl (s : LabelSpec) : LabelDecl where
  label := s.label
  index := s.index

def FloatSpec.toDecl (s : FloatSpec) : FloatDecl where
  name := s.name
  label := s.label
  typecode := s.typecode
  index := s.index

def DisjointSpec.toDecl (s : DisjointSpec) : DisjointDecl where
  vars := cloned s.vars
  index := s.index

/-! ### From a declaration to its description -/

/-- The type of a symbol is described by its word. -/
def SymbolDecl.toSpec (d : SymbolDecl) : SymbolSpec where
  name := d.name
  type := d.type.text
  index := d.index
  ordinal := d.ordinal

def LocalVarDecl.toSpec (d : LocalVarDecl) : LocalVarSpec where
  name := d.name
  index := d.index
  ordinal := d.ordinal

def LabelDecl.toSpec (d : LabelDecl) : LabelSpec where
  label := d.label
  index := d.index

def FloatDecl.toSpec (d : FloatDecl) : FloatSpec where
  name := d.name
  label := d.label
  typecode := d.typecode
  index := d.index

def DisjointDecl.toSpec (d : DisjointDecl) : DisjointSpec where
  vars := cloned d.vars
  index := d.index

/-! ### The lists of a segment -/

namespace SegmentSpec

/-- The segment that is described. -/
def toSegment (s : SegmentSpec) : Except SpecError Segment := do
  let symbols ← s.symbols.mapM fun d => do (← present d).toDecl s.id
  let localVars ← s.localVars.mapM fun d => return (← present d).toDecl
  let labels ← s.labels.mapM fun d => return (← present d).toDecl
  let floats ← s.floats.mapM fun d => return (← present d).toDecl
  let disjoints ← s.disjoints.mapM fun d => return (← present d).toDecl
  return { symbols, localVars, labels, floats, disjoints }

/-- The description of a segment. -/
def ofSegment (id : SegmentId) (s : Segment) : SegmentSpec where
  id := id
  source := ""
  symbols := s.symbols.map fun d => some d.toSpec
  localVars := s.localVars.map fun d => some d.toSpec
  labels := s.labels.map fun d => some d.toSpec
  floats := s.floats.map fun d => some d.toSpec
  disjoints := s.disjoints.map fun d => some d.toSpec

end SegmentSpec

/-! ## §2 A collection -/

namespace Collection

/-- Reads descriptions from left to right, after those that gave `ids` and `c`. The stamp of a
revision is the place of its description. -/
def addSpecs (ids : List SegmentId) (c : Collection) :
    List (Option SegmentSpec) → Except SpecError (List SegmentId × Collection)
  | [] => .ok (ids, c)
  | spec :: rest => do
    let spec ← present spec
    if c.segments.contains spec.id then
      throw (.repeatedId spec.id spec.source)
    let segment ← spec.toSegment
    addSpecs (ids ++ [spec.id]) (c.put spec.id ⟨ids.length, segment⟩) rest

/-- The collection that the descriptions make up, ordered as they are listed. -/
def ofSpecs (specs : List (Option SegmentSpec)) : Except SpecError Collection := do
  let (ids, c) ← addSpecs [] (.empty .empty) specs
  match ListOrder.ofList ids with
  | .ok order => return { c with order := .listed order }
  | .error f => throw (.fault f)

end Collection

end NameIndex
