import NameIndex.Atom.Set
import NameIndex.Segment.Address
import NameIndex.Segment.Collection
import NameIndex.Slot

/-!
# The name index

The index records, for every label and every math symbol, the declarations that the tracked
segments hold at present, topmost first. Each kind of declaration has its slot: one for each
label, three for each symbol (all declarations, the constant ones, the floating hypotheses), and
one for the disjointness constraints of the whole database.

Labels without declarations have no slot; a symbol keeps its record, and with it its handle, when
its last declaration goes.

## Main definitions

* `Index` — the state.
* `Index.new` — the index without segments.
-/

namespace NameIndex

/-! ## §1 What slots hold -/

/-- What a floating hypothesis records about its variable. -/
structure FloatBinding where
  label : String
  typecode : String
  typecodeAtom : Atom
  deriving Repr, DecidableEq

/-- The variables of one disjointness constraint, kept twice. -/
structure DisjointGroup where
  /-- The handles in declared order. -/
  vars : List Atom
  /-- The handles as a set, which is what questions about disjointness look at. -/
  members : AtomSet
  deriving Repr, DecidableEq

/-- The constraint on the listed handles. -/
def DisjointGroup.ofVars (vars : List Atom) : DisjointGroup := ⟨vars, AtomSet.ofList vars⟩

/-- The global declarations of one math symbol. -/
structure SymbolRecord where
  /-- The handle of the symbol. -/
  atom : Atom
  /-- Every constant or variable declaration. -/
  all : Slot TokenAddress SymbolType
  /-- The constant declarations. -/
  constants : Slot TokenAddress Unit
  /-- The floating hypotheses. -/
  floats : Slot StatementAddress FloatBinding
  deriving Repr, DecidableEq

namespace SymbolRecord

/-- The record of a symbol that nothing is known about. -/
def blank : SymbolRecord := ⟨Atom.none, ∅, ∅, ∅⟩

/-- The record carries no information at all. -/
def isBlank (r : SymbolRecord) : Bool :=
  r.atom == Atom.none && r.all.isEmpty && r.constants.isEmpty && r.floats.isEmpty

end SymbolRecord

/-! ## §2 The state -/

/-- The lookup tables of a database that is split into segments. -/
structure Index where
  /-- The order adopted last. -/
  order : Order
  /-- The interned names. -/
  atoms : AtomTable
  /-- The segments that the tables reflect. -/
  tracked : Std.ExtTreeMap SegmentId Revision
  /-- The labelled statements by label. -/
  labels : Std.ExtTreeMap String (Slot StatementAddress Unit)
  /-- The symbol records by name. -/
  records : Std.ExtTreeMap String SymbolRecord
  /-- The disjointness constraints. -/
  disjoints : Slot StatementAddress DisjointGroup

namespace Index

/-- The index that tracks no segment. -/
def new (order : Order) : Index := ⟨order, ∅, ∅, ∅, ∅, ∅⟩

/-- The tables reflect the segment. -/
def contains (ix : Index) (id : SegmentId) : Bool := ix.tracked.contains id

/-- The number of segments, labels, symbol records, disjointness constraints and names. -/
structure Stats where
  segments : Nat
  labels : Nat
  symbols : Nat
  disjoints : Nat
  atoms : Nat
  deriving Repr, DecidableEq

/-- The present size of the index. -/
def stats (ix : Index) : Stats :=
  ⟨ix.tracked.size, ix.labels.size, ix.records.size, ix.disjoints.size, ix.atoms.size⟩

end Index

end NameIndex
