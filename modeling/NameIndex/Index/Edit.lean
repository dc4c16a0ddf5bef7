import NameIndex.Index.Basic
import NameIndex.Index.Event

/-!
# Adding and removing one segment

A segment enters the index declaration by declaration: symbols, local variables, labels, floating
hypotheses, disjointness constraints. Names are interned as they are met, so handles follow the
same sequence; local variables are resolved inside their own statement and take a handle only.

A segment leaves by address: every entry that one of its declarations could have made is dropped
from the slot of that declaration. Interned names stay.

Either change reports what it has done, and nothing if it does nothing.

## Main definitions

* `Index.enter`, `Index.withdraw` — the declarations of one segment.
* `Index.addReporting`, `Index.removeReporting` — one segment, with the events of the change.
* `Index.add`, `Index.remove` — the index that the change leaves.
-/

namespace NameIndex.Index

/-! ## §1 Records -/

/-- The record of a symbol with its handle, interning the name of a record that has none yet. -/
def openRecord (ix : Index) (name : String) : SymbolRecord × Index :=
  let record := ix.records[name]?.getD .blank
  if record.atom = Atom.none then
    let (a, atoms) := ix.atoms.intern name
    ({ record with atom := a }, { ix with atoms })
  else (record, ix)

/-- Stores the record of a symbol. -/
def putRecord (ix : Index) (name : String) (record : SymbolRecord) : Index :=
  { ix with records := ix.records.insert name record }

/-- Changes the record of a known symbol, and drops it once it is blank. -/
def changeRecord (ix : Index) (name : String) (change : SymbolRecord → SymbolRecord) : Index :=
  { ix with
    records := ix.records.alter name fun record? => do
      let record := change (← record?)
      if record.isBlank then none else some record }

/-! ## §2 Entering declarations -/

/-- Records a constant or variable declaration. -/
def addSymbol (id : SegmentId) (ix : Index) (d : SymbolDecl) : Except Fault Index := do
  let (record, ix) := ix.openRecord d.name
  let address := TokenAddress.of id d.index d.ordinal
  let compare := TokenAddress.compare ix.order
  let all ← record.all.insert compare address d.type
  let constants ←
    if d.type = .constant then record.constants.insert compare address ()
    else pure record.constants
  return ix.putRecord d.name { record with all, constants }

/-- Interns a local variable. -/
def addLocalVar (ix : Index) (d : LocalVarDecl) : Index :=
  { ix with atoms := (ix.atoms.intern d.name).2 }

/-- Records a labelled statement. -/
def addLabel (id : SegmentId) (ix : Index) (d : LabelDecl) : Except Fault Index := do
  let slot := ix.labels[d.label]?.getD ∅
  let slot ← slot.insert (StatementAddress.compare ix.order) ⟨id, d.index⟩ ()
  return { ix with labels := ix.labels.insert d.label slot }

/-- Records a floating hypothesis; its variable is interned before its typecode. -/
def addFloat (id : SegmentId) (ix : Index) (d : FloatDecl) : Except Fault Index := do
  let (record, ix) := ix.openRecord d.name
  let (typecodeAtom, atoms) := ix.atoms.intern d.typecode
  let floats ← record.floats.insert (StatementAddress.compare ix.order) ⟨id, d.index⟩
    ⟨d.label, d.typecode, typecodeAtom⟩
  return { ix with atoms }.putRecord d.name { record with floats }

/-- Records a disjointness constraint. -/
def addDisjoint (id : SegmentId) (ix : Index) (d : DisjointDecl) : Except Fault Index := do
  let (vars, atoms) := ix.atoms.internAll d.names
  let disjoints ←
    ix.disjoints.insert (StatementAddress.compare ix.order) ⟨id, d.index⟩ (.ofVars vars)
  return { ix with atoms, disjoints }

/-- Records every declaration of a segment. -/
def enter (ix : Index) (id : SegmentId) (s : Segment) : Except Fault Index := do
  let ix ← s.symbols.foldlM (addSymbol id) ix
  let ix := s.localVars.foldl addLocalVar ix
  let ix ← s.labels.foldlM (addLabel id) ix
  let ix ← s.floats.foldlM (addFloat id) ix
  s.disjoints.foldlM (addDisjoint id) ix

/-- Tracks a segment under an id, with a report. An id that is tracked already keeps its segment. -/
def addReporting (ix : Index) (id : SegmentId) (r : Revision) :
    Except Fault (Index × List Event) := do
  if ix.contains id then return (ix, [])
  let after ← { ix with tracked := ix.tracked.insert id r }.enter id r.content
  return (after, [.ofSegment id r.content])

/-- The index that tracks a segment under an id. -/
def add (ix : Index) (id : SegmentId) (r : Revision) : Except Fault Index :=
  Prod.fst <$> ix.addReporting id r

/-! ## §3 Withdrawing declarations -/

/-- Drops the entries of a constant or variable declaration. -/
def removeSymbol (id : SegmentId) (ix : Index) (d : SymbolDecl) : Index :=
  let address := TokenAddress.of id d.index d.ordinal
  ix.changeRecord d.name fun record =>
    { record with
      all := (record.all.remove address).2
      constants := (record.constants.remove address).2 }

/-- Drops the entries of a labelled statement, and the slot of a label that has none left. -/
def removeLabel (id : SegmentId) (ix : Index) (d : LabelDecl) : Index :=
  { ix with
    labels := ix.labels.alter d.label fun slot? => do
      let slot := ((← slot?).remove ⟨id, d.index⟩).2
      if slot.isEmpty then none else some slot }

/-- Drops the entries of a floating hypothesis. -/
def removeFloat (id : SegmentId) (ix : Index) (d : FloatDecl) : Index :=
  ix.changeRecord d.name fun record =>
    { record with floats := (record.floats.remove ⟨id, d.index⟩).2 }

/-- Drops the entries of a disjointness constraint. -/
def removeDisjoint (id : SegmentId) (ix : Index) (d : DisjointDecl) : Index :=
  { ix with disjoints := (ix.disjoints.remove ⟨id, d.index⟩).2 }

/-- Drops the entries of every declaration of a segment. -/
def withdraw (ix : Index) (id : SegmentId) (s : Segment) : Index :=
  let ix := s.symbols.foldl (removeSymbol id) ix
  let ix := s.labels.foldl (removeLabel id) ix
  let ix := s.floats.foldl (removeFloat id) ix
  s.disjoints.foldl (removeDisjoint id) ix

/-- Stops tracking a segment, with a report; an id that is not tracked changes nothing. -/
def removeReporting (ix : Index) (id : SegmentId) : Index × List Event :=
  match ix.tracked[id]? with
  | none => (ix, [])
  | some r => ({ ix with tracked := ix.tracked.erase id }.withdraw id r.content, [.removed id])

/-- The index that does not track a segment. -/
def remove (ix : Index) (id : SegmentId) : Index := (ix.removeReporting id).1

end NameIndex.Index
