import NameIndex.Index.Edit
import NameIndex.Index.Lookup
import NameIndex.Proofs.Comparison
import NameIndex.Proofs.Interning
import NameIndex.Proofs.Slot

/-!
# The index as a family of slots

An index holds five kinds of slots. A `SlotKey` names one of them, and for each key there are the
type of its addresses, the type of its values, the declarations of a segment that enter it and the
entry that a declaration makes there. Every statement about the content of the index is then one
statement about all keys.

Lookups are read off the slots: each is the first entry of one slot, or of two
(`Index.label?_eq_top?`, `Index.symbol?_eq_top?`, `Index.float?_eq_top?`).

## Main definitions

* `SlotKey`, `Index.slot` — the slots of an index.
* `SlotKey.sources`, `SlotKey.declared` — what a segment puts into a slot.
-/

namespace NameIndex

/-! ## §1 Keys of slots -/

/-- A slot of an index, by what it is for. -/
inductive SlotKey where
  /-- The statements with a label. -/
  | label (label : String)
  /-- The constant and variable declarations of a symbol. -/
  | all (name : String)
  /-- The constant declarations of a symbol. -/
  | constants (name : String)
  /-- The floating hypotheses of a variable. -/
  | floats (name : String)
  /-- The disjointness constraints. -/
  | disjoints
  deriving DecidableEq

namespace SlotKey

/-- How entries of the slot are addressed. -/
abbrev Address : SlotKey → Type
  | .label _ | .floats _ | .disjoints => StatementAddress
  | .all _ | .constants _ => TokenAddress

/-- What entries of the slot record. -/
abbrev Value : SlotKey → Type
  | .label _ | .constants _ => Unit
  | .all _ => SymbolType
  | .floats _ => FloatBinding
  | .disjoints => DisjointGroup

/-- What is declared to make an entry of the slot. -/
abbrev Source : SlotKey → Type
  | .label _ => LabelDecl
  | .all _ | .constants _ => SymbolDecl
  | .floats _ => FloatDecl
  | .disjoints => DisjointDecl

instance (k : SlotKey) : DecidableEq k.Address :=
  match k with
  | .label _ | .floats _ | .disjoints => inferInstanceAs (DecidableEq StatementAddress)
  | .all _ | .constants _ => inferInstanceAs (DecidableEq TokenAddress)

/-- The segment of an address. -/
def segment : (k : SlotKey) → k.Address → SegmentId
  | .label _, a | .floats _, a | .disjoints, a => StatementAddress.segment a
  | .all _, a | .constants _, a => (TokenAddress.statement a).segment

/-- The comparison of addresses that an order of the segments gives. -/
def compare (o : Order) : (k : SlotKey) → k.Address → k.Address → Except Fault Int
  | .label _ | .floats _ | .disjoints => StatementAddress.compare o
  | .all _ | .constants _ => TokenAddress.compare o

/-- The declarations of a segment that enter the slot, in declared order. -/
def sources (s : Segment) : (k : SlotKey) → List k.Source
  | .label l => s.labels.filter (·.label = l)
  | .all n => s.symbols.filter (·.name = n)
  | .constants n => s.symbols.filter fun d => d.name = n ∧ d.type = .constant
  | .floats n => s.floats.filter (·.name = n)
  | .disjoints => s.disjoints

/-- Where a declaration of a segment stands. -/
def address (id : SegmentId) : (k : SlotKey) → k.Source → k.Address
  | .label _, d => ⟨id, LabelDecl.index d⟩
  | .all _, d | .constants _, d => TokenAddress.of id (SymbolDecl.index d) (SymbolDecl.ordinal d)
  | .floats _, d => ⟨id, FloatDecl.index d⟩
  | .disjoints, d => ⟨id, DisjointDecl.index d⟩

/-- What is recorded of a declaration, with the handles of a table. -/
def value (t : AtomTable) : (k : SlotKey) → k.Source → k.Value
  | .label _, _ | .constants _, _ => ()
  | .all _, d => SymbolDecl.type d
  | .floats _, d => ⟨FloatDecl.label d, FloatDecl.typecode d, t.atomOf (FloatDecl.typecode d)⟩
  | .disjoints, d => .ofVars ((DisjointDecl.names d).map t.atomOf)

/-- The entry that a declaration of a segment makes. -/
def entry (k : SlotKey) (t : AtomTable) (id : SegmentId) (d : k.Source) :
    Entry k.Address k.Value :=
  ⟨k.address id d, k.value t d⟩

/-- **What a segment declares for a slot**: one entry for each declaration, in declared order. -/
def declared (k : SlotKey) (t : AtomTable) (id : SegmentId) (s : Segment) :
    List (Entry k.Address k.Value) :=
  (k.sources s).map (k.entry t id)

@[simp] theorem segment_address (k : SlotKey) (id : SegmentId) (d : k.Source) :
    k.segment (k.address id d) = id := by
  cases k <;> rfl

theorem segment_of_mem_declared {k : SlotKey} {t : AtomTable} {id : SegmentId} {s : Segment}
    {e : Entry k.Address k.Value} (h : e ∈ k.declared t id s) : k.segment e.address = id := by
  obtain ⟨d, -, rfl⟩ := List.mem_map.mp h
  exact k.segment_address id d

/-- Whether two addresses can be compared is decided by their segments alone. -/
theorem exists_compare_iff {o : Order} (k : SlotKey) {a b : k.Address} :
    (∃ n, k.compare o a b = .ok n) ↔
      ∃ n, o.compareDistinct (k.segment a) (k.segment b) = .ok n := by
  cases k with
  | label _ | floats _ | disjoints => exact StatementAddress.exists_compare_iff
  | all _ | constants _ => exact TokenAddress.exists_compare_iff

/-- An order that is a total preorder on segments gives one on the addresses in them. -/
theorem totalOn {o : Order} {ids : Set SegmentId} (h : o.TotalOn ids) (k : SlotKey) :
    Sorting.TotalOn (k.compare o) {a | k.segment a ∈ ids} := by
  cases k with
  | label _ | floats _ | disjoints => exact StatementAddress.totalOn h
  | all _ | constants _ => exact TokenAddress.totalOn h

theorem eq_of_ties {o : Order} {ids : Set SegmentId} (h : o.StrictOn ids) (k : SlotKey)
    {a b : k.Address} (ha : k.segment a ∈ ids) (hb : k.segment b ∈ ids)
    (htie : Sorting.ties (k.compare o) a b) : a = b := by
  cases k with
  | label _ | floats _ | disjoints => exact StatementAddress.eq_of_ties h ha hb htie
  | all _ | constants _ => exact TokenAddress.eq_of_ties h ha hb htie

theorem precedes_ties_congr {o o' : Order} {ids : Set SegmentId} (h : o.RanksAlike o' ids)
    (ho : o.TotalOn ids) (ho' : o'.TotalOn ids) (k : SlotKey) {a b : k.Address}
    (ha : k.segment a ∈ ids) (hb : k.segment b ∈ ids) :
    Sorting.precedes (k.compare o) a b = Sorting.precedes (k.compare o') a b ∧
      Sorting.ties (k.compare o) a b = Sorting.ties (k.compare o') a b := by
  cases k with
  | label _ | floats _ | disjoints => exact StatementAddress.precedes_ties_congr h ho ho' ha hb
  | all _ | constants _ => exact TokenAddress.precedes_ties_congr h ho ho' ha hb

end SlotKey

/-! ## §2 The slots of an index -/

namespace Index

/-- The record of a symbol, blank where there is none. -/
def record (ix : Index) (name : String) : SymbolRecord := ix.records[name]?.getD .blank

/-- **The slot with a key**, empty where the index keeps none. -/
def slot (ix : Index) : (k : SlotKey) → Slot k.Address k.Value
  | .label l => ix.labels[l]?.getD ∅
  | .all n => (ix.record n).all
  | .constants n => (ix.record n).constants
  | .floats n => (ix.record n).floats
  | .disjoints => ix.disjoints

/-- Everything that the tracked segments declare for a slot. -/
def declared (ix : Index) (k : SlotKey) : List (Entry k.Address k.Value) :=
  ix.tracked.toList.flatMap fun (id, r) => k.declared ix.atoms id r.content

@[simp] theorem slot_new (order : Order) (k : SlotKey) : (new order).slot k = ∅ := by
  cases k <;> rfl

theorem label?_eq_top? (ix : Index) (l : String) :
    ix.label? l = (ix.slot (.label l)).top?.map fun e => ⟨e.address⟩ := by
  simp only [label?, slot]
  cases h : ix.labels[l]? with
  | none => rfl
  | some s => cases ht : s.top? <;> simp [ht]

theorem symbol?_eq_top? (ix : Index) (n : String) :
    ix.symbol? n = (ix.slot (.all n)).top?.map fun e =>
      ⟨e.value, (ix.record n).atom, e.address,
        (ix.slot (.constants n)).top?.map (·.address)⟩ := by
  simp only [symbol?, slot, record]
  cases h : ix.records[n]? with
  | none => rfl
  | some r => cases ht : r.all.top? <;> simp [ht]

theorem float?_eq_top? (ix : Index) (n : String) :
    ix.float? n = (ix.slot (.floats n)).top?.map fun e =>
      ⟨e.address, e.value.label, e.value.typecode, e.value.typecodeAtom⟩ := by
  simp only [float?, slot, record]
  cases h : ix.records[n]? with
  | none => rfl
  | some r => cases ht : r.floats.top? <;> simp [ht]

end Index

end NameIndex
