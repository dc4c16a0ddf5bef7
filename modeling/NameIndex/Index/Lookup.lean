import NameIndex.Index.Basic

/-!
# Lookups

What the index answers. A label, a symbol or the variable of a floating hypothesis is resolved to
its topmost declaration; disjointness constraints are all in force at once. Lookups never change
the index.
-/

namespace NameIndex

/-! ## §1 Answers -/

/-- The topmost statement with a label. -/
structure LabelAnswer where
  address : StatementAddress
  deriving Repr, DecidableEq

/-- The topmost declaration of a math symbol, and the topmost constant one, which lies further
down when a variable declaration comes first. -/
structure SymbolAnswer where
  type : SymbolType
  atom : Atom
  address : TokenAddress
  constant : Option TokenAddress
  deriving Repr, DecidableEq

/-- The topmost floating hypothesis of a variable. -/
structure FloatAnswer where
  address : StatementAddress
  label : String
  typecode : String
  typecodeAtom : Atom
  deriving Repr, DecidableEq

/-- One disjointness constraint, its variables in declared order. -/
structure DisjointAnswer where
  address : StatementAddress
  vars : List Atom
  deriving Repr, DecidableEq

namespace Index

/-! ## §2 Declarations -/

/-- The topmost statement that carries the label. -/
def label? (ix : Index) (label : String) : Option LabelAnswer := do
  let top ← (← ix.labels[label]?).top?
  return ⟨top.address⟩

/-- The topmost constant or variable declaration of the symbol. -/
def symbol? (ix : Index) (name : String) : Option SymbolAnswer := do
  let record ← ix.records[name]?
  let top ← record.all.top?
  return ⟨top.value, record.atom, top.address, record.constants.top?.map (·.address)⟩

/-- The topmost floating hypothesis of the variable. -/
def float? (ix : Index) (name : String) : Option FloatAnswer := do
  let top ← (← ix.records[name]?).floats.top?
  return ⟨top.address, top.value.label, top.value.typecode, top.value.typecodeAtom⟩

/-! ## §3 Disjointness -/

/-- Every disjointness constraint in document order. -/
def disjointList (ix : Index) : List DisjointAnswer :=
  ix.disjoints.entries.map fun e => ⟨e.address, e.value.vars⟩

/-- Some constraint names both variables. A variable is never disjoint from itself. -/
def isDisjoint (ix : Index) (a b : Atom) : Bool :=
  a != b && ix.disjoints.entries.any fun e =>
    e.value.members.contains a && e.value.members.contains b

/-- Every variable that some constraint names beside `a`, by handle. -/
def disjointFrom (ix : Index) (a : Atom) : List Atom :=
  let groups := ix.disjoints.entries.filter fun e => e.value.members.contains a
  let union := groups.foldl (fun s e => s.union e.value.members) AtomSet.empty
  (union.erase a).toList

/-! ## §4 Handles -/

/-- The handle of an interned name. -/
def atom? (ix : Index) (name : String) : Option Atom := ix.atoms.lookup? name

/-- The handle of a name that must be interned. -/
def requireAtom (ix : Index) (name : String) : Except Fault Atom :=
  match ix.atom? name with
  | some a => .ok a
  | none => .error (.notInterned name)

/-- The name of a handle of this index. -/
def atomName (ix : Index) (a : Atom) : Except Fault String := ix.atoms.name a

end Index

end NameIndex
