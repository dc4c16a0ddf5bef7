import NameIndex.Index.Edit

/-!
# Bringing the index into step with a collection

An update compares the tracked segments with those of a collection, revision by revision. Segments
that are gone or replaced are removed; segments that are new are added in the order of the
document, so that handles are given out in that order. Slots that no changed segment touches keep
the arrangement they have, whatever the adopted order says about them.

Neither map has an order of its own, so the plan of an update takes the two listings of ids as
arguments; `Index.plan` supplies ascending ones.

## Main definitions

* `Index.planFrom`, `Index.plan` — what an update removes and adds.
* `Index.carryOutReporting` — the removals and additions, with the events that they report.
* `Index.update` — the update.
* `Change`, `Index.apply`, `Index.run` — changes as data, with the events they report.
-/

namespace NameIndex

/-! ## §1 The plan of an update -/

/-- What an update does. -/
structure UpdatePlan where
  /-- The segments to remove. -/
  stale : List SegmentId
  /-- The segments to add, in the order of the document. -/
  fresh : List (SegmentId × Revision)
  deriving Repr, DecidableEq

namespace Index

/-- The collection holds the tracked revision of the segment unchanged. -/
def isCurrent (ix : Index) (c : Collection) (id : SegmentId) : Bool :=
  ix.tracked[id]? == c.segments[id]?

/-- The plan for a collection, from a listing of the tracked ids and one of the collection's
ids. One new segment alone is never compared. -/
def planFrom (ix : Index) (c : Collection) (trackedIds collectionIds : List SegmentId) :
    Except Fault UpdatePlan := do
  let stale := trackedIds.filter fun id => !ix.isCurrent c id
  let fresh ← Sorting.sort c.order.compare (collectionIds.filter fun id => !ix.isCurrent c id)
  return ⟨stale, fresh.filterMap fun id => c.segments[id]?.map (id, ·)⟩

/-- The plan for a collection. -/
def plan (ix : Index) (c : Collection) : Except Fault UpdatePlan :=
  ix.planFrom c ix.tracked.keys c.segments.keys

/-! ## §2 The update -/

/-- Stops tracking segments one after the other, with the reports. -/
def removeAllReporting (ix : Index) : List SegmentId → Index × List Event
  | [] => (ix, [])
  | id :: rest =>
    let (ix, events) := ix.removeReporting id
    let (ix, later) := ix.removeAllReporting rest
    (ix, events ++ later)

/-- Tracks segments one after the other, with the reports. -/
def addAllReporting (ix : Index) : List (SegmentId × Revision) → Except Fault (Index × List Event)
  | [] => return (ix, [])
  | (id, r) :: rest => do
    let (ix, events) ← ix.addReporting id r
    let (ix, later) ← ix.addAllReporting rest
    return (ix, events ++ later)

/-- Adopts an order and carries out a plan: removals first, then additions. The report ends with the
numbers of both and of the segments. -/
def carryOutReporting (ix : Index) (order : Order) (p : UpdatePlan) :
    Except Fault (Index × List Event) := do
  let (ix, gone) := { ix with order }.removeAllReporting p.stale
  let (ix, new) ← ix.addAllReporting p.fresh
  return (ix, gone ++ new ++ [.updated p.stale.length p.fresh.length ix.tracked.size])

/-- The index that carrying out a plan leaves. -/
def carryOut (ix : Index) (order : Order) (p : UpdatePlan) : Except Fault Index :=
  Prod.fst <$> ix.carryOutReporting order p

/-- Brings the index into step with a collection. -/
def update (ix : Index) (c : Collection) : Except Fault Index := do
  ix.carryOut c.order (← ix.plan c)

end Index

/-! ## §3 Changes as data -/

/-- A change of the index. -/
inductive Change where
  /-- Into step with a collection. -/
  | update (collection : Collection)
  /-- One more segment. -/
  | add (id : SegmentId) (revision : Revision)
  /-- One segment less. -/
  | remove (id : SegmentId)

namespace Index

/-- Makes a change and reports it. Changes that do nothing report nothing. -/
def apply (ix : Index) : Change → Except Fault (Index × List Event)
  | .update c => do ix.carryOutReporting c.order (← ix.plan c)
  | .add id r => ix.addReporting id r
  | .remove id => return ix.removeReporting id

/-- Makes the changes one after the other, with all their reports. -/
def run (ix : Index) : List Change → Except Fault (Index × List Event)
  | [] => return (ix, [])
  | change :: rest => do
    let (ix, events) ← ix.apply change
    let (ix, later) ← ix.run rest
    return (ix, events ++ later)

end Index

end NameIndex
