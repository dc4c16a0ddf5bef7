import Std.Data.ExtTreeMap
import NameIndex.Segment.Order

/-!
# Collections of segments

A collection holds segments under their ids, together with the order that arranges them. Segments
in a collection are **revisions**: a segment with the stamp of its making, so that two segments
with the same declarations made at different times stay different, and an index can tell a
replaced segment from an untouched one.
-/

namespace NameIndex

/-- One version of a segment. -/
structure Revision where
  /-- When it was made: different for every revision. -/
  stamp : Nat
  /-- What it declares. -/
  content : Segment
  deriving Repr, DecidableEq

/-- A snapshot of all segments and their order. -/
structure Collection where
  /-- The order of the document. -/
  order : Order
  /-- The segments by id. -/
  segments : Std.ExtTreeMap SegmentId Revision

namespace Collection

/-- The collection without segments. -/
def empty (order : Order) : Collection := ⟨order, ∅⟩

/-- Adds a segment, or replaces the one under its id. -/
def put (c : Collection) (id : SegmentId) (r : Revision) : Collection :=
  { c with segments := c.segments.insert id r }

/-- The collection without a segment, in unchanged order. -/
def without (c : Collection) (id : SegmentId) : Collection :=
  { c with segments := c.segments.erase id }

/-- The number of segments. -/
def size (c : Collection) : Nat := c.segments.size

/-- Takes a segment out of the collection and out of its order; only a listed order can tell that
it holds the segment. -/
def drop? (c : Collection) (id : SegmentId) : Option Collection :=
  match c.order with
  | .listed list =>
    if list.contains id then some { c.without id with order := .listed (list.remove id) } else none
  | .compared .. => none

end Collection

end NameIndex
