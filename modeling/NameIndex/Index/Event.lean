import NameIndex.Segment.Basic

/-!
# Events

What the maintenance of the index reports: a segment added with the number of its declarations, a
segment removed, an update done. An event has a message and numbered fields, and every log format
is a way to write these down.

An update removes segments in no particular order, so a log lists adjacent removals in the order
of the text of their ids.
-/

namespace NameIndex

/-- A report of index maintenance. -/
inductive Event where
  /-- A segment is tracked; its declarations are counted by kind. -/
  | added (id : SegmentId) (symbols labels floats disjoints : Nat)
  /-- A segment is no longer tracked. -/
  | removed (id : SegmentId)
  /-- An update is done: segments removed, segments added, segments tracked. -/
  | updated (removed added segments : Nat)
  deriving Repr, DecidableEq

namespace Event

/-- The report that a segment is tracked. -/
def ofSegment (id : SegmentId) (s : Segment) : Event :=
  .added id s.symbols.length s.labels.length s.floats.length s.disjoints.length

/-- The message of an event. -/
def message : Event → String
  | .added .. => "segment added"
  | .removed .. => "segment removed"
  | .updated .. => "nameset updated"

/-- The fields of an event in the order they are recorded. -/
def fields : Event → List (String × Nat)
  | .added id symbols labels floats disjoints =>
    [("segment", id.toNat), ("symbols", symbols), ("labels", labels), ("floats", floats),
      ("dvs", disjoints)]
  | .removed id => [("segment", id.toNat)]
  | .updated gone new all => [("removed", gone), ("added", new), ("segments", all)]

/-- The event as an object on one line. -/
def line (e : Event) : String :=
  "\x7b\"level\":\"debug\","
    ++ String.join (e.fields.map fun (name, n) => "\"" ++ name ++ "\":" ++ n.repr ++ ",")
    ++ "\"message\":\"" ++ e.message ++ "\"\x7d"

/-! ## Adjacent removals -/

/-- The text by which adjacent removals are arranged; other events have none. -/
def removalText? : Event → Option String
  | .removed id => some id.toNat.repr
  | _ => none

/-- Puts a removal before the removals at the head of a log whose text is not smaller. -/
def insertRemoval (e : Event) (text : String) : List Event → List Event
  | [] => [e]
  | next :: rest =>
    match next.removalText? with
    | some other => if other < text then next :: insertRemoval e text rest else e :: next :: rest
    | none => e :: next :: rest

/-- The log with every run of adjacent removals in the order of the text of the ids. -/
def arranged : List Event → List Event
  | [] => []
  | e :: rest =>
    match e.removalText? with
    | some text => insertRemoval e text (arranged rest)
    | none => e :: arranged rest

end Event

end NameIndex
