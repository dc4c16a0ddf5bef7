import NameIndex.Segment.Order

/-!
# Addresses

A statement is addressed by its segment and its index there; a token by its statement and its
ordinal. Addresses are ordered by the position of the segment, then by the index, then by the
ordinal. Inside one segment the order of the segments is never consulted.
-/

namespace NameIndex

/-- The address of a statement. -/
structure StatementAddress where
  segment : SegmentId
  index : Int32
  deriving Repr, DecidableEq

/-- The address of one token of a statement. -/
structure TokenAddress where
  statement : StatementAddress
  ordinal : Int32
  deriving Repr, DecidableEq

/-- The sign of the comparison of two words. -/
def signOfCompare (a b : Int32) : Int :=
  if a < b then -1 else if a = b then 0 else 1

namespace StatementAddress

/-- `segment:index`. -/
def text (a : StatementAddress) : String :=
  a.segment.toNat.repr ++ ":" ++ a.index.toInt.repr

/-- By segment, then by index. Where the segments decide, the result is the order's own number. -/
def compare (order : Order) (a b : StatementAddress) : Except Fault Int := do
  let c ← if a.segment = b.segment then .ok 0 else order.compare a.segment b.segment
  return if c = 0 then signOfCompare a.index b.index else c

end StatementAddress

namespace TokenAddress

/-- The address of a token in a segment. -/
def of (segment : SegmentId) (index ordinal : Int32) : TokenAddress := ⟨⟨segment, index⟩, ordinal⟩

/-- `segment:index.ordinal`. -/
def text (a : TokenAddress) : String := a.statement.text ++ "." ++ a.ordinal.toInt.repr

/-- By statement, then by ordinal. -/
def compare (order : Order) (a b : TokenAddress) : Except Fault Int := do
  let c ← StatementAddress.compare order a.statement b.statement
  return if c = 0 then signOfCompare a.ordinal b.ordinal else c

end TokenAddress

end NameIndex
