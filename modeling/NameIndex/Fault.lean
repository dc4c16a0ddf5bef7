import NameIndex.Text.Quoted

/-!
# Faults

A **fault** is the breach of a contract by the caller: a handle that no table handed out, an order
that does not know a segment, a list element that is missing where an object is needed. Faults
end the operation that meets them; ordinary errors have types of their own beside the operations
that report them.
-/

namespace NameIndex

/-- The breach of a contract. -/
inductive Fault where
  /-- A handle that the table of that many names did not produce. -/
  | atomOutOfBounds (atom : UInt32) (names : Nat)
  /-- An order that lists a segment twice. -/
  | repeatedInOrder (segment : UInt32)
  /-- A segment that the order does not list. -/
  | notInOrder (segment : UInt32)
  /-- A name that was promised to be interned. -/
  | notInterned (name : String)
  /-- An absent element where an object is needed. -/
  | absentElement
  deriving Repr, DecidableEq

namespace Fault

/-- The wording of a fault. -/
def message : Fault → String
  | .atomOutOfBounds atom names =>
    "atom out of bounds: " ++ atom.toNat.repr ++ " (table has " ++ names.repr ++ " names)"
  | .repeatedInOrder id => "duplicate segment id in order: " ++ id.toNat.repr
  | .notInOrder id => "segment " ++ id.toNat.repr ++ " is not in the order"
  | .notInterned name =>
    "only use MustAtom for names registered by a segment: name not interned: "
      ++ Text.quoted name
  | .absentElement => "runtime error: invalid memory address or nil pointer dereference"

end Fault

end NameIndex
