import NameIndex.Atom.Table

/-!
# Sets of atoms

A finite set of handles, kept as a strictly ascending list so that equal sets are equal values and
listing is the identity.
-/

namespace NameIndex

/-- A set of handles: its members in strictly ascending order. -/
structure AtomSet where
  /-- The members. -/
  members : List Atom
  deriving Repr, DecidableEq

namespace AtomSet

/-- The set without members. -/
def empty : AtomSet := ⟨[]⟩

instance : EmptyCollection AtomSet := ⟨empty⟩

/-- Puts a handle into an ascending list, at its place and at most once. -/
def insertInto (a : Atom) : List Atom → List Atom
  | [] => [a]
  | b :: rest =>
    if a < b then a :: b :: rest
    else if a = b then b :: rest
    else b :: insertInto a rest

/-- The set with one more member. -/
def insert (s : AtomSet) (a : Atom) : AtomSet := ⟨insertInto a s.members⟩

/-- The set of the listed handles. -/
def ofList (as : List Atom) : AtomSet := as.foldl insert empty

/-- The members in ascending order. -/
def toList (s : AtomSet) : List Atom := s.members

/-- Membership. -/
def contains (s : AtomSet) (a : Atom) : Bool := s.members.contains a

/-- The members of either set. -/
def union (s t : AtomSet) : AtomSet := t.members.foldl insert s

/-- The set without one member. -/
def erase (s : AtomSet) (a : Atom) : AtomSet := ⟨s.members.filter (· ≠ a)⟩

end AtomSet

end NameIndex
