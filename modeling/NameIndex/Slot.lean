/-!
# Slots

A **slot** is an ordered multimap: a list of entries, each an address with a value, that is sorted
whenever an entry arrives. The comparator comes with the insertion and may differ from one
insertion to the next, and it may fail; entries that compare equal keep the order in which they
were inserted.

Sorting is insertion from the left, each entry travelling leftwards past the neighbours that it
precedes. On a comparator that fails, this fixes which failure is reported.

## Main definitions

* `Slot.insert` — append and sort.
* `Slot.remove` — drop every entry of an address, and say how many there were.
* `Slot.top?` — the first entry.
-/

namespace NameIndex

/-! ## §1 Stable insertion under a comparator that may fail -/

namespace Sorting

variable {ε α : Type}

/-- Puts `x` into the reversed sorted list `done`, whose head is the left neighbour of `x`:
`x` passes every entry that it strictly precedes. -/
def place (cmp : α → α → Except ε Int) (x : α) : List α → Except ε (List α)
  | [] => .ok [x]
  | y :: done => do
    let c ← cmp x y
    if c < 0 then return y :: (← place cmp x done)
    else return x :: y :: done

/-- Places the entries one after the other into the reversed sorted list `done`. -/
def placeAll (cmp : α → α → Except ε Int) : List α → List α → Except ε (List α)
  | done, [] => .ok done
  | done, x :: rest => do placeAll cmp (← place cmp x done) rest

/-- The list sorted by the comparator, entries that compare equal in unchanged order. -/
def sort (cmp : α → α → Except ε Int) (xs : List α) : Except ε (List α) :=
  return (← placeAll cmp [] xs).reverse

end Sorting

/-! ## §2 The slot -/

/-- One entry of a slot. -/
structure Entry (A V : Type) where
  /-- Where the value belongs. -/
  address : A
  /-- What is recorded there. -/
  value : V
  deriving Repr, DecidableEq

/-- An ordered multimap from addresses to values. -/
structure Slot (A V : Type) where
  /-- The entries, least address first. -/
  entries : List (Entry A V)
  deriving Repr, DecidableEq

namespace Slot

variable {ε A V : Type}

/-- The slot without entries. -/
def empty : Slot A V := ⟨[]⟩

instance : EmptyCollection (Slot A V) := ⟨empty⟩

instance : Inhabited (Slot A V) := ⟨empty⟩

/-- Adds an entry after the others and sorts the slot by the comparator of addresses. -/
def insert (s : Slot A V) (cmp : A → A → Except ε Int) (address : A) (value : V) :
    Except ε (Slot A V) :=
  return ⟨← Sorting.sort (fun x y => cmp x.address y.address) (s.entries ++ [⟨address, value⟩])⟩

/-- The slot without the entries of one address. -/
def without [DecidableEq A] (s : Slot A V) (address : A) : Slot A V :=
  ⟨s.entries.filter (·.address ≠ address)⟩

/-- The entry of the least address. -/
def top? (s : Slot A V) : Option (Entry A V) := s.entries.head?

/-- The number of entries. -/
def size (s : Slot A V) : Nat := s.entries.length

/-- The slot has no entries. -/
def isEmpty (s : Slot A V) : Bool := s.entries.isEmpty

/-- Drops the entries of one address. The number is what the slot has lost in size. -/
def remove [DecidableEq A] (s : Slot A V) (address : A) : Nat × Slot A V :=
  (s.size - (s.without address).size, s.without address)

end Slot

end NameIndex
