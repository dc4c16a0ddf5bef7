import Std.Data.ExtTreeMap
import NameIndex.Fault

/-!
# Atoms

An **atom** is a 32-bit handle of an interned name. Handles count from one in the order in which
names are first interned; zero names nothing.

A table is stored twice: a map leads from names to handles, and a list leads back. The list starts
with a placeholder, the empty text, so that a handle is a place in it; the empty text is a name like
any other and may stand there a second time. Nothing in the two structures says that they belong
together: that is what `AtomTable.Store.Sound` says, which holds of the fresh store and is kept by
interning. A table is a store that is sound. Handles wrap at 2^32, which only a table of that many
names can show.

## Main definitions

* `AtomTable.Store` — the map and the list.
* `AtomTable.Store.Sound` — the two say the same.
* `AtomTable.intern` — the handle of a name, assigned if the name is new.
* `AtomTable.lookup?`, `AtomTable.name` — the two directions.
-/

namespace NameIndex

/-- The handle of an interned name. -/
abbrev Atom : Type := UInt32

namespace Atom

/-- The handle that no name has. -/
def none : Atom := 0

/-- A handle as reports show it. -/
def text (a : Atom) : String := "#" ++ a.toNat.repr

end Atom

namespace AtomTable

/-! ## §1 The store -/

/-- The two directions of a table. -/
structure Store where
  /-- From names to handles. -/
  ids : Std.ExtTreeMap String Atom
  /-- From handles to names: the placeholder, then the names of the handles 1, 2, 3, … -/
  reverse : List String

namespace Store

/-- The store without names. -/
def empty : Store := ⟨∅, [""]⟩

instance : EmptyCollection Store := ⟨empty⟩

/-- The number of interned names. -/
def size (t : Store) : Nat := t.reverse.length - 1

/-- The handle of a name that has been interned. -/
def lookup? (t : Store) (name : String) : Option Atom := t.ids[name]?

/-- The handle of the name, and the store that knows it: a new name takes the next handle. -/
def intern (t : Store) (name : String) : Atom × Store :=
  match t.lookup? name with
  | some a => (a, t)
  | none =>
    let a : Atom := UInt32.ofNat t.reverse.length
    (a, ⟨t.ids.insert name a, t.reverse ++ [name]⟩)

/-- The name of a handle of this store; zero and the handles behind the last have none. -/
def name? (t : Store) (a : Atom) : Option String :=
  if a = Atom.none ∨ t.reverse.length ≤ a.toNat then none else t.reverse[a.toNat]?

/-- The name of a handle; handles of other tables are a fault. -/
def name (t : Store) (a : Atom) : Except Fault String :=
  match t.name? a with
  | some s => .ok s
  | none => .error (.atomOutOfBounds a t.size)

/-! ## §2 The two directions belong together -/

/-- The interned names, in the order of their handles. -/
def names (t : Store) : List String := t.reverse.tail

end Store

/-- The handle of the name at a place of the list. -/
def handle (place : Nat) : Atom := UInt32.ofNat (place + 1)

namespace Store

/-- **The two directions say the same**: the list starts with the placeholder and has no name twice
after it, and the map leads from each name to the handle of its place. -/
structure Sound (t : Store) : Prop where
  placeholder : t.reverse = "" :: t.names
  distinct : t.names.Nodup
  found : ∀ name, t.ids[name]? = (t.names.idxOf? name).map handle

theorem Sound.empty : Store.empty.Sound where
  placeholder := rfl
  distinct := List.nodup_nil
  found _ := Std.ExtTreeMap.getElem?_empty

theorem Sound.length_reverse {t : Store} (h : t.Sound) :
    t.reverse.length = t.names.length + 1 := by
  rw [h.placeholder]
  rfl

/-- **Interning keeps the two directions together.** -/
theorem Sound.intern {t : Store} (h : t.Sound) (name : String) : (t.intern name).2.Sound := by
  unfold Store.intern
  split
  · exact h
  · next hnew =>
    -- a name without a handle is not in the list
    have hnone : t.names.idxOf? name = none := by
      rw [lookup?, h.found name] at hnew
      exact Option.map_eq_none_iff.mp hnew
    have hfresh : name ∉ t.names := List.idxOf?_eq_none_iff.mp hnone
    have hnames : (t.reverse ++ [name]).tail = t.names ++ [name] := by
      rw [h.placeholder]
      rfl
    refine ⟨?placeholder, ?distinct, ?found⟩
    case placeholder =>
      show t.reverse ++ [name] = "" :: (t.reverse ++ [name]).tail
      rw [hnames, ← List.cons_append, ← h.placeholder]
    case distinct =>
      show (t.reverse ++ [name]).tail.Nodup
      rw [hnames]
      refine List.nodup_append.mpr ⟨h.distinct, by simp, fun a ha b hb hab => hfresh ?_⟩
      rwa [← List.mem_singleton.mp hb, ← hab]
    case found =>
      intro other
      show (t.ids.insert name _)[other]? = ((t.reverse ++ [name]).tail.idxOf? other).map handle
      rw [hnames, Std.ExtTreeMap.getElem?_insert, h.found other]
      unfold List.idxOf?
      rw [List.findIdx?_append, List.findIdx?_singleton]
      by_cases hother : name = other
      · -- the new name stands at the end, behind all names it is not
        obtain rfl := hother
        have hnone : t.names.findIdx? (· == name) = none := hnone
        rw [hnone]
        simp [handle, h.length_reverse]
      · simp [hother]

end Store

end AtomTable

/-! ## §3 Tables -/

/-- The interned names: a store whose two directions say the same. -/
structure AtomTable where
  /-- The map and the list. -/
  store : AtomTable.Store
  /-- They belong together. -/
  sound : store.Sound

namespace AtomTable

/-- The table without names. -/
def empty : AtomTable := ⟨.empty, .empty⟩

instance : EmptyCollection AtomTable := ⟨empty⟩

/-- The names of the handles 1, 2, 3, … -/
def names (t : AtomTable) : List String := t.store.names

/-- The number of interned names. -/
def size (t : AtomTable) : Nat := t.store.size

/-- The handle of a name that has been interned. -/
def lookup? (t : AtomTable) (name : String) : Option Atom := t.store.lookup? name

/-- The handle of the name, and the table that knows it. -/
def intern (t : AtomTable) (name : String) : Atom × AtomTable :=
  ((t.store.intern name).1, ⟨(t.store.intern name).2, t.sound.intern name⟩)

/-- Interns the names from left to right. -/
def internAll (t : AtomTable) : List String → List Atom × AtomTable
  | [] => ([], t)
  | name :: rest =>
    let (a, t) := t.intern name
    let (as, t) := t.internAll rest
    (a :: as, t)

/-- The name of a handle; handles of other tables are a fault. -/
def name (t : AtomTable) (a : Atom) : Except Fault String := t.store.name a

end AtomTable

end NameIndex
