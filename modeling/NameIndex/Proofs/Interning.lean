import Mathlib.Data.List.Nodup
import Mathlib.Data.List.Perm.Subperm
import NameIndex.Atom.Set

/-!
# Interned names

The map of a table and its list say the same, so either can be read off the list of names alone
(`AtomTable.lookup?_eq`, `AtomTable.name?_eq`), and tables with the same list of names are the same
(`AtomTable.eq_of_names_eq`).

A table only grows, and it grows at its end: every table that comes from another by interning has
the older list of names as a prefix. So a handle given out once is the handle of its name for good
(`AtomTable.lookup?_mono`), and what interning a list of names returns can be read off the
table it leaves behind (`AtomTable.internAll_fst`).

Handles are words. As long as the table is no larger than the words reach, different names have
different handles and a handle leads back to its name (`AtomTable.name_atomOf`). A set of handles
has the members of the list that it is made from (`AtomSet.mem_ofList`), and a union has those
of its parts (`AtomSet.mem_foldl_union`).
-/

namespace NameIndex.AtomTable

variable {t t' : AtomTable} {name other : String} {names : List String}

/-- The handle of a name; a name that is not interned has none. -/
def atomOf (t : AtomTable) (name : String) : Atom := (t.lookup? name).getD Atom.none

/-! ## §1 Looking names up -/

/-- The map finds the place that the name has in the list. -/
theorem lookup?_eq (t : AtomTable) (name : String) :
    t.lookup? name = (t.names.idxOf? name).map handle :=
  t.sound.found name

theorem size_eq (t : AtomTable) : t.size = t.names.length := by
  have hlength := t.sound.length_reverse
  show t.store.reverse.length - 1 = t.store.names.length
  omega

/-- A table is no larger than the lists that have all its names. -/
theorem size_le_of_subset (h : t.names ⊆ names) : t.size ≤ names.length := by
  rw [size_eq]
  exact (List.subperm_of_subset t.sound.distinct h).length_le

/-- A handle leads to the name at its place, which is one below it. -/
theorem name?_eq (t : AtomTable) (a : Atom) :
    t.store.name? a = if a = Atom.none then none else t.names[a.toNat - 1]? := by
  have hlength := t.sound.length_reverse
  unfold Store.name?
  by_cases hzero : a = Atom.none
  · simp [hzero]
  · have hpos : 0 < a.toNat := Nat.pos_of_ne_zero fun h => hzero (UInt32.toNat_inj.mp h)
    have hplace : t.store.reverse[a.toNat]? = t.names[a.toNat - 1]? := by
      rw [t.sound.placeholder, List.getElem?_cons, if_neg (by omega)]
      rfl
    rw [if_neg hzero, ← hplace]
    split
    · next h => exact (List.getElem?_eq_none (h.resolve_left hzero)).symm
    · rfl

/-- Tables are the same when their lists of names are. -/
theorem eq_of_names_eq (h : t.names = t'.names) : t = t' := by
  obtain ⟨⟨ids, reverse⟩, sound⟩ := t
  obtain ⟨⟨ids', reverse'⟩, sound'⟩ := t'
  have hreverse : reverse = reverse' := by
    rw [show reverse = "" :: _ from sound.placeholder,
      show reverse' = "" :: _ from sound'.placeholder]
    exact congrArg _ h
  have hids : ids = ids' := by
    apply Std.ExtTreeMap.ext_getElem?
    intro name
    rw [sound.found name, sound'.found name]
    exact congrArg (fun names => (names.idxOf? name).map handle) h
  subst hreverse hids
  rfl

theorem lookup?_eq_none_iff : t.lookup? name = none ↔ name ∉ t.names := by
  simp [lookup?_eq]

theorem isSome_lookup?_iff : (t.lookup? name).isSome ↔ name ∈ t.names := by
  simp [lookup?_eq]

theorem lookup?_of_mem (h : name ∈ t.names) : t.lookup? name = some (t.atomOf name) := by
  obtain ⟨a, ha⟩ := Option.isSome_iff_exists.mp (isSome_lookup?_iff.mpr h)
  simp [atomOf, ha]

/-- **Handles are for good**: a table that extends another finds the same handle for every name of
the shorter one. -/
theorem lookup?_mono (h : t.names <+: t'.names) (hmem : name ∈ t.names) :
    t'.lookup? name = t.lookup? name := by
  obtain ⟨later, hlater⟩ := h
  obtain ⟨i, hi⟩ := Option.isSome_iff_exists.mp (List.isSome_idxOf?.mpr hmem)
  rw [lookup?_eq, lookup?_eq, ← hlater, hi]
  unfold List.idxOf? at hi ⊢
  rw [List.findIdx?_append, hi]
  rfl

theorem atomOf_mono (h : t.names <+: t'.names) (hmem : name ∈ t.names) :
    t'.atomOf name = t.atomOf name := by
  unfold atomOf
  rw [lookup?_mono h hmem]

/-! ## §2 Interning one name -/

/-- What interning makes of the list of names. -/
theorem names_intern :
    (t.intern name).2.names = if name ∈ t.names then t.names else t.names ++ [name] := by
  show (t.store.intern name).2.reverse.tail = _
  unfold Store.intern
  split
  · next hknown => rw [if_pos (isSome_lookup?_iff.mp (Option.isSome_of_eq_some hknown))]; rfl
  · next hnew =>
    rw [if_neg (lookup?_eq_none_iff.mp hnew)]
    show (t.store.reverse ++ [name]).tail = _
    rw [t.sound.placeholder]
    rfl

theorem intern_fst_of_mem (h : name ∈ t.names) : (t.intern name).1 = t.atomOf name := by
  show (t.store.intern name).1 = _
  unfold Store.intern
  rw [show t.store.lookup? name = some (t.atomOf name) from lookup?_of_mem h]

theorem intern_of_mem (h : name ∈ t.names) : t.intern name = (t.atomOf name, t) := by
  apply Prod.ext
  · exact intern_fst_of_mem h
  · apply eq_of_names_eq
    rw [names_intern, if_pos h]

theorem prefix_intern (t : AtomTable) (name : String) : t.names <+: (t.intern name).2.names := by
  rw [names_intern]
  split
  · exact List.prefix_refl t.names
  · exact List.prefix_append t.names [name]

@[simp] theorem mem_names_intern :
    other ∈ (t.intern name).2.names ↔ other ∈ t.names ∨ other = name := by
  rw [names_intern]
  split
  · next h =>
    constructor
    · exact Or.inl
    · rintro (hmem | rfl)
      · exact hmem
      · exact h
  · simp

theorem nodup_intern (h : t.names.Nodup) : (t.intern name).2.names.Nodup := by
  rw [names_intern]
  split
  · exact h
  · next hnew =>
    refine List.nodup_append.mpr ⟨h, List.nodup_singleton name, fun a ha b hb hab => hnew ?_⟩
    rwa [← List.mem_singleton.mp hb, ← hab]

/-- Interning returns the handle that the name has in the table it leaves behind. -/
theorem intern_fst (t : AtomTable) (name : String) :
    (t.intern name).1 = (t.intern name).2.atomOf name := by
  by_cases h : name ∈ t.names
  · rw [intern_of_mem h]
  · -- the new name stands at the end, behind all names it is not
    have hnone : t.names.findIdx? (· == name) = none := List.idxOf?_eq_none_iff.mpr h
    have hfound : (t.intern name).2.lookup? name = some (handle t.names.length) := by
      rw [lookup?_eq, names_intern, if_neg h]
      unfold List.idxOf?
      simp [List.findIdx?_append, hnone]
    rw [atomOf, hfound]
    show (t.store.intern name).1 = _
    unfold Store.intern
    rw [show t.store.lookup? name = none from lookup?_eq_none_iff.mpr h]
    show UInt32.ofNat t.store.reverse.length = handle t.names.length
    rw [t.sound.length_reverse]
    rfl

/-! ## §3 Interning many names -/

@[simp] theorem internAll_nil (t : AtomTable) : t.internAll [] = ([], t) := rfl

theorem internAll_cons (t : AtomTable) (name : String) (names : List String) :
    t.internAll (name :: names) =
      ((t.intern name).1 :: ((t.intern name).2.internAll names).1,
        ((t.intern name).2.internAll names).2) := rfl

theorem internAll_append (t : AtomTable) (names names' : List String) :
    (t.internAll (names ++ names')).2 = ((t.internAll names).2.internAll names').2 := by
  induction names generalizing t with
  | nil => rfl
  | cons name names ih => simpa [internAll_cons] using ih (t.intern name).2

theorem prefix_internAll (t : AtomTable) (names : List String) :
    t.names <+: (t.internAll names).2.names := by
  induction names generalizing t with
  | nil => exact List.prefix_refl t.names
  | cons name names ih => exact (prefix_intern t name).trans (ih (t.intern name).2)

@[simp] theorem mem_names_internAll :
    other ∈ (t.internAll names).2.names ↔ other ∈ t.names ∨ other ∈ names := by
  induction names generalizing t with
  | nil => simp
  | cons name names ih =>
    rw [internAll_cons, ih, mem_names_intern, List.mem_cons, or_assoc]

theorem nodup_internAll (h : t.names.Nodup) : (t.internAll names).2.names.Nodup := by
  induction names generalizing t with
  | nil => exact h
  | cons name names ih => exact ih (nodup_intern h)

/-- **Handles in order of first occurrence**: a list of names extends the table by those it lacks,
each once, where they first occur. -/
theorem names_internAll (t : AtomTable) (names : List String) :
    (t.internAll names).2.names = t.names ++ (names.filter (· ∉ t.names)).eraseDups := by
  induction names generalizing t with
  | nil => simp
  | cons name names ih =>
    rw [internAll_cons, ih, names_intern]
    by_cases hmem : name ∈ t.names
    · rw [if_pos hmem, List.filter_cons_of_neg (by simpa using hmem)]
    · -- the new name counts as known from here on
      have hrest : names.filter (fun other => other ∉ t.names ++ [name]) =
          (names.filter (· ∉ t.names)).filter fun other => !other == name := by
        rw [List.filter_filter]
        apply List.filter_congr
        intro other _
        by_cases hother : other = name <;> simp [hother]
      rw [if_neg hmem, List.filter_cons_of_pos (by simpa using hmem), List.eraseDups_cons, hrest,
        List.append_assoc, List.singleton_append]

/-- What interning returns is the handles in the table it leaves behind. -/
theorem internAll_fst (t : AtomTable) (names : List String) :
    (t.internAll names).1 = names.map (t.internAll names).2.atomOf := by
  induction names generalizing t with
  | nil => rfl
  | cons name names ih =>
    have hmem : name ∈ (t.intern name).2.names := by simp
    rw [internAll_cons, List.map_cons, ← ih,
      atomOf_mono (prefix_internAll (t.intern name).2 names) hmem, ← intern_fst]

/-! ## §4 From handles back to names -/

theorem toNat_handle {place : Nat} (h : place + 1 < UInt32.size) :
    (handle place).toNat = place + 1 := by
  unfold handle
  rw [UInt32.toNat_ofNat']
  exact Nat.mod_eq_of_lt h

/-- The handle of a place leads to the name at that place, in a table that is no larger than the
words reach. -/
theorem name_handle {place : Nat} (hsize : t.size < UInt32.size) (hplace : place < t.names.length) :
    t.name (handle place) = .ok (t.names.get ⟨place, hplace⟩) := by
  have htoNat : (handle place).toNat = place + 1 := toNat_handle (by rw [size_eq] at hsize; omega)
  -- the handle of a place is not the handle that no name has
  have hne : handle place ≠ Atom.none := by
    intro heq
    rw [heq] at htoNat
    simp [Atom.none] at htoNat
  have hname : t.store.name? (handle place) = some (t.names.get ⟨place, hplace⟩) := by
    rw [name?_eq, if_neg hne, htoNat]
    exact List.getElem?_eq_getElem hplace
  unfold AtomTable.name Store.name
  rw [hname]

/-- A handle leads back to its name. -/
theorem name_atomOf (hsize : t.size < UInt32.size) (hmem : name ∈ t.names) :
    t.name (t.atomOf name) = .ok name := by
  obtain ⟨i, hi⟩ := Option.isSome_iff_exists.mp (List.isSome_idxOf?.mpr hmem)
  obtain ⟨hlt, hget, -⟩ := List.idxOf?_eq_some_iff.mp hi
  have hatom : t.atomOf name = handle i := by simp [atomOf, lookup?_eq, hi]
  rw [hatom, name_handle hsize hlt, List.get_eq_getElem, hget]

/-- Different names have different handles. -/
theorem atomOf_inj (hsize : t.size < UInt32.size) (hmem : name ∈ t.names)
    (hmem' : other ∈ t.names) : t.atomOf name = t.atomOf other ↔ name = other := by
  constructor
  · intro heq
    have hname := name_atomOf hsize hmem
    rw [heq, name_atomOf hsize hmem'] at hname
    exact (Except.ok.inj hname).symm
  · rintro rfl
    rfl

end NameIndex.AtomTable

/-! ## §5 Sets of handles -/

namespace NameIndex.AtomSet

theorem mem_insertInto {a b : Atom} {as : List Atom} : b ∈ insertInto a as ↔ b = a ∨ b ∈ as := by
  induction as with
  | nil => simp [insertInto]
  | cons c as ih =>
    rw [insertInto]
    split_ifs with hlt heq
    · exact List.mem_cons
    · -- a handle that is a member already is not put in again
      simp [heq]
    · rw [List.mem_cons, ih, List.mem_cons]
      exact or_left_comm

theorem mem_foldl_insert {a : Atom} {as : List Atom} {s : AtomSet} :
    a ∈ (as.foldl insert s).members ↔ a ∈ s.members ∨ a ∈ as := by
  induction as generalizing s with
  | nil => simp
  | cons b as ih =>
    rw [List.foldl_cons, ih, insert, mem_insertInto, List.mem_cons, or_assoc, or_left_comm]

theorem contains_iff {s : AtomSet} {a : Atom} : s.contains a ↔ a ∈ s.members := by
  rw [contains, List.contains_iff_mem]

theorem mem_ofList {as : List Atom} {a : Atom} : a ∈ (ofList as).members ↔ a ∈ as := by
  rw [ofList, mem_foldl_insert]
  simp [empty]

/-- A union of sets, one after the other, has the members of all. -/
theorem mem_foldl_union {α : Type} {f : α → AtomSet} {a : Atom} {xs : List α} {s : AtomSet} :
    a ∈ (xs.foldl (fun s x => s.union (f x)) s).members ↔
      a ∈ s.members ∨ ∃ x ∈ xs, a ∈ (f x).members := by
  induction xs generalizing s with
  | nil => simp
  | cons x xs ih =>
    rw [List.foldl_cons, ih, union, mem_foldl_insert]
    simp [or_assoc]

end NameIndex.AtomSet
