import NameIndex.Proofs.SegmentEdit

/-!
# Names, handles and empty slots

Three things are kept in order besides the content of the slots: a record carries the handle of its
name, a label without statements has no slot, and no name is interned twice. An index in this state
is **tidy**. Entering and withdrawing segments keep it so, and in a tidy index entering a segment
interns exactly the names of the segment, in the sequence of its declarations.

## Main results

* `Index.Tidy.enter` — the table of names after a segment has been entered.
* `Index.Tidy.withdraw` — withdrawing keeps an index tidy.
-/

namespace NameIndex.Index

variable {ix ix' : Index} {id : SegmentId}

/-! ## §1 Tidy indexes -/

/-- A tidy index: records carry the handles of their names, no label has an empty slot, and no name
is interned twice. -/
structure Tidy (ix : Index) : Prop where
  named : ∀ (n : String) (r : SymbolRecord), ix.records[n]? = some r →
    ix.atoms.lookup? n = some r.atom
  inhabited : ∀ (l : String) (s : Slot StatementAddress Unit), ix.labels[l]? = some s →
    s.entries ≠ []
  nodup : ix.atoms.names.Nodup

theorem tidy_new (order : Order) : (new order).Tidy where
  named n r h := by simp [new] at h
  inhabited l s h := by simp [new] at h
  nodup := List.nodup_nil

theorem Tidy.setTracked (h : ix.Tidy) (m : Std.ExtTreeMap SegmentId Revision) :
    ({ ix with tracked := m } : Index).Tidy :=
  ⟨h.named, h.inhabited, h.nodup⟩

/-! ## §2 Entering -/

/-- In a tidy index, opening a record is interning its name. -/
theorem Tidy.openRecord_eq (h : ix.Tidy) (name : String) :
    ix.openRecord name = ({ ix.record name with atom := (ix.atoms.intern name).1 },
      { ix with atoms := (ix.atoms.intern name).2 }) := by
  rw [Index.openRecord_eq]
  split
  · rfl
  · next hatom =>
    -- only a record that is stored has a handle
    obtain ⟨r, hr⟩ : ∃ r, ix.records[name]? = some r := by
      refine Option.ne_none_iff_exists'.mp fun hnone => hatom ?_
      rw [record, hnone]
      rfl
    have hlookup := h.named name r hr
    have hmem : name ∈ ix.atoms.names := by
      rw [← AtomTable.isSome_lookup?_iff, hlookup]
      rfl
    rw [AtomTable.intern_of_mem hmem, AtomTable.atomOf, hlookup, record, hr]
    rfl

/-- A record keeps its handle while the table grows. -/
theorem Tidy.lookup?_mono (h : ix.Tidy) {t : AtomTable} (ht : ix.atoms.names <+: t.names)
    {n : String} {r : SymbolRecord} (hr : ix.records[n]? = some r) :
    t.lookup? n = some r.atom := by
  have hlookup := h.named n r hr
  have hmem : n ∈ ix.atoms.names := by
    rw [← AtomTable.isSome_lookup?_iff, hlookup]
    rfl
  rw [AtomTable.lookup?_mono ht hmem, hlookup]

/-- Storing a record under its handle keeps the index tidy. -/
theorem Tidy.putRecord (h : ix.Tidy) {t : AtomTable} (ht : ix.atoms.names <+: t.names)
    (hnodup : t.names.Nodup) {name : String} {r : SymbolRecord}
    (hr : t.lookup? name = some r.atom) : ({ ix with atoms := t }.putRecord name r).Tidy where
  named n r' hr' := by
    simp only [Index.putRecord, Std.ExtTreeMap.getElem?_insert, Std.compare_eq_iff_eq] at hr' ⊢
    split at hr'
    · next hn =>
      obtain rfl := Option.some.inj hr'
      rw [← hn]
      exact hr
    · exact h.lookup?_mono ht hr'
  inhabited := h.inhabited
  nodup := hnodup

/-- **One declaration** interns its names in sequence and keeps the index tidy. -/
theorem Tidy.addDeclaration (h : ix.Tidy) {decl : Declaration}
    (hadd : ix.addDeclaration id decl = .ok ix') :
    ix'.Tidy ∧ ix'.atoms = (ix.atoms.internAll decl.names).2 := by
  cases decl with
  | symbol d =>
    -- the record is stored under the handle that its name has just been given
    obtain ⟨all, constants, -, -, rfl⟩ := addSymbol_eq_ok_iff.mp hadd
    rw [h.openRecord_eq d.name]
    refine ⟨h.putRecord (ix.atoms.prefix_intern d.name) (AtomTable.nodup_intern h.nodup) ?_, rfl⟩
    rw [AtomTable.lookup?_of_mem (by simp), ← AtomTable.intern_fst]
  | localVar d =>
    obtain rfl := Except.ok.inj hadd
    refine ⟨⟨fun n r hr => ?_, h.inhabited, AtomTable.nodup_intern h.nodup⟩, rfl⟩
    exact h.lookup?_mono (ix.atoms.prefix_intern d.name) hr
  | label d =>
    obtain ⟨s, hs, rfl⟩ := addLabel_eq_ok_iff.mp hadd
    refine ⟨⟨h.named, fun l s' hs' => ?_, h.nodup⟩, rfl⟩
    rw [Std.ExtTreeMap.getElem?_insert] at hs'
    split at hs'
    · -- an entry has arrived, so the slot of the label is not empty
      obtain rfl := Option.some.inj hs'
      exact Slot.entries_ne_nil_of_insert hs
    · exact h.inhabited l s' hs'
  | float d =>
    obtain ⟨floats, -, rfl⟩ := addFloat_eq_ok_iff.mp hadd
    rw [h.openRecord_eq d.name]
    -- the typecode is interned after the variable and leaves the handle of the variable
    have hgrow := AtomTable.prefix_intern (ix.atoms.intern d.name).2 d.typecode
    refine ⟨h.putRecord ((ix.atoms.prefix_intern d.name).trans hgrow)
      (AtomTable.nodup_intern (AtomTable.nodup_intern h.nodup)) ?_, rfl⟩
    rw [AtomTable.lookup?_mono hgrow (by simp), AtomTable.lookup?_of_mem (by simp),
      ← AtomTable.intern_fst]
  | disjoint d =>
    obtain ⟨disjoints, -, rfl⟩ := addDisjoint_eq_ok_iff.mp hadd
    refine ⟨⟨fun n r hr => ?_, h.inhabited, AtomTable.nodup_internAll h.nodup⟩, rfl⟩
    exact h.lookup?_mono (ix.atoms.prefix_internAll d.names) hr

/-- **A segment** interns its names in sequence and keeps the index tidy. -/
theorem Tidy.enter (h : ix.Tidy) {s : Segment} (henter : ix.enter id s = .ok ix') :
    ix'.Tidy ∧ ix'.atoms = (ix.atoms.internAll s.names).2 := by
  rw [enter_eq_foldlM] at henter
  unfold Segment.names
  generalize s.declarations = ds at henter
  induction ds generalizing ix with
  | nil =>
    obtain rfl := Except.ok.inj henter
    exact ⟨h, rfl⟩
  | cons decl ds ih =>
    rw [List.foldlM_cons] at henter
    obtain ⟨ix₁, hone, hrest⟩ := bind_eq_ok_iff.mp henter
    obtain ⟨htidy₁, hatoms₁⟩ := h.addDeclaration hone
    obtain ⟨htidy, hatoms⟩ := ih htidy₁ hrest
    refine ⟨htidy, ?_⟩
    rw [List.flatMap_cons, AtomTable.internAll_append, ← hatoms₁, hatoms]

/-! ## §3 Withdrawing -/

/-- Changing a record without changing its handle keeps the index tidy. -/
theorem Tidy.changeRecord (h : ix.Tidy) (name : String) {change : SymbolRecord → SymbolRecord}
    (hatom : ∀ r, (change r).atom = r.atom) : (ix.changeRecord name change).Tidy where
  named n r hr := by
    simp only [Index.changeRecord, Std.ExtTreeMap.getElem?_alter, Std.compare_eq_iff_eq] at hr ⊢
    split at hr
    · next hn =>
      -- the record is a changed one, or it has been dropped
      subst hn
      cases hold : ix.records[name]? with
      | none => simp [hold] at hr
      | some old =>
        simp only [hold, Option.bind_eq_bind, Option.bind_some, Option.ite_none_left_eq_some] at hr
        rw [← Option.some.inj hr.2, hatom]
        exact h.named name old hold
    · exact h.named n r hr
  inhabited := h.inhabited
  nodup := h.nodup

theorem Tidy.removeDeclaration (h : ix.Tidy) (id : SegmentId) (decl : Declaration) :
    (ix.removeDeclaration id decl).Tidy := by
  cases decl with
  | symbol d => exact h.changeRecord d.name fun _ => rfl
  | localVar d => exact h
  | label d =>
    refine ⟨h.named, fun l s hs => ?_, h.nodup⟩
    simp only [Index.removeDeclaration, removeLabel, Std.ExtTreeMap.getElem?_alter,
      Std.compare_eq_iff_eq] at hs
    split at hs
    · -- a slot that would be left empty is dropped
      cases hl : ix.labels[d.label]? with
      | none => simp [hl] at hs
      | some s' =>
        simp only [hl, Option.bind_eq_bind, Option.bind_some, Option.ite_none_left_eq_some,
          Slot.isEmpty, List.isEmpty_iff] at hs
        obtain ⟨hne, hs⟩ := hs
        rw [← Option.some.inj hs]
        exact hne
    · exact h.inhabited l s hs
  | float d => exact h.changeRecord d.name fun _ => rfl
  | disjoint d => exact ⟨h.named, h.inhabited, h.nodup⟩

/-- Withdrawing a segment keeps an index tidy. -/
theorem Tidy.withdraw (h : ix.Tidy) (id : SegmentId) (s : Segment) : (ix.withdraw id s).Tidy := by
  rw [withdraw_eq_foldl]
  generalize s.declarations = ds
  induction ds generalizing ix with
  | nil => exact h
  | cons decl ds ih => exact ih (h.removeDeclaration id decl)

end NameIndex.Index
