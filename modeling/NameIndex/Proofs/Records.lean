import NameIndex.Proofs.TrackedContent

/-!
# Records come, and as a rule they stay

A symbol gets its record with its first declaration and is given its handle then. Withdrawing a
declaration empties slots of the record and leaves the handle, and a record is dropped only when it
carries nothing at all, its handle included. Handles of names are not zero as long as the words reach,
so records stay; where the words have run out, a record without handle goes with its last entry and
comes back with the next one.

What is stored can therefore be read off the views of an index: a label has a slot iff the slot holds
something (`Index.Tidy.labels_eq`), and a record carries the handle of its name and three slots
(`Index.Tidy.getElem?_records`). Two tidy indexes with the same views are equal (`Index.Tidy.ext`).

## Main results

* `Index.mem_records_add`, `Index.Exact.mem_records_remove_iff` — which names have a record after a
  segment has been added or removed.
* `Index.Reachable.noBlank` — no reachable index stores a record that carries nothing.
* `Index.Tidy.ext` — an index is determined by its views.
-/

namespace NameIndex

/-! ## §1 Names that get a record -/

/-- The name whose record the declaration enters. -/
def Declaration.recorded? : Declaration → Option String
  | .symbol d => some d.name
  | .float d => some d.name
  | .localVar _ | .label _ | .disjoint _ => none

/-- The names that a segment declares as symbols or binds in floating hypotheses. -/
def Segment.recorded (s : Segment) : List String :=
  s.symbols.map (·.name) ++ s.floats.map (·.name)

theorem Segment.mem_recorded_iff {s : Segment} {n : String} :
    n ∈ s.recorded ↔ ∃ decl ∈ s.declarations, decl.recorded? = some n := by
  simp [recorded, declarations, or_and_right, exists_or, Declaration.recorded?]

namespace Index

variable {ix ix' : Index} {id : SegmentId} {r : Revision} {n : String}

theorem mem_records_putRecord {name : String} {record : SymbolRecord} :
    n ∈ (ix.putRecord name record).records ↔ name = n ∨ n ∈ ix.records := by
  simp [putRecord, Std.ExtTreeMap.mem_insert]

@[simp] theorem openRecord_records (ix : Index) (name : String) :
    (ix.openRecord name).2.records = ix.records := by
  rw [openRecord_eq]; split <;> rfl

/-- **One declaration** gives a record to the name it declares, and to no other. -/
theorem mem_records_addDeclaration {decl : Declaration}
    (h : ix.addDeclaration id decl = .ok ix') :
    n ∈ ix'.records ↔ n ∈ ix.records ∨ decl.recorded? = some n := by
  cases decl with
  | symbol d =>
    obtain ⟨all, constants, -, -, rfl⟩ := addSymbol_eq_ok_iff.mp h
    rw [mem_records_putRecord, openRecord_records, or_comm, Declaration.recorded?,
      Option.some.injEq]
  | localVar d =>
    obtain rfl := Except.ok.inj h
    simp [addLocalVar, Declaration.recorded?]
  | label d =>
    obtain ⟨s, -, rfl⟩ := addLabel_eq_ok_iff.mp h
    simp [Declaration.recorded?]
  | float d =>
    obtain ⟨floats, -, rfl⟩ := addFloat_eq_ok_iff.mp h
    rw [mem_records_putRecord, openRecord_records, or_comm, Declaration.recorded?,
      Option.some.injEq]
  | disjoint d =>
    obtain ⟨disjoints, -, rfl⟩ := addDisjoint_eq_ok_iff.mp h
    simp [Declaration.recorded?]

theorem mem_records_enter {s : Segment} (h : ix.enter id s = .ok ix') :
    n ∈ ix'.records ↔ n ∈ ix.records ∨ n ∈ s.recorded := by
  rw [enter_eq_foldlM] at h
  rw [Segment.mem_recorded_iff]
  generalize s.declarations = ds at h
  induction ds generalizing ix with
  | nil =>
    obtain rfl := Except.ok.inj h
    simp
  | cons decl ds ih =>
    rw [List.foldlM_cons] at h
    obtain ⟨ix₁, hone, hrest⟩ := bind_eq_ok_iff.mp h
    -- the first declaration has its part, and what follows starts from there
    rw [ih hrest, mem_records_addDeclaration hone, or_assoc]
    simp

/-- **A segment** gives records to the names it declares. -/
theorem mem_records_add (hfresh : ix.tracked[id]? = none) (h : ix.add id r = .ok ix') :
    n ∈ ix'.records ↔ n ∈ ix.records ∨ n ∈ r.content.recorded := by
  rw [add_of_not_contains (contains_eq_false_iff.mpr hfresh)] at h
  rw [mem_records_enter h]

/-- What a tracked segment declares has a record. -/
theorem Exact.mem_records_of_recorded (h : ix.Exact) (hr : ix.tracked[id]? = some r)
    (hn : n ∈ r.content.recorded) : n ∈ ix.records := by
  -- a slot of the name holds the entry of a declaration, so there is a record to hold the slot
  have hslot : ((ix.record n).all.top?.isSome) ∨ (ix.record n).floats.top?.isSome := by
    rcases List.mem_append.mp hn with hn | hn
    · obtain ⟨d, hd, rfl⟩ := List.mem_map.mp hn
      exact Or.inl ((h.isSome_top?_iff (.all d.name)).mpr
        ⟨id, r, hr, d, List.mem_filter.mpr ⟨hd, by simp⟩⟩)
    · obtain ⟨d, hd, rfl⟩ := List.mem_map.mp hn
      exact Or.inr ((h.isSome_top?_iff (.floats d.name)).mpr
        ⟨id, r, hr, d, List.mem_filter.mpr ⟨hd, by simp⟩⟩)
  rw [Std.ExtTreeMap.mem_iff_isSome_getElem?, Option.isSome_iff_ne_none]
  intro hnone
  rw [record, hnone] at hslot
  simp [SymbolRecord.blank, Slot.top?, EmptyCollection.emptyCollection, Slot.empty] at hslot

/-! ## §2 Records after a withdrawal -/

/-- A record that carries anything is stored. -/
theorem getElem?_records_of_ne_blank (h : ix.record n ≠ .blank) :
    ix.records[n]? = some (ix.record n) := by
  unfold record at h ⊢
  cases hn : ix.records[n]? with
  | none => exact absurd (by rw [hn]; rfl) h
  | some record => rfl

theorem record_of_getElem? {record : SymbolRecord} (h : ix.records[n]? = some record) :
    ix.record n = record := by
  rw [Index.record, h]
  rfl

theorem record_eq (ix : Index) (n : String) : ix.record n =
    ⟨(ix.record n).atom, ix.slot (.all n), ix.slot (.constants n), ix.slot (.floats n)⟩ := rfl

/-- Withdrawing leaves the handles of records. -/
theorem atom_record_removeDeclaration (ix : Index) (id : SegmentId) (decl : Declaration)
    (n : String) : ((ix.removeDeclaration id decl).record n).atom = (ix.record n).atom := by
  cases decl with
  | symbol d =>
    simp only [removeDeclaration, removeSymbol_record]
    split <;> rfl
  | localVar d | label d | disjoint d => rfl
  | float d =>
    simp only [removeDeclaration, removeFloat_record]
    split <;> rfl

theorem atom_record_remove (ix : Index) (id : SegmentId) (n : String) :
    ((ix.remove id).record n).atom = (ix.record n).atom := by
  cases htracked : ix.tracked[id]? with
  | none => rw [remove_of_untracked htracked]
  | some r =>
    have hwithdraw : ∀ (ds : List Declaration) (ix : Index),
        ((ds.foldl (removeDeclaration id) ix).record n).atom = (ix.record n).atom := by
      intro ds
      induction ds with
      | nil => exact fun ix => rfl
      | cons decl ds ih =>
        intro ix
        rw [List.foldl_cons, ih, atom_record_removeDeclaration]
    rw [remove_of_tracked htracked, withdraw_eq_foldl, hwithdraw]
    rfl

/-- Declarations of other names leave a record alone. -/
theorem getElem?_records_removeDeclaration {decl : Declaration} (h : decl.recorded? ≠ some n) :
    (ix.removeDeclaration id decl).records[n]? = ix.records[n]? := by
  cases decl with
  | symbol d | float d =>
    have hne : d.name ≠ n := by simpa [Declaration.recorded?] using h
    simp [removeDeclaration, removeSymbol, removeFloat, changeRecord, Std.ExtTreeMap.getElem?_alter,
      hne]
  | localVar d | label d | disjoint d => rfl

theorem getElem?_records_remove (hr : ix.tracked[id]? = some r) (hn : n ∉ r.content.recorded) :
    (ix.remove id).records[n]? = ix.records[n]? := by
  rw [Segment.mem_recorded_iff] at hn
  have hwithdraw : ∀ (ds : List Declaration) (ix : Index),
      (∀ decl ∈ ds, decl.recorded? ≠ some n) →
        (ds.foldl (removeDeclaration id) ix).records[n]? = ix.records[n]? := by
    intro ds
    induction ds with
    | nil => exact fun ix _ => rfl
    | cons decl ds ih =>
      intro ix hds
      rw [List.foldl_cons, ih _ fun decl' hdecl' => hds decl' (List.mem_cons_of_mem decl hdecl'),
        getElem?_records_removeDeclaration (hds decl List.mem_cons_self)]
  rw [remove_of_tracked hr, withdraw_eq_foldl, hwithdraw _ _ fun decl hdecl hsome =>
    hn ⟨decl, hdecl, hsome⟩]

/-- Removing a segment makes no record. -/
theorem Exact.mem_records_of_remove (h : ix.Exact) (hn : n ∈ (ix.remove id).records) :
    n ∈ ix.records := by
  cases htracked : ix.tracked[id]? with
  | none => rwa [remove_of_untracked htracked] at hn
  | some r =>
    by_cases hrecorded : n ∈ r.content.recorded
    · -- the segment is still tracked before, so the name has its record
      exact h.mem_records_of_recorded htracked hrecorded
    · rw [Std.ExtTreeMap.mem_iff_isSome_getElem?, getElem?_records_remove htracked hrecorded] at hn
      exact Std.ExtTreeMap.mem_iff_isSome_getElem?.mpr hn

/-- A record has a handle other than zero, as long as the words reach. -/
theorem Tidy.atom_record_ne_none (h : ix.Tidy) (hsize : ix.atoms.size < UInt32.size)
    (hn : n ∈ ix.records) : (ix.record n).atom ≠ Atom.none := by
  obtain ⟨record, hrecord⟩ := Option.isSome_iff_exists.mp
    (Std.ExtTreeMap.mem_iff_isSome_getElem?.mp hn)
  have hlookup := h.named n record hrecord
  have hmem : n ∈ ix.atoms.names := by
    rw [← AtomTable.isSome_lookup?_iff, hlookup]
    rfl
  -- the handle of a name leads back to the name, and zero leads nowhere
  intro hnone
  have hname := AtomTable.name_atomOf hsize hmem
  rw [AtomTable.atomOf, hlookup, Option.getD_some, ← record_of_getElem? hrecord, hnone] at hname
  simp [AtomTable.name, AtomTable.Store.name, AtomTable.Store.name?] at hname

/-- **Records stay** when a segment is removed, as long as the words reach. -/
theorem Exact.mem_records_remove_iff (h : ix.Exact) (hsize : ix.atoms.size < UInt32.size)
    (id : SegmentId) : n ∈ (ix.remove id).records ↔ n ∈ ix.records := by
  refine ⟨h.mem_records_of_remove, fun hn => ?_⟩
  -- the record keeps its handle, so it carries something
  have hatom := h.tidy.atom_record_ne_none hsize hn
  rw [← atom_record_remove ix id n] at hatom
  have hstored := getElem?_records_of_ne_blank fun hblank => hatom (hblank ▸ rfl)
  rw [Std.ExtTreeMap.mem_iff_isSome_getElem?, hstored]
  rfl

/-! ## §3 No record is blank -/

/-- No stored record is blank. -/
def NoBlank (ix : Index) : Prop :=
  ∀ (n : String) (record : SymbolRecord), ix.records[n]? = some record → record ≠ .blank

theorem NoBlank.putRecord (h : ix.NoBlank) {name : String} {record : SymbolRecord}
    (hrecord : record ≠ .blank) : (ix.putRecord name record).NoBlank := by
  intro n record' hrecord'
  rw [Index.putRecord, Std.ExtTreeMap.getElem?_insert] at hrecord'
  split at hrecord'
  · exact Option.some.inj hrecord' ▸ hrecord
  · exact h n record' hrecord'

theorem NoBlank.changeRecord (h : ix.NoBlank) (name : String)
    (change : SymbolRecord → SymbolRecord) : (ix.changeRecord name change).NoBlank := by
  intro n record hrecord
  rw [Index.changeRecord, Std.ExtTreeMap.getElem?_alter] at hrecord
  split at hrecord
  · -- a changed record is stored only if it is not blank
    obtain ⟨old, -, hrecord⟩ := Option.bind_eq_some_iff.mp hrecord
    rw [Option.ite_none_left_eq_some, isBlank_iff] at hrecord
    exact Option.some.inj hrecord.2 ▸ hrecord.1
  · exact h n record hrecord

/-- The record that a declaration enters has an entry then, so it is not blank. -/
theorem NoBlank.addDeclaration (h : ix.NoBlank) {decl : Declaration}
    (hadd : ix.addDeclaration id decl = .ok ix') : ix'.NoBlank := by
  -- opening a record stores nothing yet
  have hopened : ∀ name, (ix.openRecord name).2.NoBlank := by
    intro name n record hrecord
    exact h n record (openRecord_records ix name ▸ hrecord)
  cases decl with
  | symbol d =>
    obtain ⟨all, constants, hall, -, rfl⟩ := addSymbol_eq_ok_iff.mp hadd
    apply (hopened d.name).putRecord
    intro hblank
    exact Slot.entries_ne_nil_of_insert hall (congrArg (fun record => record.all.entries) hblank)
  | localVar d =>
    obtain rfl := Except.ok.inj hadd
    exact h
  | label d =>
    obtain ⟨s, -, rfl⟩ := addLabel_eq_ok_iff.mp hadd
    exact h
  | float d =>
    obtain ⟨floats, hfloats, rfl⟩ := addFloat_eq_ok_iff.mp hadd
    have hinterned : ({ (ix.openRecord d.name).2 with
        atoms := ((ix.openRecord d.name).2.atoms.intern d.typecode).2 } : Index).NoBlank :=
      hopened d.name
    apply hinterned.putRecord
    intro hblank
    exact Slot.entries_ne_nil_of_insert hfloats
      (congrArg (fun record => record.floats.entries) hblank)
  | disjoint d =>
    obtain ⟨disjoints, -, rfl⟩ := addDisjoint_eq_ok_iff.mp hadd
    exact h

theorem NoBlank.removeDeclaration (h : ix.NoBlank) (id : SegmentId) (decl : Declaration) :
    (ix.removeDeclaration id decl).NoBlank := by
  cases decl with
  | symbol d => exact h.changeRecord d.name _
  | float d => exact h.changeRecord d.name _
  | localVar d | label d | disjoint d => exact h

theorem NoBlank.add (h : ix.NoBlank) (hadd : ix.add id r = .ok ix') : ix'.NoBlank := by
  cases hcontains : ix.contains id with
  | true => exact Except.ok.inj ((add_of_contains hcontains).symm.trans hadd) ▸ h
  | false =>
    rw [add_of_not_contains hcontains, enter_eq_foldlM] at hadd
    have hopened : ({ ix with tracked := ix.tracked.insert id r } : Index).NoBlank := h
    generalize ({ ix with tracked := ix.tracked.insert id r } : Index) = ix₀ at hopened hadd
    generalize r.content.declarations = ds at hadd
    induction ds generalizing ix₀ with
    | nil => exact Except.ok.inj hadd ▸ hopened
    | cons decl ds ih =>
      rw [List.foldlM_cons] at hadd
      obtain ⟨ix₁, hone, hrest⟩ := bind_eq_ok_iff.mp hadd
      exact ih ix₁ (hopened.addDeclaration hone) hrest

theorem NoBlank.remove (h : ix.NoBlank) (id : SegmentId) : (ix.remove id).NoBlank := by
  cases htracked : ix.tracked[id]? with
  | none => exact (remove_of_untracked htracked).symm ▸ h
  | some r =>
    rw [remove_of_tracked htracked, withdraw_eq_foldl]
    have hopened : ({ ix with tracked := ix.tracked.erase id } : Index).NoBlank := h
    generalize ({ ix with tracked := ix.tracked.erase id } : Index) = ix₀ at hopened
    generalize r.content.declarations = ds
    induction ds generalizing ix₀ with
    | nil => exact hopened
    | cons decl ds ih => exact ih _ (hopened.removeDeclaration id decl)

theorem NoBlank.step (h : ix.NoBlank) (hix : ix.Exact) {change : Change}
    (hstep : Step ix change ix') : ix'.NoBlank :=
  hix.step_induction hstep h (fun _ _ hmid => hmid) (fun _ id _ hmid => hmid.remove id)
    fun _ _ _ _ _ hadd _ _ hmid => hmid.add hadd

/-- **No reachable index stores a blank record.** -/
theorem Reachable.noBlank (h : ix.Reachable) : ix.NoBlank := by
  induction h with
  | new order =>
    intro n record hrecord
    simp [Index.new] at hrecord
  | step hix hstep ih => exact ih.step hix.exact hstep

/-! ## §4 An index is determined by its views -/

/-- A label has a slot iff the slot holds something. -/
theorem Tidy.getElem?_labels (h : ix.Tidy) (l : String) :
    ix.labels[l]? = if (ix.slot (.label l)).isEmpty then none else some (ix.slot (.label l)) := by
  rw [slot]
  cases hl : ix.labels[l]? with
  | none => rfl
  | some s =>
    have hne := h.inhabited l s hl
    rw [Option.getD_some, if_neg (by simpa [Slot.isEmpty] using hne)]

theorem Tidy.labels_eq (h : ix.Tidy) (h' : ix'.Tidy)
    (hslots : ∀ l, ix.slot (.label l) = ix'.slot (.label l)) : ix.labels = ix'.labels := by
  refine Std.ExtTreeMap.ext_getElem? fun l => ?_
  rw [h.getElem?_labels, h'.getElem?_labels, hslots]

/-- Records carry the handles of their names, so those that are stored are known by their slots. -/
theorem Tidy.getElem?_records (h : ix.Tidy) (hn : n ∈ ix.records) :
    ix.records[n]? = some ⟨ix.atoms.atomOf n, ix.slot (.all n), ix.slot (.constants n),
      ix.slot (.floats n)⟩ := by
  obtain ⟨record, hrecord⟩ := Option.isSome_iff_exists.mp
    (Std.ExtTreeMap.mem_iff_isSome_getElem?.mp hn)
  simp only [slot, record_of_getElem? hrecord, AtomTable.atomOf, h.named n record hrecord, hrecord,
    Option.getD_some]

/-- **An index is determined by its views**: the order, the names, the tracked segments, the symbols
that have a record, and the slots. -/
theorem Tidy.ext (h : ix.Tidy) (h' : ix'.Tidy) (horder : ix.order = ix'.order)
    (hatoms : ix.atoms = ix'.atoms) (htracked : ix.tracked = ix'.tracked)
    (hrecords : ∀ n, n ∈ ix.records ↔ n ∈ ix'.records) (hslots : ∀ k, ix.slot k = ix'.slot k) :
    ix = ix' := by
  have hlabels := h.labels_eq h' fun l => hslots (.label l)
  have hstored : ix.records = ix'.records := by
    refine Std.ExtTreeMap.ext_getElem? fun n => ?_
    by_cases hn : n ∈ ix.records
    · -- a record is known by the handle of its name and by its slots, which agree
      rw [h.getElem?_records hn, h'.getElem?_records ((hrecords n).mp hn), hatoms, hslots, hslots,
        hslots]
    · rw [Std.ExtTreeMap.getElem?_eq_none hn,
        Std.ExtTreeMap.getElem?_eq_none fun hn' => hn ((hrecords n).mpr hn')]
  have hdisjoints : ix.disjoints = ix'.disjoints := hslots .disjoints
  cases ix
  cases ix'
  simp_all

end Index

end NameIndex
