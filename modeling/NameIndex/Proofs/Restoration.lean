import Mathlib.Data.Set.Insert
import NameIndex.Proofs.DocumentOrder
import NameIndex.Proofs.HandleOrder
import NameIndex.Proofs.Records

/-!
# Adding and removing a segment undo each other

To add a segment is to insert its entries one by one, each insertion with a sort; to remove it is to
drop entries by address. Neither looks at what the other has done, and still they undo each other,
as long as the slots stand in the adopted order to begin with.

An addition that is taken back leaves every slot as it was, because sorting what is sorted already
moves nothing. What stays behind is names and records without entries.

A removal that is taken back leaves the whole index as it was. The entries come back to where they
were, because the order is strict and entries of one address stand in declared order
(`Index.InDeclaredOrder`); the names were never forgotten; and a record that went with its last entry
comes back with it.

## Main definitions

* `Index.Orderly` — the states that are reached under orders that are total preorders.
* `Index.InDeclaredOrder` — entries of one address stand as they are declared.
* `Index.Restored` — the state is as before, apart from names and empty records.

## Main results

* `Index.Orderly.inDeclaredOrder` — under total preorders, entries of one address always stand in
  declared order.
* `Index.add_remove_undo` — adding and removing a segment undo each other.
-/

namespace NameIndex

open Sorting

namespace Index

variable {ix ix' : Index} {id : SegmentId} {r : Revision}

/-! ## §1 Entries of one address -/

/-- **States reached under total preorders**: after each change, the order in force is a total
preorder on what is tracked. -/
inductive Orderly : Index → Prop where
  | new (order : Order) : Orderly (Index.new order)
  | step {ix ix' : Index} {change : Change} (hix : Orderly ix) (hstep : Step ix change ix')
      (horder : ix'.order.TotalOn {id | id ∈ ix'.tracked}) : Orderly ix'

theorem Orderly.reachable (h : ix.Orderly) : ix.Reachable := by
  induction h with
  | new order => exact .new order
  | step _ hstep _ ih => exact ih.step hstep

/-- Entries of one address stand in the sequence in which their segment declares them. -/
def InDeclaredOrder (ix : Index) : Prop :=
  ∀ (k : SlotKey) (a : k.Address), (ix.slot k).entries.filter (fun e => e.address = a) =
    (ix.declared k).filter fun e => e.address = a

/-- Removing a segment leaves the others as they stand. -/
theorem InDeclaredOrder.remove (h : ix.InDeclaredOrder) (hix : ix.Exact) (id : SegmentId) :
    (ix.remove id).InDeclaredOrder := by
  intro k a
  -- it does not matter whether the address or the segment is singled out first
  rw [hix.remove_slot id k, (ix.sameBlocks_remove id k).filter_address a, List.filter_comm, h k a,
    List.filter_comm]

/-- Adding a segment puts its entries behind those that are there, and a stable sort keeps entries
of one address in sequence. -/
theorem InDeclaredOrder.add (h : ix.InDeclaredOrder) (hix : ix.Exact)
    (hadd : ix.add id r = .ok ix') (horder : ix'.order.TotalOn {id | id ∈ ix'.tracked}) :
    ix'.InDeclaredOrder := by
  rcases add_cases hadd with rfl | hadded
  · exact h
  · intro k a
    have hslot := hadded.slots ix'.atoms (List.prefix_refl _) k
    rw [← hadded.order_eq] at hslot
    have htotal := (hix.add hadd).totalOn_step horder hslot
    -- both sides are the entries from before, then those of the new segment
    rw [Slot.insertAll_filter_address htotal hslot a,
      (hadded.sameBlocks hix.interned k).filter_address a, List.filter_append, List.filter_append,
      h k a]

/-- **One step** under a total preorder keeps entries of one address in declared order. -/
theorem InDeclaredOrder.step (h : ix.InDeclaredOrder) (hix : ix.Exact) {change : Change}
    (hstep : Step ix change ix') (horder : ix'.order.TotalOn {id | id ∈ ix'.tracked}) :
    ix'.InDeclaredOrder := by
  refine hix.step_induction hstep h (fun mid o hmid k a => ?_)
    (fun _ id hexact hmid => hmid.remove hexact id)
    fun mid mid' _ _ hexact hadd horder' htracked hmid => hmid.add hexact hadd ?_
  · -- which order is adopted is not seen in the slots
    rw [slot_order mid o k]
    exact hmid k a
  · -- a segment is added among those that are tracked in the end
    rw [horder']
    exact horder.mono htracked

/-- **A run** under total preorders keeps entries of one address in declared order. -/
theorem Orderly.inDeclaredOrder (h : ix.Orderly) : ix.InDeclaredOrder := by
  induction h with
  | new order =>
    intro k a
    rw [slot_new]
    rfl
  | step hix hstep horder ih => exact ih.step hix.reachable.exact hstep horder

/-- Under a strict order, a slot that stands in the order is in document order: entries are level
only at one address. -/
theorem InDeclaredOrder.arrangedBy (h : ix.InDeclaredOrder) (hix : ix.Exact) {o : Order}
    (ho : o.StrictOn {id | id ∈ ix.tracked})
    (hsorted : ∀ k : SlotKey, k.Ascending o (ix.slot k).entries) : ix.ArrangedBy o := by
  intro k
  refine ⟨hix.content k, hsorted k, fun x hx => ?_⟩
  -- what is level with an entry is what has its address, and there the slot is as declared
  have haddress : ∀ l : List (Entry k.Address k.Value), (∀ e ∈ l, e ∈ ix.declared k) →
      l.filter (ties (Slot.byAddress (k.compare o)) x) =
        l.filter fun e => e.address = x.address := by
    intro l hl
    refine List.filter_congr fun e he => ?_
    rw [Bool.eq_iff_iff, decide_eq_true_eq]
    have hxs := tracked_of_mem_declared hx
    constructor
    · exact fun htie =>
        (SlotKey.eq_of_ties ho k hxs (tracked_of_mem_declared (hl e he)) htie).symm
    · intro heq
      have hself := (SlotKey.totalOn ho.total k).ties_refl hxs
      unfold ties Slot.byAddress at *
      rwa [heq]
  rw [haddress _ fun e he => (hix.content k).mem_iff.mp he, haddress _ fun e he => he,
    h k x.address]

/-! ## §2 An addition that is taken back -/

/-- **What is left of an addition that has been taken back**: the order, the tracked segments, the
labels with their slots, the constraints and all records are as before. What stays of the segment is
records without entries for symbols that had none, and the names, behind those that were there. -/
structure Restored (ix : Index) (s : Segment) (ix' : Index) : Prop where
  order_eq : ix'.order = ix.order
  tracked_eq : ix'.tracked = ix.tracked
  labels_eq : ix'.labels = ix.labels
  disjoints_eq : ix'.disjoints = ix.disjoints
  records_kept : ∀ (n : String) (record : SymbolRecord), ix.records[n]? = some record →
    ix'.records[n]? = some record
  records_new : ∀ (n : String) (record : SymbolRecord), ix'.records[n]? = some record →
    ix.records[n]? = none →
      n ∈ s.recorded ∧ record.all = ∅ ∧ record.constants = ∅ ∧ record.floats = ∅
  names_eq : ix'.atoms.names =
    ix.atoms.names ++ (s.mentions.filter (· ∉ ix.atoms.names)).eraseDups

/-- The segment can be added if the order compares it with those that are tracked. -/
theorem Exact.exists_add_of_totalOn (hix : ix.Exact)
    (horder : ix.order.TotalOn (insert id {id' | id' ∈ ix.tracked})) (r : Revision) :
    ∃ ix', ix.add id r = .ok ix' := by
  have hwithin : ix.Within fun _ => insert id {id' | id' ∈ ix.tracked} := fun k e he =>
    Set.mem_insert_of_mem id (tracked_of_mem_declared ((hix.content k).mem_iff.mp he))
  obtain ⟨ix', hadd, -⟩ := exists_add (r := r) hwithin fun _ _ =>
    ⟨Set.mem_insert id _, horder.answersOn⟩
  exact ⟨ix', hadd⟩

/-- Slots that stand in the order come back as they were: the entries that arrive are sorted in
among them, and dropping these leaves the others in sequence. -/
theorem Added.slot_remove (hadded : Added ix id r ix') (hix : ix.Exact) (hix' : ix'.Exact)
    (horder : ix.order.TotalOn (insert id {id' | id' ∈ ix.tracked})) {k : SlotKey}
    (hsorted : k.Ascending ix.order (ix.slot k).entries) : (ix'.remove id).slot k = ix.slot k := by
  have hslot := hadded.slots ix'.atoms (List.prefix_refl _) k
  have htracked : ∀ id' ∈ ix'.tracked, id' ∈ insert id {id' | id' ∈ ix.tracked} := by
    intro id' hid'
    rw [hadded.tracked_eq, Std.ExtTreeMap.mem_insert, Std.compare_eq_iff_eq] at hid'
    exact hid'.imp_left Eq.symm
  have htotal : TotalOn (Slot.byAddress (k.compare ix.order))
      {e | e ∈ (ix.slot k).entries ++ k.declared ix'.atoms id r.content} := by
    rw [← hadded.order_eq] at hslot horder ⊢
    exact hix'.totalOn_step (horder.mono htracked) hslot
  -- the entries that stay are those from before, and the entries that go are the new ones
  have hstay : (ix.slot k).entries.filter (fun e => k.segment e.address ≠ id) =
      (ix.slot k).entries := by
    rw [← hix.remove_slot id k, remove_of_untracked hadded.fresh]
  have hgo : (k.declared ix'.atoms id r.content).filter (fun e => k.segment e.address ≠ id) = [] :=
    List.filter_eq_nil_iff.mpr fun e he => by simp [SlotKey.segment_of_mem_declared he]
  have hleft := (Slot.stableSort_insertAll_of_sorted htotal hsorted hslot).filter
    fun e => k.segment e.address ≠ id
  rw [List.filter_append, hstay, hgo, List.append_nil, ← hix'.remove_slot id k] at hleft
  have hentries := StableSort.unique (htotal.mono fun e he => List.mem_append_left _ he) hleft
    (StableSort.refl hsorted)
  exact congrArg Slot.mk hentries

/-- A record that was there is known again by its handle, which it keeps while the table grows, and
by its slots. -/
theorem Added.record_remove (hadded : Added ix id r ix') (hix : ix.Exact) (hix' : ix'.Exact)
    {n : String} {record : SymbolRecord} (hrecord : ix.records[n]? = some record)
    (hn : n ∈ ix'.records) (hslots : ∀ k, (ix'.remove id).slot k = ix.slot k) :
    (ix'.remove id).record n = record := by
  have hstored := hix'.tidy.getElem?_records hn
  have hhandle := hix.tidy.lookup?_mono hadded.names_grow hrecord
  rw [record_eq, atom_record_remove, record_of_getElem? hstored, AtomTable.atomOf, hhandle,
    hslots, hslots, hslots]
  simp only [slot, record_of_getElem? hrecord]
  rfl

/-- **An addition that is taken back** leaves the index as it was, apart from names and empty
records. -/
theorem Exact.restored_of_add (hix : ix.Exact) (hblank : ix.NoBlank)
    (hsorted : ∀ k : SlotKey, k.Ascending ix.order (ix.slot k).entries)
    (hfresh : ix.tracked[id]? = none)
    (horder : ix.order.TotalOn (insert id {id' | id' ∈ ix.tracked}))
    (hadd : ix.add id r = .ok ix') : ix.Restored r.content (ix'.remove id) := by
  have hadded := added_of_add hfresh hadd
  have hix' := hix.add hadd
  have hslots : ∀ k, (ix'.remove id).slot k = ix.slot k := fun k =>
    hadded.slot_remove hix hix' horder (hsorted k)
  obtain ⟨horder', htracked, hatoms⟩ := ix'.remove_frame id
  refine ⟨horder'.trans hadded.order_eq, ?tracked, ?labels, hslots .disjoints, ?kept, ?new, ?names⟩
  case tracked =>
    refine Std.ExtTreeMap.ext_getElem? fun id' => ?_
    rw [htracked, hadded.tracked_eq, Std.ExtTreeMap.getElem?_erase, Std.ExtTreeMap.getElem?_insert]
    by_cases hid : id = id'
    · simp [← hid, hfresh]
    · simp [hid]
  case labels => exact (hix'.remove id).tidy.labels_eq hix.tidy fun l => hslots (.label l)
  case kept =>
    intro n record hrecord
    have hn : n ∈ ix.records := by
      rw [Std.ExtTreeMap.mem_iff_isSome_getElem?, hrecord]
      rfl
    have hview := hadded.record_remove hix hix' hrecord
      ((mem_records_add hfresh hadd).mpr (.inl hn)) hslots
    -- a record that is not blank is not dropped
    have hne := hblank n record hrecord
    rw [← hview] at hne ⊢
    exact getElem?_records_of_ne_blank hne
  case new =>
    intro n record hrecord hnone
    have hstored : n ∈ (ix'.remove id).records := by
      rw [Std.ExtTreeMap.mem_iff_isSome_getElem?, hrecord]
      rfl
    have hrecorded := (mem_records_add hfresh hadd).mp (hix'.mem_records_of_remove hstored)
    refine ⟨hrecorded.resolve_left fun hn => ?_, ?_⟩
    · rw [Std.ExtTreeMap.mem_iff_isSome_getElem?, hnone] at hn
      cases hn
    · -- a name without a record has empty slots
      have hall := hslots (.all n)
      have hconstants := hslots (.constants n)
      have hfloats := hslots (.floats n)
      simp only [slot, record_of_getElem? hrecord] at hall hconstants hfloats
      rw [Index.record, hnone] at hall hconstants hfloats
      exact ⟨hall, hconstants, hfloats⟩
  case names =>
    rw [hatoms, (hix.tidy.add hfresh hadd).2, AtomTable.names_internAll, Segment.names_eq_mentions]

/-! ## §3 A removal that is taken back -/

/-- A segment whose names are all interned leaves the table as it is. -/
theorem atoms_add_of_interned (hix : ix.Exact) (hfresh : ix.tracked[id]? = none)
    (hinterned : ∀ n ∈ r.content.names, n ∈ ix.atoms.names) (hadd : ix.add id r = .ok ix') :
    ix'.atoms = ix.atoms := by
  have hnone : r.content.names.filter (· ∉ ix.atoms.names) = [] :=
    List.filter_eq_nil_iff.mpr fun n hn => by simpa using hinterned n hn
  have hnames := AtomTable.names_internAll ix.atoms r.content.names
  rw [hnone, List.eraseDups_nil, List.append_nil] at hnames
  rw [(hix.tidy.add hfresh hadd).2]
  exact AtomTable.eq_of_names_eq hnames

/-- Removing a segment and tracking it again is seen nowhere in the map of tracked segments. -/
theorem insert_erase_tracked {m : Std.ExtTreeMap SegmentId Revision} (h : m[id]? = some r) :
    (m.erase id).insert id r = m := by
  refine Std.ExtTreeMap.ext_getElem? fun id' => ?_
  rw [Std.ExtTreeMap.getElem?_insert, Std.ExtTreeMap.getElem?_erase]
  by_cases hid : id = id'
  · simp [← hid, h]
  · simp [hid]

/-- **A removal that is taken back** leaves the index as it was: under a strict order each slot has
one arrangement in document order. -/
theorem ArrangedBy.add_remove (h : ix.ArrangedBy ix.order) (hix : ix.Exact)
    (ho : ix.order.StrictOn {id' | id' ∈ ix.tracked}) (hr : ix.tracked[id]? = some r) :
    (ix.remove id).add id r = .ok ix := by
  obtain ⟨horder, htracked, hatoms⟩ := ix.remove_frame id
  have hid : id ∈ ix.tracked := by
    rw [Std.ExtTreeMap.mem_iff_isSome_getElem?, hr]
    rfl
  have hfresh : (ix.remove id).tracked[id]? = none := by simp [htracked]
  -- the segment can be added again, since it is compared with tracked ones only
  obtain ⟨ix', hadd⟩ : ∃ ix', (ix.remove id).add id r = .ok ix' := by
    refine (hix.remove id).exists_add_of_totalOn (horder ▸ ho.total.mono fun id' hid' => ?_) r
    rcases hid' with rfl | hid'
    · exact hid
    · exact mem_tracked_of_remove hid'
  have hadded := added_of_add hfresh hadd
  have hix' := (hix.remove id).add hadd
  have horder' : ix'.order = ix.order := hadded.order_eq.trans horder
  have htracked' : ix'.tracked = ix.tracked := by
    rw [hadded.tracked_eq, htracked, insert_erase_tracked hr]
  have hatoms' : ix'.atoms = ix.atoms := by
    rw [atoms_add_of_interned (hix.remove id) hfresh (hatoms ▸ hix.interned id r hr) hadd, hatoms]
  have hdeclared : ∀ k, ix'.declared k = ix.declared k := by
    intro k
    rw [declared, declared, htracked', hatoms']
  -- both states are in document order, and there is only one
  have harranged : ix'.ArrangedBy ix.order := by
    rw [← horder']
    refine (horder.symm ▸ h.remove hix ho id).add (hix.remove id) hadd ?_
    rw [horder, htracked']
    exact ho
  have hslots : ∀ k, ix'.slot k = ix.slot k := fun k => congrArg Slot.mk <|
    StableSort.unique (totalOn_declared ho.total k) (hdeclared k ▸ harranged k) (h k)
  have hrecords : ∀ n, n ∈ ix'.records ↔ n ∈ ix.records := by
    intro n
    rw [mem_records_add hfresh hadd]
    constructor
    · rintro (hn | hn)
      · exact hix.mem_records_of_remove hn
      · exact hix.mem_records_of_recorded hr hn
    · intro hn
      by_cases hrecorded : n ∈ r.content.recorded
      · exact .inr hrecorded
      · rw [Std.ExtTreeMap.mem_iff_isSome_getElem?, ← getElem?_records_remove hr hrecorded] at hn
        exact .inl (Std.ExtTreeMap.mem_iff_isSome_getElem?.mpr hn)
  rw [hadd, hix'.tidy.ext hix.tidy horder' hatoms' htracked' hrecords hslots]

/-! ## §4 The whole account -/

/-- **Adding and removing a segment undo each other**, in every state that is reached under total
preorders and whose slots stand in the adopted order. A segment under a new id can be added if the
order is a total preorder with that id, and removing it restores everything but the names and the
records without entries that it leaves behind. A tracked segment can be removed and added again, and
if the order is strict on what is tracked the state is the same as before. -/
theorem add_remove_undo (hix : ix.Orderly)
    (hsorted : ∀ k : SlotKey, k.Ascending ix.order (ix.slot k).entries) :
    (∀ (id : SegmentId) (r : Revision), ix.tracked[id]? = none →
      ix.order.TotalOn (insert id {id' | id' ∈ ix.tracked}) →
      ∃ ix', ix.add id r = .ok ix' ∧ ix.Restored r.content (ix'.remove id)) ∧
    ∀ (id : SegmentId) (r : Revision), ix.tracked[id]? = some r →
      ix.order.StrictOn {id' | id' ∈ ix.tracked} → (ix.remove id).add id r = .ok ix := by
  have hexact := hix.reachable.exact
  constructor
  · intro id r hfresh horder
    obtain ⟨ix', hadd⟩ := hexact.exists_add_of_totalOn horder r
    exact ⟨ix', hadd, hexact.restored_of_add hix.reachable.noBlank hsorted hfresh horder hadd⟩
  · intro id r hr horder
    exact (hix.inDeclaredOrder.arrangedBy hexact horder hsorted).add_remove hexact horder hr

/-- The lower segment of the sample declares `x` twice at one address, and still it comes back as it
was. The upper one leaves its symbol `z` behind. -/
theorem add_remove_undo_both :
    ∃ ix ix', (new .empty).update (Sample.both.without 2) = .ok ix ∧
      ix.add 2 Sample.upper = .ok ix' ∧ ix.Restored Sample.upper.content (ix'.remove 2) ∧
      (ix.remove 1).add 1 Sample.lower = .ok ix := by
  have hmem : ∀ id ∈ (Sample.both.without 2).segments, id ∈ Sample.both.segments := fun _ hid =>
    Std.ExtTreeMap.mem_of_mem_erase hid
  have hstrict : (Sample.both.without 2).order.StrictOn
      {id | id ∈ (Sample.both.without 2).segments} := Sample.strictOn_both.mono hmem
  obtain ⟨ix, hix⟩ := exists_update (exact_new .empty) hstrict.total
  obtain ⟨-, htracked, harranged⟩ := arranged_of_first_update hstrict (step_of_update hix)
  have horder := ((exact_new .empty).frame_of_update (step_of_update hix)).1
  rw [← horder] at harranged hstrict
  rw [← htracked] at hstrict hmem
  have horderly := (Orderly.new .empty).step (step_of_update hix) hstrict.total
  obtain ⟨hadd, hremove⟩ := add_remove_undo horderly fun k => (harranged k).sorted
  obtain ⟨ix', hadd, hrestored⟩ := hadd 2 Sample.upper (by rw [htracked]; decide +kernel)
    (horder ▸ Sample.strictOn_both.total.mono fun id hid => by
      rcases hid with rfl | hid
      · exact Std.ExtTreeMap.mem_insert_self
      · exact hmem id hid)
  exact ⟨ix, ix', hix, hadd, hrestored,
    hremove 1 Sample.lower (by rw [htracked]; decide +kernel) hstrict⟩

end Index

end NameIndex
