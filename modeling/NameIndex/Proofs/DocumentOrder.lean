import NameIndex.Proofs.Reachability

/-!
# Slots in document order

A slot is **in document order** when it is the stable sort of what the tracked segments declare for
it. Under an order that ranks the segments strictly, entries of one address come from one segment, so
the stable sort does not depend on the sequence in which the segments were added: it is a canonical
form of the slot.

## Architecture

1. Each kind of change keeps the slots in document order: removing a segment (`ArrangedBy.remove`),
   adding one (`ArrangedBy.add`), and adopting an order that ranks the tracked segments as before
   (`ArrangedBy.adopt`).
2. An update is a sequence of such changes (`ArrangedBy.carryOut`).
3. The canonical form is a list of declarations, without handles; two indexes with the same segments
   and the same order show the same list, each with its own handles (`ArrangedBy.entries_eq`).
-/

namespace NameIndex

open Sorting

namespace Index

variable {ix ix' : Index} {o o' : Order}

/-- Each slot is the stable sort of what the tracked segments declare for it. -/
def ArrangedBy (ix : Index) (o : Order) : Prop :=
  ∀ k : SlotKey, StableSort (Slot.byAddress (k.compare o)) (ix.declared k) (ix.slot k).entries

theorem arrangedBy_new (order o : Order) : (new order).ArrangedBy o := by
  intro k
  rw [slot_new]
  exact StableSort.refl List.Pairwise.nil

/-- Which order is adopted is not seen in the slots. -/
theorem arrangedBy_setOrder : ({ ix with order := o' } : Index).ArrangedBy o ↔ ix.ArrangedBy o := by
  refine forall_congr' fun k => ?_
  rw [slot_order ix o' k]
  exact Iff.rfl

/-- A total preorder of the tracked segments compares all declared entries. -/
theorem totalOn_declared (ho : o.TotalOn {id | id ∈ ix.tracked}) (k : SlotKey) :
    TotalOn (Slot.byAddress (k.compare o)) {e | e ∈ ix.declared k} :=
  ((SlotKey.totalOn ho k).comap Entry.address).mono fun _ he => tracked_of_mem_declared he

/-- Declarations that agree by blocks have the same stable sort. -/
theorem stableSort_of_sameBlocks {k : SlotKey} {xs ys : List (Entry k.Address k.Value)}
    (ho : o.StrictOn {id | id ∈ ix.tracked}) (hblocks : k.SameBlocks (ix.declared k) xs)
    (h : StableSort (Slot.byAddress (k.compare o)) xs ys) :
    StableSort (Slot.byAddress (k.compare o)) (ix.declared k) ys := by
  have htracked : ∀ e ∈ xs, k.segment e.address ∈ ix.tracked := fun e he =>
    tracked_of_mem_declared (hblocks.perm.mem_iff.mpr he)
  apply h.congr_list hblocks.symm.perm
  intro e he
  exact hblocks.symm.filter_ties ho htracked (htracked e he)

/-! ## §1 One change -/

theorem mem_tracked_of_remove {id id' : SegmentId} (h : id' ∈ (ix.remove id).tracked) :
    id' ∈ ix.tracked := by
  rw [(ix.remove_frame id).2.1] at h
  exact Std.ExtTreeMap.mem_of_mem_erase h

/-- **Removing a segment** keeps the slots in document order: nothing moves. -/
theorem ArrangedBy.remove (h : ix.ArrangedBy o) (hix : ix.Exact)
    (ho : o.StrictOn {id | id ∈ ix.tracked}) (id : SegmentId) : (ix.remove id).ArrangedBy o := by
  intro k
  have ho' : o.StrictOn {id' | id' ∈ (ix.remove id).tracked} :=
    ho.mono fun _ hid' => mem_tracked_of_remove hid'
  rw [hix.remove_slot id k]
  apply stableSort_of_sameBlocks ho' (ix.sameBlocks_remove id k)
  exact (h k).filter _

/-- **Adopting an order** that ranks the tracked segments as before keeps the slots in document
order, without a sort. -/
theorem ArrangedBy.adopt (h : ix.ArrangedBy o) (hranks : o.RanksAlike o' {id | id ∈ ix.tracked})
    (ho : o.TotalOn {id | id ∈ ix.tracked}) (ho' : o'.TotalOn {id | id ∈ ix.tracked}) :
    ix.ArrangedBy o' := by
  intro k
  have hcongr := fun x (hx : x ∈ ix.declared k) y (hy : y ∈ ix.declared k) =>
    SlotKey.precedes_ties_congr hranks ho ho' k (tracked_of_mem_declared hx)
      (tracked_of_mem_declared hy)
  exact (h k).congr_cmp (fun x hx y hy => (hcongr x hx y hy).1) fun x hx y hy => (hcongr x hx y hy).2

/-- **Adding a segment** under a strict order keeps the slots in document order: sorting what is
sorted already, with the new entries behind it, is sorting everything. -/
theorem ArrangedBy.add {id : SegmentId} {r : Revision} (h : ix.ArrangedBy ix.order) (hix : ix.Exact)
    (hadd : ix.add id r = .ok ix') (ho : ix.order.StrictOn {id | id ∈ ix'.tracked}) :
    ix'.ArrangedBy ix'.order := by
  rcases add_cases hadd with rfl | hadded
  · exact h
  · intro k
    have hblocks := hadded.sameBlocks hix.interned k
    have htotal : TotalOn (Slot.byAddress (k.compare ix.order))
        {e | e ∈ ix.declared k ++ k.declared ix'.atoms id r.content} :=
      (totalOn_declared ho.total k).mono fun e he => hblocks.perm.mem_iff.mpr he
    -- the slot holds what is declared, so it may stand for it where only members matter
    have hmem : ∀ e ∈ (ix.slot k).entries ++ k.declared ix'.atoms id r.content,
        e ∈ ix.declared k ++ k.declared ix'.atoms id r.content := fun e he =>
      ((h k).perm.append_right _).mem_iff.mp he
    have hinserted := Slot.stableSort_insertAll_of_sorted (htotal.mono hmem) (h k).sorted
      (hadded.slots ix'.atoms (List.prefix_refl _) k)
    rw [hadded.order_eq]
    exact stableSort_of_sameBlocks ho hblocks ((h k).append htotal hinserted)

/-! ## §2 An update -/

theorem ArrangedBy.removeAll (h : ix.ArrangedBy o) (hix : ix.Exact)
    (ho : o.StrictOn {id | id ∈ ix.tracked}) (ids : List SegmentId) :
    (ids.foldl Index.remove ix).ArrangedBy o := by
  induction ids generalizing ix with
  | nil => exact h
  | cons id ids ih =>
    apply ih (h.remove hix ho id) (hix.remove id)
    exact ho.mono fun _ hid' => mem_tracked_of_remove hid'

theorem ArrangedBy.addAll {ids : Set SegmentId} {fresh : List (SegmentId × Revision)}
    (h : ix.ArrangedBy ix.order) (hix : ix.Exact) (ho : ix.order.StrictOn ids)
    (htracked : ∀ id ∈ ix.tracked, id ∈ ids) (hfresh : ∀ q ∈ fresh, q.1 ∈ ids)
    (hadd : fresh.foldlM (fun ix (id, r) => ix.add id r) ix = .ok ix') :
    ix'.ArrangedBy ix'.order := by
  induction fresh generalizing ix with
  | nil => exact Except.ok.inj hadd ▸ h
  | cons q fresh ih =>
    rw [List.foldlM_cons] at hadd
    obtain ⟨ix₁, hone, hrest⟩ := bind_eq_ok_iff.mp hadd
    obtain ⟨horder, hgrow⟩ := add_frame hone
    have htracked₁ : ∀ id ∈ ix₁.tracked, id ∈ ids := by
      intro id hid
      rcases hgrow id hid with rfl | hold
      · exact hfresh q (by simp)
      · exact htracked id hold
    apply ih (h.add hix hone (ho.mono htracked₁)) (hix.add hone) (horder ▸ ho) htracked₁ _ hrest
    exact fun q hq => hfresh q (List.mem_cons_of_mem _ hq)

/-- **An update** that ranks the segments it retains as they were ranked brings every slot into the
document order of the collection. -/
theorem ArrangedBy.carryOut {c : Collection} {p : UpdatePlan} (h : ix.ArrangedBy ix.order)
    (hix : ix.Exact) (ho : ix.order.StrictOn {id | id ∈ ix.tracked})
    (hc : c.order.StrictOn {id | id ∈ c.segments})
    (hranks : ix.order.RanksAlike c.order
      {id | id ∈ ix.tracked ∧ ix.tracked[id]? = c.segments[id]?})
    (hplan : ix.Plans c p) (hrun : ix.carryOut c.order p = .ok ix') :
    ix'.ArrangedBy c.order := by
  have horder' := (updated_of_carryOut hix hplan hrun).order_eq
  have hadopted := hix.setOrder c.order
  have hexact := hadopted.removeAll p.stale
  -- the stale segments leave while the slots still follow the old order
  have hremoved := (arrangedBy_setOrder.mpr h).removeAll hadopted ho p.stale
  have hretained := fun (id : SegmentId) hid => @Plans.retained _ _ _ hplan id hid
  obtain ⟨horder, -, -⟩ := removeAll_frame { ix with order := c.order } p.stale
  rw [carryOut_eq] at hrun
  generalize p.stale.foldl Index.remove { ix with order := c.order } = mid
    at hexact hremoved hretained horder hrun
  -- what is left is what the collection retains, and there the two orders agree
  have hadopt : mid.ArrangedBy c.order := by
    apply hremoved.adopt
    · exact fun a ha b hb => hranks a ⟨(hretained a ha).1, (hretained a ha).2.1⟩ b
        ⟨(hretained b hb).1, (hretained b hb).2.1⟩
    · exact ho.total.mono fun id hid => (hretained id hid).1
    · exact hc.total.mono fun id hid => (hretained id hid).2.2
  have hadded := ArrangedBy.addAll (horder ▸ hadopt) hexact (horder ▸ hc)
    (fun id hid => (hretained id hid).2.2) (fun q hq => hplan.mem_segments hq) hrun
  exact horder' ▸ hadded

theorem strictOn_tracked_new (o order : Order) : o.StrictOn {id | id ∈ (new order).tracked} :=
  o.strictOn_empty.mono fun _ hid => Std.ExtTreeMap.not_mem_empty hid

/-- An index that one update has brought into step with a collection is in document order: nothing
was tracked before, so the order before does not matter. -/
theorem arranged_of_first_update {order : Order} {c : Collection}
    (hc : c.order.StrictOn {id | id ∈ c.segments}) (hstep : Step (new order) (.update c) ix) :
    ix.Exact ∧ ix.tracked = c.segments ∧ ix.ArrangedBy c.order := by
  cases hstep with
  | update hplan hrun =>
    have hupdated := updated_of_carryOut (exact_new order) hplan hrun
    refine ⟨(exact_new order).carryOut hrun, hupdated.tracked_eq, ?_⟩
    apply (arrangedBy_new order order).carryOut (exact_new order) (strictOn_tracked_new order order)
      hc _ hplan hrun
    exact fun a ha => absurd ha.1 Std.ExtTreeMap.not_mem_empty

end Index

/-! ## §3 The canonical form -/

/-- The declarations of a collection that belong to a slot, each with its segment; within a segment
in declared order. -/
def Collection.declarations (c : Collection) (k : SlotKey) : List (SegmentId × k.Source) :=
  c.segments.toList.flatMap fun (id, r) => (k.sources r.content).map (id, ·)

/-- Declarations compared by their addresses. -/
def SlotKey.compareSources (o : Order) (k : SlotKey) (x y : SegmentId × k.Source) :
    Except Fault Int :=
  k.compare o (k.address x.1 x.2) (k.address y.1 y.2)

/-- **The document order** of the declarations that belong to a slot: by address, and at one address
in declared order. -/
def Collection.Layout (c : Collection) (k : SlotKey) (ds : List (SegmentId × k.Source)) : Prop :=
  StableSort (k.compareSources c.order) (c.declarations k) ds

namespace Collection

variable {c : Collection} {k : SlotKey}

theorem mem_declarations {id : SegmentId} {d : k.Source} :
    (id, d) ∈ c.declarations k ↔
      ∃ r : Revision, c.segments[id]? = some r ∧ d ∈ k.sources r.content := by
  simp only [declarations, List.mem_flatMap, List.mem_map, Prod.exists, Prod.mk.injEq,
    Std.ExtTreeMap.mem_toList_iff_getElem?_eq_some]
  constructor
  · rintro ⟨id', r, hr, d', hd', rfl, rfl⟩
    exact ⟨r, hr, hd'⟩
  · rintro ⟨r, hr, hd⟩
    exact ⟨id, r, hr, d, hd, rfl, rfl⟩

/-- Declarations stand in segments of the collection. -/
theorem segment_mem_of_mem_declarations {q : SegmentId × k.Source} (h : q ∈ c.declarations k) :
    k.segment (k.address q.1 q.2) ∈ {id | id ∈ c.segments} := by
  obtain ⟨r, hr, -⟩ := mem_declarations.mp h
  rw [SlotKey.segment_address, Set.mem_ofPred_eq, Std.ExtTreeMap.mem_iff_isSome_getElem?, hr]
  rfl

theorem totalOn_declarations (hc : c.order.TotalOn {id | id ∈ c.segments}) (k : SlotKey) :
    TotalOn (k.compareSources c.order) {q | q ∈ c.declarations k} :=
  ((SlotKey.totalOn hc k).comap fun q : SegmentId × k.Source => k.address q.1 q.2).mono
    fun _ hq => segment_mem_of_mem_declarations hq

theorem exists_layout (hc : c.order.TotalOn {id | id ∈ c.segments}) (k : SlotKey) :
    ∃ ds, c.Layout k ds := by
  obtain ⟨ds, -, hds⟩ := exists_stableSort (totalOn_declarations hc k)
  exact ⟨ds, hds⟩

end Collection

/-- What an index with the segments of a collection declares is the declarations of the collection,
with its own handles. -/
theorem Index.declared_eq_map {ix : Index} {c : Collection} (htracked : ix.tracked = c.segments)
    (k : SlotKey) : ix.declared k = (c.declarations k).map fun q => k.entry ix.atoms q.1 q.2 := by
  simp only [declared, Collection.declarations, htracked, List.map_flatMap, SlotKey.declared,
    List.map_map, Function.comp_def]

/-- **The canonical form**: an index in document order shows the declarations of its segments in that
order, with the handles of its own table. -/
theorem Index.ArrangedBy.entries_eq {ix : Index} {c : Collection} {k : SlotKey}
    {ds : List (SegmentId × k.Source)} (h : ix.ArrangedBy c.order) (htracked : ix.tracked = c.segments)
    (hc : c.order.TotalOn {id | id ∈ c.segments}) (hds : c.Layout k ds) :
    (ix.slot k).entries = ds.map fun q => k.entry ix.atoms q.1 q.2 := by
  have hmapped : StableSort (Slot.byAddress (k.compare c.order)) (ix.declared k)
      (ds.map fun q => k.entry ix.atoms q.1 q.2) := by
    rw [declared_eq_map htracked]
    exact StableSort.map hds
  exact StableSort.unique (totalOn_declared (htracked ▸ hc) k) (h k) hmapped

end NameIndex
