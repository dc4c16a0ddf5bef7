import NameIndex.Proofs.Reachability

/-!
# What an update does to a slot

An update sorts a slot only when it puts something into it. A slot that no added segment declares for
keeps its arrangement, even when the adopted order ranks its segments otherwise; a slot with arrivals
is sorted as a whole. The many sorts, one after each arrival, come to one stable sort at the end, and
it does not matter which order had arranged the slot before.

## Main results

* `Index.slot_of_update` — the effect of an update on each slot.
-/

namespace NameIndex

open Sorting

namespace Index

variable {ix ix' : Index} {c : Collection} {p : UpdatePlan}

theorem Plans.segment_of_mem_arrivals (hplan : ix.Plans c p) {t : AtomTable} {k : SlotKey}
    {e : Entry k.Address k.Value} (he : e ∈ p.arrivals t k) : k.segment e.address ∈ c.segments := by
  obtain ⟨⟨id, r⟩, hfresh, hdeclared⟩ := List.mem_flatMap.mp he
  rw [SlotKey.segment_of_mem_declared hdeclared]
  exact hplan.mem_segments hfresh

/-- A total preorder of the segments compares the kept entries and the arrivals of a slot. -/
theorem Plans.totalOn_entries (hplan : ix.Plans c p) (hix : ix.Exact)
    (horder : c.order.TotalOn {id | id ∈ c.segments}) (t : AtomTable) (k : SlotKey) :
    TotalOn (Slot.byAddress (k.compare c.order)) {e | e ∈ ix.kept c k ++ p.arrivals t k} := by
  have hentries : TotalOn (Slot.byAddress (V := k.Value) (k.compare c.order))
      (Set.preimage Entry.address {a | k.segment a ∈ {id | id ∈ c.segments}}) :=
    (SlotKey.totalOn horder k).comap Entry.address
  refine hentries.mono fun e he => ?_
  rcases List.mem_append.mp he with hkept | harrived
  · exact segment_of_mem_kept hix hkept
  · exact hplan.segment_of_mem_arrivals harrived

/-- **The effect of an update on each slot.** The plan adds, each once, the segments that the
collection holds otherwise than the index. A slot for which they declare nothing keeps what it has
of current segments, in unchanged sequence and whatever the order says; any other slot is the stable
sort, by the order of the collection, of what is kept followed by what arrives. -/
theorem slot_of_update (hix : ix.Reachable) (hplan : ix.Plans c p)
    (hrun : ix.carryOut c.order p = .ok ix') (horder : c.order.TotalOn {id | id ∈ c.segments}) :
    (∀ id r, (id, r) ∈ p.fresh ↔ c.segments[id]? = some r ∧ ¬ ix.isCurrent c id) ∧
    (p.fresh.map Prod.fst).Nodup ∧
    ∀ k : SlotKey,
      (p.arrivals ix'.atoms k = [] → (ix'.slot k).entries = ix.kept c k) ∧
      (p.arrivals ix'.atoms k ≠ [] → StableSort (Slot.byAddress (k.compare c.order))
        (ix.kept c k ++ p.arrivals ix'.atoms k) (ix'.slot k).entries) := by
  have hupdated := updated_of_carryOut hix.exact hplan hrun
  refine ⟨fun id r => ?_, hplan.nodup_fresh, fun k => ⟨fun hnone => ?_, fun hsome => ?_⟩⟩
  · rw [hplan.mem_fresh, isCurrent_iff]
    refine and_congr_right fun hr => ?_
    rw [hr]
  · -- without arrivals nothing is inserted, hence nothing sorted
    have hslot := hupdated.slots k
    rw [hnone, Slot.insertAll_nil] at hslot
    rw [← Except.ok.inj hslot]
  · -- with arrivals the last sort sees everything, whatever arranged the slot before
    apply Slot.stableSort_insertAll _ hsome (hupdated.slots k)
    exact hplan.totalOn_entries hix.exact horder ix'.atoms k

end Index

/-- A segment that declares `x` and nothing else. -/
def Sample.third : Revision := ⟨2, { Segment.empty with symbols := [⟨"x", .variable, 9, 0⟩] }⟩

/-- The sample with its order turned around and a third segment at the end. -/
def Sample.turned : Collection :=
  ⟨.listed (.ofDistinct [1, 2, 3] (by decide)), both.segments.insert 3 third⟩

/-- Turning the order around leaves the label `ax` as it was arranged; the symbol `x`, which the third
segment declares as well, is sorted anew. -/
theorem Index.slot_of_update_turned :
    ∃ ix ix', (new .empty).update Sample.both = .ok ix ∧ ix.update Sample.turned = .ok ix' ∧
      (ix'.slot (.label "ax")).entries = ix.kept Sample.turned (.label "ax") ∧
      StableSort (Slot.byAddress (SlotKey.compare Sample.turned.order (.all "x")))
        (ix.kept Sample.turned (.all "x") ++ [⟨.of 3 9 0, .variable⟩])
        (ix'.slot (.all "x")).entries := by
  have hthird : ((new .empty).update Sample.both >>= (·.plan Sample.turned)).toOption =
      some ⟨[], [(3, Sample.third)]⟩ := by decide +kernel
  obtain ⟨ix, hix, hplan⟩ := bind_eq_ok_iff.mp (eq_ok_of_toOption hthird)
  have hreach := (Reachable.new .empty).step (step_of_update hix)
  have horder : Sample.turned.order.TotalOn {id | id ∈ Sample.turned.segments} := by
    refine (Order.strictOn_listed _).total.mono fun id hid => ?_
    rcases Std.ExtTreeMap.mem_insert.mp hid with heq | hid
    · simp [← Std.compare_eq_iff_eq.mp heq]
    · rcases Sample.mem_both hid with rfl | rfl <;> simp
  obtain ⟨ix', hix'⟩ := exists_update hreach.exact horder
  obtain ⟨p, hp, hrun⟩ := update_eq_ok_iff.mp hix'
  obtain rfl := Except.ok.inj (hplan.symm.trans hp)
  obtain ⟨-, -, hslots⟩ := slot_of_update hreach (plans_of_plan hplan) hrun horder
  refine ⟨ix, ix', hix, hix', ?_, ?_⟩
  · exact (hslots (.label "ax")).1 rfl
  · exact (hslots (.all "x")).2 (List.cons_ne_nil _ _)

end NameIndex
