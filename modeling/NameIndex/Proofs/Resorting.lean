import NameIndex.Proofs.UpdateEffect

/-!
# Which changes sort a slot

A change takes entries out of a slot and puts entries into it. Putting in sorts: the slot is
arranged as a whole by the order that is then adopted. Taking out does not: the entries that stay,
stay where they are. So a slot that has only lost entries may go on showing the arrangement of an
order that was given up long ago, and it stands in the adopted order only if what is left happened
to stand in it.

## Main definitions

* `SlotKey.Ascending` — entries stand in the arrangement of an order.
* `Index.Inserts`, `Index.remaining` — what a change puts into a slot and what it leaves there.

## Main results

* `Index.Exact.slot_of_step` — what any change does to a slot.
* `Index.ascending_iff_of_step` — when a slot stands in the adopted order after a change.
* `Index.not_ascending_after_removal` — a removal that leaves the arrangement of the order before.
-/

namespace NameIndex

open Sorting

/-! ## §1 What a change puts in and what it leaves -/

/-- The entries stand ascending in the order. -/
def SlotKey.Ascending (k : SlotKey) (o : Order) (es : List (Entry k.Address k.Value)) : Prop :=
  es.Pairwise fun x y => precedes (Slot.byAddress (k.compare o)) x y

instance (k : SlotKey) (o : Order) (es : List (Entry k.Address k.Value)) :
    Decidable (k.Ascending o es) :=
  inferInstanceAs (Decidable (List.Pairwise _ _))

theorem SlotKey.declared_eq_nil_iff {k : SlotKey} {t : AtomTable} {id : SegmentId} {s : Segment} :
    k.declared t id s = [] ↔ k.sources s = [] :=
  List.map_eq_nil_iff

/-- The order of the collection is a list that has every segment of the collection. -/
def Collection.Covered (c : Collection) : Prop :=
  ∃ list : ListOrder, c.order = .listed list ∧ ∀ id ∈ c.segments, id ∈ list.ids

theorem Collection.Covered.strictOn {c : Collection} (h : c.Covered) :
    c.order.StrictOn {id | id ∈ c.segments} := by
  obtain ⟨list, horder, hcovers⟩ := h
  rw [horder]
  exact (Order.strictOn_listed list).mono hcovers

namespace Index

variable {ix ix' : Index} {change : Change}

/-- The change takes the tracked segment out of the index. -/
def drops (ix : Index) : Change → SegmentId → Bool
  | .update c, id => !ix.isCurrent c id
  | .add _ _, _ => false
  | .remove gone, id => id = gone

/-- The change brings the segment into the index. -/
def Brings (ix : Index) : Change → SegmentId → Revision → Prop
  | .update c, id, r => c.segments[id]? = some r ∧ ¬ ix.isCurrent c id
  | .add new s, id, r => id = new ∧ r = s ∧ ¬ ix.contains new
  | .remove _, _, _ => False

/-- The change puts an entry into the slot: a segment that it brings declares something for it. -/
def Inserts (ix : Index) (change : Change) (k : SlotKey) : Prop :=
  ∃ (id : SegmentId) (r : Revision), ix.Brings change id r ∧ k.sources r.content ≠ []

/-- What the change leaves of a slot, as it stands. -/
def remaining (ix : Index) (change : Change) (k : SlotKey) : List (Entry k.Address k.Value) :=
  (ix.slot k).entries.filter fun e => !ix.drops change (k.segment e.address)

theorem remaining_update (ix : Index) (c : Collection) (k : SlotKey) :
    ix.remaining (.update c) k = ix.kept c k := by
  simp [remaining, kept, drops]

theorem Plans.mem_fresh_iff_brings {c : Collection} {p : UpdatePlan} (hplan : ix.Plans c p)
    {id : SegmentId} {r : Revision} : (id, r) ∈ p.fresh ↔ ix.Brings (.update c) id r := by
  rw [hplan.mem_fresh, Brings, isCurrent_iff]
  constructor
  · rintro ⟨hr, hne⟩
    exact ⟨hr, by rwa [hr]⟩
  · rintro ⟨hr, hne⟩
    exact ⟨hr, by rwa [hr] at hne⟩

/-- What arrives with an update arrives with a segment that the update brings. -/
theorem Plans.arrivals_ne_nil_iff {c : Collection} {p : UpdatePlan} (hplan : ix.Plans c p)
    (t : AtomTable) (k : SlotKey) : p.arrivals t k ≠ [] ↔ ix.Inserts (.update c) k := by
  simp only [UpdatePlan.arrivals, ne_eq, List.flatMap_eq_nil_iff, Prod.forall, not_forall,
    SlotKey.declared_eq_nil_iff, hplan.mem_fresh_iff_brings, exists_prop, Inserts]

/-- **What a change does to a slot.** The entries that it leaves are joined by those that it puts
in, one after the other and each with a sort by the order adopted then. -/
theorem Exact.slot_of_step (hix : ix.Exact) (hstep : Step ix change ix') (k : SlotKey) :
    ∃ arrivals, (arrivals ≠ [] ↔ ix.Inserts change k) ∧
      Slot.insertAll (k.compare ix'.order) ⟨ix.remaining change k⟩ arrivals = .ok (ix'.slot k) := by
  cases hstep with
  | @update c p _ hplan hrun =>
    have hupdated := updated_of_carryOut hix hplan hrun
    refine ⟨p.arrivals ix'.atoms k, hplan.arrivals_ne_nil_iff ix'.atoms k, ?_⟩
    rw [remaining_update, hupdated.order_eq]
    exact hupdated.slots k
  | @add id r _ hadd =>
    have hremaining : ix.remaining (.add id r) k = (ix.slot k).entries := by
      simp [remaining, drops]
    rw [hremaining]
    cases hcontains : ix.contains id with
    | true =>
      -- an id that is tracked already brings nothing
      rw [add_of_contains hcontains] at hadd
      obtain rfl := Except.ok.inj hadd
      refine ⟨[], ?_, rfl⟩
      simp [Inserts, Brings, hcontains]
    | false =>
      have hadded := added_of_add (contains_eq_false_iff.mp hcontains) hadd
      refine ⟨k.declared ix'.atoms id r.content, ?_, ?_⟩
      · simp [Inserts, Brings, hcontains, SlotKey.declared_eq_nil_iff]
      · rw [hadded.order_eq]
        exact hadded.slots ix'.atoms (List.prefix_refl _) k
  | remove id =>
    refine ⟨[], by simp [Inserts, Brings], ?_⟩
    have hslot : ix.remaining (.remove id) k = ((ix.remove id).slot k).entries := by
      rw [hix.remove_slot id k]
      simp [remaining, drops]
    rw [Slot.insertAll_nil, hslot]

theorem Exact.frame_of_update {c : Collection} (hix : ix.Exact)
    (hstep : Step ix (.update c) ix') : ix'.order = c.order ∧ ix'.tracked = c.segments := by
  cases hstep with
  | update hplan hrun =>
    have hupdated := updated_of_carryOut hix hplan hrun
    exact ⟨hupdated.order_eq, hupdated.tracked_eq⟩

/-- After an update under a covering list, the adopted order is strict on the tracked segments. -/
theorem Exact.strictOn_of_update {c : Collection} (hix : ix.Exact)
    (hc : c.Covered) (hstep : Step ix (.update c) ix') :
    ix'.order.StrictOn {id | id ∈ ix'.tracked} := by
  obtain ⟨horder, htracked⟩ := hix.frame_of_update hstep
  rw [horder, htracked]
  exact hc.strictOn

/-! ## §2 When a slot stands in the adopted order -/

/-- After a change every entry belongs to a segment that the index tracks, so an order that is total
on these compares what the change left with what it put in. -/
theorem Exact.totalOn_step (hix' : ix'.Exact) (horder : ix'.order.TotalOn {id | id ∈ ix'.tracked})
    {k : SlotKey} {s : Slot k.Address k.Value} {arrivals : List (Entry k.Address k.Value)}
    (h : Slot.insertAll (k.compare ix'.order) s arrivals = .ok (ix'.slot k)) :
    TotalOn (Slot.byAddress (k.compare ix'.order)) {e | e ∈ s.entries ++ arrivals} := by
  have hentries : TotalOn (Slot.byAddress (V := k.Value) (k.compare ix'.order))
      (Set.preimage Entry.address {a | k.segment a ∈ {id | id ∈ ix'.tracked}}) :=
    (SlotKey.totalOn horder k).comap Entry.address
  refine hentries.mono fun e he => ?_
  have hslot : e ∈ (ix'.slot k).entries := (Slot.insertAll_perm h).mem_iff.mpr he
  exact tracked_of_mem_declared ((hix'.content k).mem_iff.mp hslot)

/-- A slot into which a change puts nothing keeps what the change leaves, as it stands. -/
theorem Exact.slot_of_not_inserts (hix : ix.Exact) (hstep : Step ix change ix') {k : SlotKey}
    (h : ¬ ix.Inserts change k) : (ix'.slot k).entries = ix.remaining change k := by
  obtain ⟨arrivals, harrivals, hslot⟩ := hix.slot_of_step hstep k
  have hnone : arrivals = [] := not_not.mp fun hne => h (harrivals.mp hne)
  rw [hnone, Slot.insertAll_nil] at hslot
  rw [← Except.ok.inj hslot]

/-- A slot into which a change puts an entry is sorted: the last insertion sees what was left
together with all that came in. -/
theorem Exact.ascending_of_inserts (hix : ix.Exact) (hstep : Step ix change ix')
    (horder : ix'.order.TotalOn {id | id ∈ ix'.tracked}) {k : SlotKey} (h : ix.Inserts change k) :
    k.Ascending ix'.order (ix'.slot k).entries := by
  obtain ⟨arrivals, harrivals, hslot⟩ := hix.slot_of_step hstep k
  have htotal := (hix.step hstep).totalOn_step horder hslot
  exact (Slot.stableSort_insertAll htotal (harrivals.mpr h) hslot).sorted

/-- **When a slot stands in the adopted order.** Right after a change, under an order that is total
on the tracked segments, a slot is ascending exactly if the change has put an entry into it or what
the change has left of it was ascending in that order before. -/
theorem ascending_iff_of_step (hix : ix.Reachable) (hstep : Step ix change ix')
    (horder : ix'.order.TotalOn {id | id ∈ ix'.tracked}) (k : SlotKey) :
    k.Ascending ix'.order (ix'.slot k).entries ↔
      ix.Inserts change k ∨ k.Ascending ix'.order (ix.remaining change k) := by
  by_cases hinserts : ix.Inserts change k
  · exact iff_of_true (hix.exact.ascending_of_inserts hstep horder hinserts) (Or.inl hinserts)
  · -- nothing is put in, hence nothing is sorted
    rw [hix.exact.slot_of_not_inserts hstep hinserts]
    simp [hinserts]

end Index

theorem Sample.covered_both : both.Covered := by
  refine ⟨.ofDistinct [2, 1] (by decide), rfl, fun id hid => ?_⟩
  rcases mem_both hid with rfl | rfl <;> simp

theorem Sample.mem_turned {id : SegmentId} (h : id ∈ turned.segments) :
    id = 1 ∨ id = 2 ∨ id = 3 := by
  rcases Std.ExtTreeMap.mem_insert.mp h with heq | hboth
  · exact Or.inr (Or.inr (Std.compare_eq_iff_eq.mp heq).symm)
  · exact (mem_both hboth).imp_right Or.inl

theorem Sample.covered_turned : turned.Covered := by
  refine ⟨.ofDistinct [1, 2, 3] (by decide), rfl, fun id hid => ?_⟩
  rcases mem_turned hid with rfl | rfl | rfl <;> simp

namespace Index

/-- The third segment of the turned sample declares `x`, so the update that brings it sorts `x` by
the turned order, although another order had arranged it. -/
theorem ascending_iff_of_step_turned :
    ∃ ix ix', (new .empty).update Sample.both = .ok ix ∧ ix.update Sample.turned = .ok ix' ∧
      ix.Inserts (.update Sample.turned) (.all "x") ∧
      (SlotKey.all "x").Ascending ix'.order (ix'.slot (.all "x")).entries := by
  obtain ⟨ix, hix⟩ := exists_update (exact_new .empty) Sample.covered_both.strictOn.total
  have hreach := (Reachable.new .empty).step (step_of_update hix)
  obtain ⟨ix', hix'⟩ := exists_update hreach.exact Sample.covered_turned.strictOn.total
  have htracked := ((exact_new .empty).frame_of_update (step_of_update hix)).2
  have hinserts : ix.Inserts (.update Sample.turned) (.all "x") := by
    refine ⟨3, Sample.third, ⟨by decide +kernel, ?_⟩, by decide⟩
    rw [isCurrent_iff, htracked]
    decide +kernel
  have horder := hreach.exact.strictOn_of_update Sample.covered_turned (step_of_update hix')
  have hiff := ascending_iff_of_step hreach (step_of_update hix') horder.total (.all "x")
  exact ⟨ix, ix', hix, hix', hinserts, hiff.mpr (Or.inl hinserts)⟩

/-- **Removals do not sort.** Both orders list every segment of their collection. The first update
arranges `x` by the first order and the second takes an entry out of it; what is left still follows
the first order, which the second one turns around. -/
theorem not_ascending_after_removal :
    Sample.turned.Covered ∧ Sample.both.Covered ∧
      ∃ ix ix', (new .empty).update Sample.turned = .ok ix ∧ ix.update Sample.both = .ok ix' ∧
        ix.remaining (.update Sample.both) (.all "x") ≠ (ix.slot (.all "x")).entries ∧
        ¬ (SlotKey.all "x").Ascending ix'.order (ix'.slot (.all "x")).entries := by
  let pair : Except Fault (Index × Index) := do
    let ix ← (new .empty).update Sample.turned
    let ix' ← ix.update Sample.both
    return (ix, ix')
  have hpair : pair.toOption.map (fun q => decide
      (q.1.remaining (.update Sample.both) (.all "x") ≠ (q.1.slot (.all "x")).entries ∧
        ¬ (SlotKey.all "x").Ascending q.2.order (q.2.slot (.all "x")).entries)) = some true := by
    decide +kernel
  obtain ⟨⟨ix, ix'⟩, hsome, hdecided⟩ := Option.map_eq_some_iff.mp hpair
  obtain ⟨hremoved, hstale⟩ := of_decide_eq_true hdecided
  obtain ⟨ix₁, hix, hrest⟩ := bind_eq_ok_iff.mp (eq_ok_of_toOption hsome)
  obtain ⟨ix₂, hix', hrest⟩ := bind_eq_ok_iff.mp hrest
  obtain ⟨rfl, rfl⟩ := Prod.mk.inj (Except.ok.inj hrest)
  exact ⟨Sample.covered_turned, Sample.covered_both, ix₁, ix₂, hix, hix', hremoved, hstale⟩

end Index

end NameIndex
