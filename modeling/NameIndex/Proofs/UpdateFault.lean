import NameIndex.Proofs.Resorting

/-!
# When an update fails

An update under a listed order fails when the list is asked about a segment that it lacks. It is
asked on two occasions: when the new segments are arranged, and when an entry is put into a slot
that has entries of other segments. Neither occasion asks about all pairs, and which pairs come up
depends on how earlier orders have left the slots. Still the outcome depends on none of this: what a
sort has compared is connected (`Sorting.related_of_sort`), so a segment that the list lacks is met
by some comparison as soon as there is another segment to compare it with.

The stale segments are gone before the first entry is put in, so they are never asked about.

## Main definitions

* `Index.Unranked` — two segments are new and the list lacks one of them.
* `Index.Unplaced` — a new segment meets the entries of another one, and the list lacks one of the
  two.

## Main results

* `Index.update_faults_iff` — an update fails in these two cases and in no other.
-/

namespace NameIndex

open Sorting

namespace Index

variable {ix ix' : Index} {c : Collection} {p : UpdatePlan} {list : ListOrder}
  {trackedIds collectionIds : List SegmentId}

/-! ## §1 What the list is asked about -/

/-- The update brings two segments and the list lacks one of them. -/
def Unranked (ix : Index) (c : Collection) (list : ListOrder) : Prop :=
  ∃ a b r s, ix.Brings (.update c) a r ∧ ix.Brings (.update c) b s ∧ a ≠ b ∧ a ∉ list.ids

/-- The update brings a segment that declares something for a slot with entries that are kept, and
the list lacks the segment or that of one of the entries. -/
def Unplaced (ix : Index) (c : Collection) (list : ListOrder) : Prop :=
  ∃ (id : SegmentId) (r : Revision) (k : SlotKey), ix.Brings (.update c) id r ∧
    k.sources r.content ≠ [] ∧
    ∃ e ∈ ix.kept c k, id ∉ list.ids ∨ k.segment e.address ∉ list.ids

/-- The segments whose entries come together in the slot while the update is carried out. -/
def meeting (ix : Index) (c : Collection) (k : SlotKey) : Set SegmentId :=
  {id | (∃ e ∈ ix.kept c k, k.segment e.address = id) ∨
    ∃ r, ix.Brings (.update c) id r ∧ k.sources r.content ≠ []}

theorem Brings.mem_segments {id : SegmentId} {r : Revision} (h : ix.Brings (.update c) id r) :
    id ∈ c.segments := by
  rw [Std.ExtTreeMap.mem_iff_isSome_getElem?, h.1]
  rfl

theorem Brings.ne_of_mem_kept {id : SegmentId} {r : Revision} (h : ix.Brings (.update c) id r)
    {k : SlotKey} {e : Entry k.Address k.Value} (he : e ∈ ix.kept c k) :
    id ≠ k.segment e.address := by
  -- what is kept is current, and what an update brings is not
  rintro rfl
  exact h.2 (List.mem_filter.mp he).2

/-! ## §2 A result leaves no segment unknown -/

/-- Arranging two new segments takes a list that has both. -/
theorem not_unranked_of_planFrom (horder : c.order = .listed list)
    (hcollection : collectionIds.Perm c.segments.keys)
    (h : ix.planFrom c trackedIds collectionIds = .ok p) : ¬ ix.Unranked c list := by
  rintro ⟨a, b, r, s, ha, hb, hne, hunlisted⟩
  obtain ⟨ids, hsort, -⟩ := bind_eq_ok_iff.mp h
  -- both segments are among those that have been sorted
  have hnew : ∀ {id r}, ix.Brings (.update c) id r →
      id ∈ collectionIds.filter fun id => !ix.isCurrent c id := by
    intro id r hid
    refine List.mem_filter.mpr ⟨?_, by simpa using hid.2⟩
    exact hcollection.mem_iff.mpr (Std.ExtTreeMap.mem_keys.mpr hid.mem_segments)
  -- an answer of the list is about segments that it has
  have hanswer : ∀ a b n, c.order.compare a b = .ok n → Order.Relates list a b := by
    intro a b n hn
    rw [horder] at hn
    exact Or.inr (Order.exists_compare_listed_iff.mp ⟨n, hn⟩)
  rcases related_of_sort (Order.equivalence_relates list) hanswer hsort a (hnew ha) b (hnew hb)
    with heq | ⟨hlisted, -⟩
  · exact hne heq
  · exact hunlisted hlisted

/-- Putting an entry into a slot that keeps some of other segments takes a list that has all of
them. -/
theorem not_unplaced_of_carryOut (hix : ix.Exact) (horder : c.order = .listed list)
    (hplan : ix.Plans c p) (h : ix.carryOut c.order p = .ok ix') : ¬ ix.Unplaced c list := by
  rintro ⟨id, r, k, hid, hsources, e, he, hunlisted⟩
  have hslot := (updated_of_carryOut hix hplan h).slots k
  -- the segment arrives with some entry
  have hdeclared : k.declared ix'.atoms id r.content ≠ [] := by
    rwa [ne_eq, SlotKey.declared_eq_nil_iff]
  obtain ⟨new, hnew⟩ := List.exists_mem_of_ne_nil _ hdeclared
  have harrived : new ∈ p.arrivals ix'.atoms k :=
    List.mem_flatMap.mpr ⟨(id, r), hplan.mem_fresh_iff_brings.mpr hid, hnew⟩
  -- an answer means that the entries are of one segment or of two that the list has
  have hanswer : ∀ (x y : Entry k.Address k.Value) n,
      Slot.byAddress (k.compare c.order) x y = .ok n →
      Order.Relates list (k.segment x.address) (k.segment y.address) := by
    intro x y n hn
    rw [horder] at hn
    exact Order.exists_compareDistinct_listed_iff.mp ((SlotKey.exists_compare_iff k).mp ⟨n, hn⟩)
  have hrelated := Slot.related_of_insertAll
    ((Order.equivalence_relates list).comap fun x : Entry k.Address k.Value => k.segment x.address)
    hanswer (List.ne_nil_of_mem harrived) hslot new (List.mem_append_right _ harrived) e
    (List.mem_append_left _ he)
  -- here the segments differ: what is kept is not of the new one
  change Order.Relates list (k.segment new.address) (k.segment e.address) at hrelated
  rw [SlotKey.segment_of_mem_declared hnew] at hrelated
  rcases hrelated with heq | ⟨hlisted, hlisted'⟩
  · exact hid.ne_of_mem_kept he heq
  · rcases hunlisted with hid | he
    · exact hid hlisted
    · exact he hlisted'

/-! ## §3 Without unknown segments there is a result -/

theorem relates_of_mem_meeting (hranked : ¬ ix.Unranked c list) (hplaced : ¬ ix.Unplaced c list)
    {id other : SegmentId} {r : Revision} {k : SlotKey} (hid : ix.Brings (.update c) id r)
    (hsources : k.sources r.content ≠ []) (hother : other ∈ ix.meeting c k) :
    Order.Relates list id other := by
  rcases hother with ⟨e, he, rfl⟩ | ⟨s, hother, -⟩
  · -- an entry that is kept
    by_contra hunknown
    apply hplaced
    refine ⟨id, r, k, hid, hsources, e, he, ?_⟩
    rw [← not_and_or]
    exact fun hlisted => hunknown (Or.inr hlisted)
  · -- another new segment
    by_cases heq : id = other
    · exact Or.inl heq
    · by_contra hunknown
      rcases not_and_or.mp (not_or.mp hunknown).2 with hmissing | hmissing
      · exact hranked ⟨id, other, r, s, hid, hother, heq, hmissing⟩
      · exact hranked ⟨other, id, s, r, hother, hid, Ne.symm heq, hmissing⟩

theorem exists_planFrom_of_ranked (horder : c.order = .listed list)
    (hcollection : collectionIds.Perm c.segments.keys) (hranked : ¬ ix.Unranked c list) :
    ∃ p, ix.planFrom c trackedIds collectionIds = .ok p := by
  apply exists_planFrom hcollection
  intro a b ha hb hnewA hnewB hne
  obtain ⟨r, hr⟩ := Option.isSome_iff_exists.mp (Std.ExtTreeMap.mem_iff_isSome_getElem?.mp ha)
  obtain ⟨s, hs⟩ := Option.isSome_iff_exists.mp (Std.ExtTreeMap.mem_iff_isSome_getElem?.mp hb)
  rw [horder, Order.exists_compare_listed_iff]
  constructor
  · by_contra hmissing
    exact hranked ⟨a, b, r, s, ⟨hr, hnewA⟩, ⟨hs, hnewB⟩, hne, hmissing⟩
  · by_contra hmissing
    exact hranked ⟨b, a, s, r, ⟨hs, hnewB⟩, ⟨hr, hnewA⟩, Ne.symm hne, hmissing⟩

theorem exists_carryOut_of_placed (hix : ix.Exact) (horder : c.order = .listed list)
    (hplan : ix.Plans c p) (hranked : ¬ ix.Unranked c list) (hplaced : ¬ ix.Unplaced c list) :
    ∃ ix', ix.carryOut c.order p = .ok ix' := by
  apply exists_carryOut (ix.meeting c) hix hplan
  · intro k e he
    exact Or.inl ⟨e, he, rfl⟩
  · rintro ⟨id, r⟩ hq k hsources
    have hid := hplan.mem_fresh_iff_brings.mp hq
    refine ⟨Or.inr ⟨r, hid, hsources⟩, fun a ha b hb => ?_⟩
    -- any two that meet are related through the new segment
    rw [horder, Order.exists_compareDistinct_listed_iff]
    have hequiv := Order.equivalence_relates list
    exact hequiv.trans (hequiv.symm (relates_of_mem_meeting hranked hplaced hid hsources ha))
      (relates_of_mem_meeting hranked hplaced hid hsources hb)

/-! ## §4 The two cases -/

theorem Exact.exists_updateFrom_iff (hix : ix.Exact) (horder : c.order = .listed list)
    (htracked : trackedIds.Perm ix.tracked.keys)
    (hcollection : collectionIds.Perm c.segments.keys) :
    (∃ ix', ix.planFrom c trackedIds collectionIds >>= ix.carryOut c.order = .ok ix') ↔
      ¬ ix.Unranked c list ∧ ¬ ix.Unplaced c list := by
  constructor
  · rintro ⟨ix', h⟩
    obtain ⟨p, hp, hrun⟩ := bind_eq_ok_iff.mp h
    have hplan := plans_of_planFrom htracked hcollection hp
    exact ⟨not_unranked_of_planFrom horder hcollection hp,
      not_unplaced_of_carryOut hix horder hplan hrun⟩
  · rintro ⟨hranked, hplaced⟩
    obtain ⟨p, hp⟩ := exists_planFrom_of_ranked horder hcollection hranked
    have hplan := plans_of_planFrom htracked hcollection hp
    obtain ⟨ix', hrun⟩ := exists_carryOut_of_placed hix horder hplan hranked hplaced
    exact ⟨ix', bind_eq_ok_iff.mpr ⟨p, hp, hrun⟩⟩

/-- **When an update fails.** From any listings of the tracked segments and of the collection (the
listings of the maps make it `Index.update`), an update of a reachable index under a list fails
exactly if two segments are new and the list lacks one of them, or a new segment declares something
for a slot in which entries are kept and the list lacks it or the segment of such an entry. A list
that has every segment of the collection never fails, whatever orders came before. -/
theorem update_faults_iff (hix : ix.Reachable) (horder : c.order = .listed list)
    (htracked : trackedIds.Perm ix.tracked.keys)
    (hcollection : collectionIds.Perm c.segments.keys) :
    ((∃ fault, ix.planFrom c trackedIds collectionIds >>= ix.carryOut c.order = .error fault) ↔
      ix.Unranked c list ∨ ix.Unplaced c list) ∧
    ((∀ id ∈ c.segments, id ∈ list.ids) →
      ∃ ix', ix.planFrom c trackedIds collectionIds >>= ix.carryOut c.order = .ok ix') := by
  have hok := hix.exact.exists_updateFrom_iff horder htracked hcollection
  constructor
  · -- an update that does not fail has a result
    rw [← not_iff_not, not_or, ← hok]
    cases ix.planFrom c trackedIds collectionIds >>= ix.carryOut c.order <;> simp
  · -- whatever is new or kept belongs to the collection, and the list covers it
    intro hcovers
    rw [hok]
    constructor
    · rintro ⟨a, b, r, s, ha, -, -, hmissing⟩
      exact hmissing (hcovers a ha.mem_segments)
    · rintro ⟨id, r, k, hid, -, e, he, hmissing | hmissing⟩
      · exact hmissing (hcovers id hid.mem_segments)
      · exact hmissing (hcovers _ (segment_of_mem_kept hix.exact he))

end Index

/-- The sample with the third segment, under a list that lacks the first one. -/
def Sample.unlisted : Collection := ⟨.listed (.ofDistinct [2, 3] (by decide)), turned.segments⟩

/-- One segment alone is never arranged, so that the list lacks the first segment shows only when
the third one meets an entry of it, under `x`. A list that has all three lets the update succeed. -/
theorem Index.update_faults_iff_unlisted :
    ∃ ix, (new .empty).update Sample.both = .ok ix ∧
      (∃ fault, ix.update Sample.unlisted = .error fault) ∧
      ∃ ix', ix.update Sample.turned = .ok ix' := by
  have hkept : ((new .empty).update Sample.both).toOption.map (fun ix =>
      (ix.kept Sample.unlisted (.all "x")).any fun e => e.address.statement.segment = 1) =
      some true := by
    decide +kernel
  obtain ⟨ix, hsome, hany⟩ := Option.map_eq_some_iff.mp hkept
  have hix := eq_ok_of_toOption hsome
  have hreach := (Reachable.new .empty).step (step_of_update hix)
  obtain ⟨e, he, hsegment⟩ := List.any_eq_true.mp hany
  have hunplaced : ix.Unplaced Sample.unlisted (.ofDistinct [2, 3] (by decide)) := by
    refine ⟨3, Sample.third, .all "x", ⟨by decide +kernel, ?_⟩, by decide, e, he, Or.inr ?_⟩
    · rw [isCurrent_iff, ((exact_new .empty).frame_of_update (step_of_update hix)).2]
      decide +kernel
    · change e.address.statement.segment ∉ [2, 3]
      rw [of_decide_eq_true hsegment]
      decide
  have hfails := update_faults_iff hreach (c := Sample.unlisted) rfl (List.Perm.refl _)
    (List.Perm.refl _)
  have hsucceeds := update_faults_iff hreach (c := Sample.turned) rfl (List.Perm.refl _)
    (List.Perm.refl _)
  refine ⟨ix, hix, hfails.1.mpr (Or.inr hunplaced), hsucceeds.2 fun id hid => ?_⟩
  rcases Sample.mem_turned hid with rfl | rfl | rfl <;> decide

end NameIndex
