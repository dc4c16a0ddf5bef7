import NameIndex.Proofs.Resorting

/-!
# An index in step with its collection

After an update the index tracks the segments of the collection, revision for revision, wherever the
tracked segments came from before. From then on the collection has nothing to tell the index: as long
as the segments are the same revisions, an update finds nothing to remove and nothing to add. Nothing
is sorted, so no order is consulted, and an order that cannot compare any two segments does as well
as any other. All that changes is which order is adopted.

## Main definitions

* `Index.Idle` — the collection leaves an update nothing to do.
* `Index.SameAnswers` — the two indexes answer every question alike.

## Main results

* `Index.idle_of_tracked_eq` — an index that tracks what the collection holds has nothing to do.
* `Index.update_synchronises` — what an update leaves, and what the next one does.
-/

namespace NameIndex.Index

open Sorting

variable {ix ix' : Index} {c : Collection} {p : UpdatePlan}

/-! ## §1 Nothing to do -/

/-- **Nothing to do**: from whatever listings of the two maps, an update to the collection finds no
segment to remove and none to add. What it arranges is nothing, under any comparison, also one that
faults whenever it is asked. -/
def Idle (ix : Index) (c : Collection) : Prop :=
  ∀ trackedIds collectionIds : List SegmentId,
    (∀ cmp : SegmentId → SegmentId → Except Fault Int,
      sort cmp (collectionIds.filter fun id => !ix.isCurrent c id) = .ok []) ∧
    ix.planFrom c trackedIds collectionIds = .ok ⟨[], []⟩

theorem filter_not_isCurrent (h : ix.tracked = c.segments) (ids : List SegmentId) :
    ids.filter (fun id => !ix.isCurrent c id) = [] := by
  refine List.filter_eq_nil_iff.mpr fun id _ => ?_
  have hcurrent : ix.isCurrent c id := isCurrent_iff.mpr (by rw [h])
  simp [hcurrent]

/-- An index that tracks what the collection holds has nothing to do, whatever the order. -/
theorem idle_of_tracked_eq (h : ix.tracked = c.segments) : ix.Idle c := by
  intro trackedIds collectionIds
  unfold planFrom
  rw [filter_not_isCurrent h trackedIds, filter_not_isCurrent h collectionIds]
  exact ⟨fun _ => rfl, rfl⟩

/-- There is one plan only, and it is empty. -/
theorem Plans.eq_nil (hplan : ix.Plans c p) (h : ix.tracked = c.segments) : p = ⟨[], []⟩ := by
  obtain ⟨hstale, ids, hids, hfresh⟩ := hplan
  -- every id is current, so there is nothing that a plan could list in any sequence
  rw [filter_not_isCurrent h] at hstale hids
  rw [hids.eq_nil] at hfresh
  exact congr (congrArg UpdatePlan.mk hstale.eq_nil) hfresh

/-- An empty plan adopts the order. -/
theorem carryOut_nil (ix : Index) (o : Order) : ix.carryOut o ⟨[], []⟩ = .ok { ix with order := o } :=
  rfl

/-- **An update of an index that is in step** adopts the order, and that is all. -/
theorem step_update_iff_of_tracked_eq (h : ix.tracked = c.segments) :
    Step ix (.update c) ix' ↔ ix' = { ix with order := c.order } := by
  constructor
  · intro hstep
    cases hstep with
    | update hplan hrun =>
      rw [hplan.eq_nil h, carryOut_nil] at hrun
      exact (Except.ok.inj hrun).symm
  · rintro rfl
    have hplan := plans_of_plan (idle_of_tracked_eq h ix.tracked.keys c.segments.keys).2
    exact .update hplan (carryOut_nil ix c.order)

theorem update_of_idle (h : ix.Idle c) : ix.update c = .ok { ix with order := c.order } :=
  update_eq_ok_iff.mpr ⟨_, (h ix.tracked.keys c.segments.keys).2, carryOut_nil ix c.order⟩

/-! ## §2 Answers -/

/-- The two indexes answer every question alike: lookups, listings, handles and statistics. -/
structure SameAnswers (ix ix' : Index) : Prop where
  contains_eq : ∀ id, ix'.contains id = ix.contains id
  label?_eq : ∀ l, ix'.label? l = ix.label? l
  symbol?_eq : ∀ n, ix'.symbol? n = ix.symbol? n
  float?_eq : ∀ n, ix'.float? n = ix.float? n
  disjointList_eq : ix'.disjointList = ix.disjointList
  isDisjoint_eq : ∀ a b, ix'.isDisjoint a b = ix.isDisjoint a b
  disjointFrom_eq : ∀ a, ix'.disjointFrom a = ix.disjointFrom a
  atom?_eq : ∀ n, ix'.atom? n = ix.atom? n
  requireAtom_eq : ∀ n, ix'.requireAtom n = ix.requireAtom n
  atomName_eq : ∀ a, ix'.atomName a = ix.atomName a
  stats_eq : ix'.stats = ix.stats

/-- No answer depends on the adopted order. -/
theorem sameAnswers_setOrder (ix : Index) (o : Order) : ix.SameAnswers { ix with order := o } where
  contains_eq _ := rfl
  label?_eq _ := rfl
  symbol?_eq _ := rfl
  float?_eq _ := rfl
  disjointList_eq := rfl
  isDisjoint_eq _ _ := rfl
  disjointFrom_eq _ := rfl
  atom?_eq _ := rfl
  requireAtom_eq _ := rfl
  atomName_eq _ := rfl
  stats_eq := rfl

/-! ## §3 Two updates -/

/-- **An update synchronises exactly, and only with changes.** After a successful update, from any
reachable state, the index tracks the segments of the collection, revision for revision, and has its
order. An update that follows with the same segments, under any order whatsoever, has nothing to
arrange, to remove or to add; it succeeds, adopts the order and changes nothing else, in every
sequence in which it may look through the maps, and all answers stay. -/
theorem update_synchronises (hix : ix.Reachable) (hstep : Step ix (.update c) ix') :
    ix'.tracked = c.segments ∧ ix'.order = c.order ∧
    ∀ c' : Collection, c'.segments = c.segments →
      ix'.Idle c' ∧
      ix'.update c' = .ok { ix' with order := c'.order } ∧
      (∀ ix'', Step ix' (.update c') ix'' ↔ ix'' = { ix' with order := c'.order }) ∧
      ix'.SameAnswers { ix' with order := c'.order } := by
  obtain ⟨horder, htracked⟩ := hix.exact.frame_of_update hstep
  refine ⟨htracked, horder, fun c' hc' => ?_⟩
  have hsame : ix'.tracked = c'.segments := htracked.trans hc'.symm
  have hidle := idle_of_tracked_eq hsame
  exact ⟨hidle, update_of_idle hidle, fun _ => step_update_iff_of_tracked_eq hsame,
    sameAnswers_setOrder ix' c'.order⟩

/-- The segments of the sample under the order that lists none of them: every comparison would be a
fault, and the update succeeds. -/
theorem update_synchronises_unlisted :
    ∃ ix, (new .empty).update Sample.both = .ok ix ∧ ix.tracked = Sample.both.segments ∧
      (∀ a b, Order.empty.compare a b = .error (.notInOrder a)) ∧
      ix.update ⟨.empty, Sample.both.segments⟩ = .ok { ix with order := .empty } ∧
      ix.SameAnswers { ix with order := .empty } := by
  obtain ⟨ix, hix⟩ := exists_update (exact_new .empty) Sample.strictOn_both.total
  obtain ⟨htracked, -, hnext⟩ := update_synchronises (.new .empty) (step_of_update hix)
  obtain ⟨-, hupdate, -, hanswers⟩ := hnext ⟨.empty, Sample.both.segments⟩ rfl
  exact ⟨ix, hix, htracked, fun _ _ => rfl, hupdate, hanswers⟩

end NameIndex.Index
