import NameIndex.Proofs.Content

/-!
# Runs of changes

A state is reachable when some sequence of successful updates, additions and removals leads to it
from an index without segments. The maps that an update looks through have no order of their own,
and sorting under a comparison that is no order may end anywhere; so a step of a run may take the
removals and the additions of an update in any sequence. What an update plans from some listing of
the maps is one case of it (`Index.plans_of_planFrom`, `Index.reports_of_apply`).

An update is analysed once: its plan removes the stale segments and adds the fresh ones
(`Index.Plans.mem_stale`, `Index.Plans.mem_fresh`), and carrying it out leaves exactly the segments
of the collection (`Index.Updated`).

## Main results

* `Index.Reachable.exact` — every reachable index is exact.
* `Index.updated_of_carryOut` — what an update does to the tracked segments and to each slot.
* `Index.exists_update` — an order that knows the segments of the collection lets the update
  succeed.
-/

namespace NameIndex

/-- What the segments that a plan adds declare for a slot, in the sequence of the plan and, within a
segment, in declared order. -/
def UpdatePlan.arrivals (p : UpdatePlan) (t : AtomTable) (k : SlotKey) :
    List (Entry k.Address k.Value) :=
  p.fresh.flatMap fun (id, r) => k.declared t id r.content

namespace Index

variable {ix ix' : Index} {c : Collection} {p : UpdatePlan}

/-! ## §1 Steps and runs -/

/-- The plan is one that an update to the collection may follow: it removes the tracked segments
that the collection does not hold unchanged and adds those of the collection that are not tracked as
they are there, each once and in any sequence. -/
def Plans (ix : Index) (c : Collection) (p : UpdatePlan) : Prop :=
  p.stale.Perm (ix.tracked.keys.filter fun id => !ix.isCurrent c id) ∧
    ∃ ids : List SegmentId, ids.Perm (c.segments.keys.filter fun id => !ix.isCurrent c id) ∧
      p.fresh = ids.filterMap fun id => c.segments[id]?.map (id, ·)

/-- A change that succeeds. -/
inductive Step (ix : Index) : Change → Index → Prop where
  | update {c : Collection} {p : UpdatePlan} {ix' : Index} (hplan : ix.Plans c p)
      (hrun : ix.carryOut c.order p = .ok ix') : Step ix (.update c) ix'
  | add {id : SegmentId} {r : Revision} {ix' : Index} (hadd : ix.add id r = .ok ix') :
      Step ix (.add id r) ix'
  | remove (id : SegmentId) : Step ix (.remove id) (ix.remove id)

/-- A change that succeeds, with what it reports; an update may take its removals and additions in
any sequence. -/
inductive Reports (ix : Index) : Change → List Event → Index → Prop where
  | update {c : Collection} {p : UpdatePlan} {events : List Event} {ix' : Index}
      (hplan : ix.Plans c p) (hrun : ix.carryOutReporting c.order p = .ok (ix', events)) :
      Reports ix (.update c) events ix'
  | add {id : SegmentId} {r : Revision} {events : List Event} {ix' : Index}
      (hadd : ix.addReporting id r = .ok (ix', events)) : Reports ix (.add id r) events ix'
  | remove (id : SegmentId) :
      Reports ix (.remove id) (ix.removeReporting id).2 (ix.remove id)

/-- **Reachable states**: what successful changes make of an index without segments. -/
inductive Reachable : Index → Prop where
  | new (order : Order) : Reachable (Index.new order)
  | step {ix ix' : Index} {change : Change} (hix : Reachable ix) (hstep : Step ix change ix') :
      Reachable ix'

/-- What is planned from any listings of the two maps is a plan, whatever the order does. -/
theorem plans_of_planFrom {trackedIds collectionIds : List SegmentId}
    (htracked : trackedIds.Perm ix.tracked.keys) (hcollection : collectionIds.Perm c.segments.keys)
    (h : ix.planFrom c trackedIds collectionIds = .ok p) : ix.Plans c p := by
  obtain ⟨ids, hsort, hp⟩ := bind_eq_ok_iff.mp h
  obtain rfl := Except.ok.inj hp
  exact ⟨htracked.filter _, ids, (Sorting.sort_perm hsort).trans (hcollection.filter _), rfl⟩

theorem plans_of_plan (h : ix.plan c = .ok p) : ix.Plans c p :=
  plans_of_planFrom (List.Perm.refl _) (List.Perm.refl _) h

theorem update_eq_ok_iff :
    ix.update c = .ok ix' ↔ ∃ p, ix.plan c = .ok p ∧ ix.carryOut c.order p = .ok ix' :=
  bind_eq_ok_iff

theorem carryOut_eq_ok_iff {o : Order} :
    ix.carryOut o p = .ok ix' ↔ ∃ events, ix.carryOutReporting o p = .ok (ix', events) := by
  unfold carryOut
  cases ix.carryOutReporting o p <;> simp [Functor.map, Except.map, Prod.ext_iff]

theorem step_of_update (h : ix.update c = .ok ix') : Step ix (.update c) ix' := by
  obtain ⟨p, hplan, hrun⟩ := update_eq_ok_iff.mp h
  exact .update (plans_of_plan hplan) hrun

/-- What the index computes and reports is a step with its report. -/
theorem reports_of_apply {change : Change} {events : List Event}
    (h : ix.apply change = .ok (ix', events)) : ix.Reports change events ix' := by
  cases change with
  | update c =>
    obtain ⟨p, hplan, hrun⟩ := bind_eq_ok_iff.mp h
    exact .update (plans_of_plan hplan) hrun
  | add id r => exact .add h
  | remove id =>
    obtain ⟨rfl, rfl⟩ := Prod.mk.inj (Except.ok.inj h)
    exact .remove id

theorem Reports.step {change : Change} {events : List Event}
    (h : ix.Reports change events ix') : Step ix change ix' := by
  cases h with
  | update hplan hrun => exact .update hplan (carryOut_eq_ok_iff.mpr ⟨_, hrun⟩)
  | add hadd => exact .add (addReporting_eq_ok_iff.mp hadd).1
  | remove id => exact .remove id

theorem step_of_apply {change : Change} {events : List Event}
    (h : ix.apply change = .ok (ix', events)) : Step ix change ix' :=
  (reports_of_apply h).step

/-- Every run of changes ends in a reachable state. -/
theorem Reachable.run (hix : ix.Reachable) {changes : List Change} {events : List Event}
    (h : ix.run changes = .ok (ix', events)) : ix'.Reachable := by
  induction changes generalizing ix events with
  | nil =>
    obtain rfl : ix = ix' := congrArg Prod.fst (Except.ok.inj h)
    exact hix
  | cons change rest ih =>
    obtain ⟨⟨ix₁, first⟩, hfirst, h⟩ := bind_eq_ok_iff.mp h
    obtain ⟨⟨ix₂, later⟩, hlater, h⟩ := bind_eq_ok_iff.mp h
    obtain rfl : ix₂ = ix' := congrArg Prod.fst (Except.ok.inj h)
    exact ih (hix.step (step_of_apply hfirst)) hlater

/-- **One step** keeps an index exact. -/
theorem Exact.step (h : ix.Exact) {change : Change} (hstep : Step ix change ix') : ix'.Exact := by
  cases hstep with
  | update _ hrun => exact h.carryOut hrun
  | add hadd => exact h.add hadd
  | remove id => exact h.remove id

/-- **Every reachable index is exact.** -/
theorem Reachable.exact (h : ix.Reachable) : ix.Exact := by
  induction h with
  | new order => exact exact_new order
  | step _ hstep ih => exact ih.step hstep

/-! ## §2 The plan of an update -/

theorem isCurrent_iff {id : SegmentId} :
    ix.isCurrent c id ↔ ix.tracked[id]? = c.segments[id]? := by
  simp [isCurrent]

/-- Ids of the collection give back themselves with their revisions. -/
theorem map_fst_filterMap {ids : List SegmentId} (h : ∀ id ∈ ids, id ∈ c.segments) :
    (ids.filterMap fun id => c.segments[id]?.map (id, ·)).map Prod.fst = ids := by
  induction ids with
  | nil => rfl
  | cons id ids ih =>
    obtain ⟨r, hr⟩ := Option.isSome_iff_exists.mp
      (Std.ExtTreeMap.mem_iff_isSome_getElem?.mp (h id (by simp)))
    rw [List.filterMap_cons_some (by rw [hr]; rfl), List.map_cons,
      ih fun id' hid' => h id' (List.mem_cons_of_mem id hid')]

/-- The stale segments are the tracked ones that the collection lacks or holds otherwise. -/
theorem Plans.mem_stale (h : ix.Plans c p) {id : SegmentId} :
    id ∈ p.stale ↔ id ∈ ix.tracked ∧ ix.tracked[id]? ≠ c.segments[id]? := by
  rw [h.1.mem_iff, List.mem_filter, Std.ExtTreeMap.mem_keys, Bool.not_eq_true',
    ← Bool.not_eq_true, isCurrent_iff]

/-- The fresh segments are those of the collection that are not tracked as they are there. -/
theorem Plans.mem_fresh (h : ix.Plans c p) {id : SegmentId} {r : Revision} :
    (id, r) ∈ p.fresh ↔ c.segments[id]? = some r ∧ ix.tracked[id]? ≠ some r := by
  obtain ⟨-, ids, hids, hfresh⟩ := h
  rw [hfresh, List.mem_filterMap]
  constructor
  · rintro ⟨id', hid', hr⟩
    obtain ⟨r', hr', heq⟩ := Option.map_eq_some_iff.mp hr
    obtain ⟨rfl, rfl⟩ := Prod.mk.inj heq
    have hstale := (List.mem_filter.mp (hids.mem_iff.mp hid')).2
    rw [Bool.not_eq_true', ← Bool.not_eq_true, isCurrent_iff, hr'] at hstale
    exact ⟨hr', hstale⟩
  · rintro ⟨hr, hne⟩
    refine ⟨id, hids.mem_iff.mpr (List.mem_filter.mpr ⟨?_, ?_⟩), by rw [hr]; rfl⟩
    · rw [Std.ExtTreeMap.mem_keys, Std.ExtTreeMap.mem_iff_isSome_getElem?, hr]
      rfl
    · rw [Bool.not_eq_true', ← Bool.not_eq_true, isCurrent_iff, hr]
      exact hne

theorem Plans.mem_segments (h : ix.Plans c p) {q : SegmentId × Revision} (hq : q ∈ p.fresh) :
    q.1 ∈ c.segments := by
  rw [Std.ExtTreeMap.mem_iff_isSome_getElem?, (h.mem_fresh.mp hq).1]
  rfl

/-- A plan adds no segment twice. -/
theorem Plans.nodup_fresh (h : ix.Plans c p) : (p.fresh.map Prod.fst).Nodup := by
  obtain ⟨-, ids, hids, hfresh⟩ := h
  have hmem : ∀ id ∈ ids, id ∈ c.segments := fun id hid =>
    Std.ExtTreeMap.mem_keys.mp (List.mem_filter.mp (hids.mem_iff.mp hid)).1
  rw [hfresh, map_fst_filterMap hmem]
  exact hids.nodup_iff.mpr (Std.ExtTreeMap.nodup_keys.filter _)

/-! ## §3 Carrying out a plan -/

theorem removeAll_frame (ix : Index) (ids : List SegmentId) :
    (ids.foldl remove ix).order = ix.order ∧ (ids.foldl remove ix).atoms = ix.atoms ∧
      ∀ id, (ids.foldl remove ix).tracked[id]? = if id ∈ ids then none else ix.tracked[id]? := by
  induction ids generalizing ix with
  | nil => simp
  | cons id ids ih =>
    obtain ⟨horder, htracked, hatoms⟩ := ix.remove_frame id
    obtain ⟨horder', hatoms', htracked'⟩ := ih (ix.remove id)
    refine ⟨horder'.trans horder, hatoms'.trans hatoms, fun id' => ?_⟩
    rw [List.foldl_cons, htracked', htracked, Std.ExtTreeMap.getElem?_erase]
    by_cases hid : id' ∈ ids
    · simp [hid]
    · by_cases heq : id' = id
      · simp [heq]
      · simp [hid, heq, Ne.symm heq]

/-- Removing segments drops their entries from each slot, and no others. -/
theorem Exact.removeAll_slot (h : ix.Exact) (ids : List SegmentId) (k : SlotKey) :
    ((ids.foldl Index.remove ix).slot k).entries =
      (ix.slot k).entries.filter fun e => k.segment e.address ∉ ids := by
  induction ids generalizing ix with
  | nil => simp
  | cons id ids ih =>
    rw [List.foldl_cons, ih (h.remove id), h.remove_slot id k, List.filter_filter]
    refine List.filter_congr fun e _ => ?_
    simp [not_or, Bool.and_comm]

/-- **What adding many new segments does**: their entries arrive in each slot, in sequence. -/
structure AddedAll (ix : Index) (fresh : List (SegmentId × Revision)) (ix' : Index) : Prop where
  order_eq : ix'.order = ix.order
  tracked_iff : ∀ id r, ix'.tracked[id]? = some r ↔ (id, r) ∈ fresh ∨ ix.tracked[id]? = some r
  names_grow : ix.atoms.names <+: ix'.atoms.names
  slots : ∀ t : AtomTable, ix'.atoms.names <+: t.names → ∀ k : SlotKey,
    Slot.insertAll (k.compare ix.order) (ix.slot k)
      (fresh.flatMap fun (id, r) => k.declared t id r.content) = .ok (ix'.slot k)

/-- Segments with other ids are untracked after the addition if they were before. -/
theorem Added.untracked {id : SegmentId} {r : Revision} {fresh : List (SegmentId × Revision)}
    (h : Added ix id r ix') (hid : id ∉ fresh.map Prod.fst)
    (hnew : ∀ q ∈ fresh, ix.tracked[q.1]? = none) : ∀ q ∈ fresh, ix'.tracked[q.1]? = none := by
  intro q hq
  have hne : id ≠ q.1 := by
    intro heq
    exact hid (List.mem_map.mpr ⟨q, hq, heq.symm⟩)
  rw [h.tracked_eq, Std.ExtTreeMap.getElem?_insert]
  simpa [hne] using hnew q hq

theorem addedAll_of_foldlM {fresh : List (SegmentId × Revision)}
    (hnodup : (fresh.map Prod.fst).Nodup) (hnew : ∀ q ∈ fresh, ix.tracked[q.1]? = none)
    (h : fresh.foldlM (fun ix (id, r) => ix.add id r) ix = .ok ix') : AddedAll ix fresh ix' := by
  induction fresh generalizing ix with
  | nil =>
    obtain rfl := Except.ok.inj h
    exact ⟨rfl, by simp, List.prefix_refl _, fun _ _ _ => rfl⟩
  | cons q fresh ih =>
    obtain ⟨id, r⟩ := q
    rw [List.foldlM_cons] at h
    obtain ⟨ix₁, hone, hrest⟩ := bind_eq_ok_iff.mp h
    have hadded := added_of_add (hnew (id, r) (by simp)) hone
    rw [List.map_cons, List.nodup_cons] at hnodup
    -- the segments that follow have other ids, so they are still untracked
    have hnew₁ := hadded.untracked hnodup.1 fun q hq => hnew q (List.mem_cons_of_mem _ hq)
    obtain ⟨horder, htracked, hnames, hslots⟩ := ih hnodup.2 hnew₁ hrest
    refine ⟨horder.trans hadded.order_eq, fun id' r' => ?_, hadded.names_grow.trans hnames,
      fun t ht k => ?_⟩
    · rw [htracked, hadded.tracked_eq, Std.ExtTreeMap.getElem?_insert, List.mem_cons, or_assoc,
        or_left_comm]
      refine or_congr_right ?_
      by_cases hid : id = id'
      · subst hid
        simp [hadded.fresh, eq_comm]
      · simp [hid, Ne.symm hid]
    · rw [List.flatMap_cons, Slot.insertAll_append_eq_ok_iff]
      refine ⟨ix₁.slot k, hadded.slots t (hnames.trans ht) k, ?_⟩
      rw [← hadded.order_eq]
      exact hslots t ht k

/-- The entries of a slot that an update keeps, as they stand: those of the segments that the
collection holds unchanged. -/
def kept (ix : Index) (c : Collection) (k : SlotKey) : List (Entry k.Address k.Value) :=
  (ix.slot k).entries.filter fun e => ix.isCurrent c (k.segment e.address)

/-- **What an update does**: it adopts the order of the collection and tracks its segments, and in
each slot the entries that are kept are joined by the arrivals, one after the other. -/
structure Updated (ix : Index) (c : Collection) (p : UpdatePlan) (ix' : Index) : Prop where
  order_eq : ix'.order = c.order
  tracked_eq : ix'.tracked = c.segments
  names_grow : ix.atoms.names <+: ix'.atoms.names
  slots : ∀ k : SlotKey, Slot.insertAll (k.compare c.order) ⟨ix.kept c k⟩
    (p.arrivals ix'.atoms k) = .ok (ix'.slot k)

/-- What an update keeps of a slot is what is left once the stale segments have been removed. -/
theorem Plans.kept_eq (hplan : ix.Plans c p) (hix : ix.Exact) (k : SlotKey) :
    ix.kept c k = (ix.slot k).entries.filter fun e => k.segment e.address ∉ p.stale := by
  refine List.filter_congr fun e he => ?_
  -- every entry belongs to a tracked segment, which is stale or current
  have htracked := tracked_of_mem_declared ((hix.content k).mem_iff.mp he)
  rw [Bool.eq_iff_iff, isCurrent_iff, decide_eq_true_eq, hplan.mem_stale]
  simp [htracked]

theorem segment_of_mem_kept (hix : ix.Exact) {k : SlotKey} {e : Entry k.Address k.Value}
    (he : e ∈ ix.kept c k) : k.segment e.address ∈ c.segments := by
  obtain ⟨hslot, hcurrent⟩ := List.mem_filter.mp he
  have htracked := tracked_of_mem_declared ((hix.content k).mem_iff.mp hslot)
  -- the segment is tracked, and current means that the collection has it too
  rw [Std.ExtTreeMap.mem_iff_isSome_getElem?] at htracked ⊢
  rwa [isCurrent_iff.mp hcurrent] at htracked

/-- Once the stale segments are gone, what is tracked is what the collection holds unchanged. -/
theorem Plans.tracked_removeAll (hplan : ix.Plans c p) (id : SegmentId) (r : Revision) :
    (p.stale.foldl remove { ix with order := c.order }).tracked[id]? = some r ↔
      ix.tracked[id]? = some r ∧ c.segments[id]? = some r := by
  rw [(removeAll_frame { ix with order := c.order } p.stale).2.2 id]
  split
  · next hstale =>
    rw [hplan.mem_stale] at hstale
    constructor
    · intro h
      simp at h
    · rintro ⟨htracked, hsegments⟩
      exact absurd (htracked.trans hsegments.symm) hstale.2
  · next hstale =>
    rw [hplan.mem_stale, not_and, not_not] at hstale
    constructor
    · intro htracked
      have hmem : id ∈ ix.tracked := by
        rw [Std.ExtTreeMap.mem_iff_isSome_getElem?, htracked]
        rfl
      exact ⟨htracked, (hstale hmem).symm.trans htracked⟩
    · exact And.left

theorem Plans.retained (hplan : ix.Plans c p) {id : SegmentId}
    (h : id ∈ (p.stale.foldl remove { ix with order := c.order }).tracked) :
    id ∈ ix.tracked ∧ ix.tracked[id]? = c.segments[id]? ∧ id ∈ c.segments := by
  obtain ⟨r, hr⟩ := Option.isSome_iff_exists.mp (Std.ExtTreeMap.mem_iff_isSome_getElem?.mp h)
  obtain ⟨hold, hnew⟩ := (hplan.tracked_removeAll id r).mp hr
  simp only [Std.ExtTreeMap.mem_iff_isSome_getElem?, hold, hnew, Option.isSome_some, and_self]

/-- What the plan adds is untracked once the stale segments are gone. -/
theorem Plans.untracked_fresh (hplan : ix.Plans c p) : ∀ q ∈ p.fresh,
    (p.stale.foldl remove { ix with order := c.order }).tracked[q.1]? = none := by
  rintro ⟨id, r⟩ hq
  obtain ⟨hr, hne⟩ := hplan.mem_fresh.mp hq
  refine Option.eq_none_iff_forall_ne_some.mpr fun r' hr' => ?_
  obtain ⟨hold, hsegments⟩ := (hplan.tracked_removeAll id r').mp hr'
  obtain rfl := Option.some.inj (hr.symm.trans hsegments)
  exact hne hold

theorem updated_of_carryOut (hix : ix.Exact) (hplan : ix.Plans c p)
    (hrun : ix.carryOut c.order p = .ok ix') : Updated ix c p ix' := by
  have htracked := fun id r => hplan.tracked_removeAll id r
  have hnew := hplan.untracked_fresh
  have hentries := fun k => (hix.setOrder c.order).removeAll_slot p.stale k
  obtain ⟨horder, hatoms, -⟩ := removeAll_frame { ix with order := c.order } p.stale
  rw [carryOut_eq] at hrun
  generalize p.stale.foldl remove { ix with order := c.order } = mid
    at htracked hnew hentries horder hatoms hrun
  obtain ⟨horder', htracked', hnames, hslots⟩ := addedAll_of_foldlM hplan.nodup_fresh hnew hrun
  refine ⟨horder'.trans horder, ?_, hatoms ▸ hnames, fun k => ?_⟩
  · refine Std.ExtTreeMap.ext_getElem? fun id => Option.ext fun r => ?_
    rw [htracked', hplan.mem_fresh, htracked]
    constructor
    · rintro (⟨hsegments, -⟩ | ⟨-, hsegments⟩) <;> exact hsegments
    · intro hsegments
      by_cases hold : ix.tracked[id]? = some r
      · exact .inr ⟨hold, hsegments⟩
      · exact .inl ⟨hsegments, hold⟩
  · have hslot := hslots ix'.atoms (List.prefix_refl _) k
    have hkept := hentries k
    rw [slot_order ix c.order k, ← hplan.kept_eq hix k] at hkept
    rw [horder] at hslot
    rw [← hkept]
    exact hslot

/-- Adding a segment keeps the order and tracks at most one segment more. -/
theorem add_frame {id : SegmentId} {r : Revision} (h : ix.add id r = .ok ix') :
    ix'.order = ix.order ∧ ∀ id' ∈ ix'.tracked, id' = id ∨ id' ∈ ix.tracked := by
  rcases add_cases h with rfl | hadded
  · exact ⟨rfl, fun id' hid' => Or.inr hid'⟩
  · refine ⟨hadded.order_eq, fun id' hid' => ?_⟩
    rw [hadded.tracked_eq, Std.ExtTreeMap.mem_insert, Std.compare_eq_iff_eq] at hid'
    exact hid'.imp_left Eq.symm

/-- **A change is made of small ones.** What holds of an index holds after a change if no adopted
order, no removal of one segment and no addition of one segment spoils it. The additions are made
under the order that the change adopts, and they track nothing but what is tracked in the end. -/
theorem Exact.step_induction {P : Index → Prop} {change : Change} (hix : ix.Exact)
    (hstep : Step ix change ix') (hP : P ix)
    (hadopt : ∀ (mid : Index) (o : Order), P mid → P { mid with order := o })
    (hremove : ∀ (mid : Index) (id : SegmentId), mid.Exact → P mid → P (mid.remove id))
    (hadd : ∀ (mid mid' : Index) (id : SegmentId) (r : Revision), mid.Exact →
      mid.add id r = .ok mid' → mid'.order = ix'.order →
      (∀ id' ∈ mid'.tracked, id' ∈ ix'.tracked) → P mid → P mid') : P ix' := by
  cases hstep with
  | @update c p _ hplan hrun =>
    have hupdated := updated_of_carryOut hix hplan hrun
    -- the stale segments leave one after the other
    have hremoved : ∀ (ids : List SegmentId) (mid : Index), mid.Exact → P mid →
        P (ids.foldl Index.remove mid) := by
      intro ids
      induction ids with
      | nil => exact fun mid _ h => h
      | cons id ids ih => exact fun mid hmid h => ih _ (hmid.remove id) (hremove mid id hmid h)
    have hmid := hremoved p.stale _ (hix.setOrder c.order) (hadopt ix c.order hP)
    have hexact := (hix.setOrder c.order).removeAll p.stale
    have hretained : ∀ id ∈ (p.stale.foldl Index.remove { ix with order := c.order }).tracked,
        id ∈ c.segments := fun id hid => (hplan.retained hid).2.2
    have hsegments : ∀ q ∈ p.fresh, q.1 ∈ c.segments := fun q hq => hplan.mem_segments hq
    obtain ⟨horder, -, -⟩ := removeAll_frame { ix with order := c.order } p.stale
    rw [carryOut_eq] at hrun
    generalize p.stale.foldl Index.remove { ix with order := c.order } = mid
      at hmid hexact hretained horder hrun
    -- the fresh ones arrive one after the other, each of them a segment of the collection
    generalize p.fresh = fresh at hsegments hrun
    induction fresh generalizing mid with
    | nil => exact Except.ok.inj hrun ▸ hmid
    | cons q fresh ih =>
      rw [List.foldlM_cons] at hrun
      obtain ⟨mid₁, hone, hrest⟩ := bind_eq_ok_iff.mp hrun
      obtain ⟨horder₁, hgrow⟩ := add_frame hone
      have hretained₁ : ∀ id ∈ mid₁.tracked, id ∈ c.segments := by
        intro id hid
        rcases hgrow id hid with rfl | hold
        · exact hsegments q List.mem_cons_self
        · exact hretained id hold
      refine ih mid₁ ?_ (hexact.add hone) hretained₁ (horder₁.trans horder)
        (fun q' hq' => hsegments q' (List.mem_cons_of_mem q hq')) hrest
      refine hadd mid mid₁ q.1 q.2 hexact hone ?_ ?_ hmid
      · rw [hupdated.order_eq, horder₁, horder]
      · rwa [hupdated.tracked_eq]
  | add h => exact hadd ix ix' _ _ hix h rfl (fun _ hid => hid) hP
  | remove id => exact hremove ix id hix hP

/-! ## §4 When an update succeeds -/

/-- What is new in a collection can be arranged if the order can compare any two different segments
of it. -/
theorem exists_planFrom {trackedIds collectionIds : List SegmentId}
    (hcollection : collectionIds.Perm c.segments.keys)
    (hnew : ∀ a b, a ∈ c.segments → b ∈ c.segments → ¬ ix.isCurrent c a → ¬ ix.isCurrent c b →
      a ≠ b → ∃ n, c.order.compare a b = .ok n) :
    ∃ p, ix.planFrom c trackedIds collectionIds = .ok p := by
  have hnodup : (collectionIds.filter fun id => !ix.isCurrent c id).Nodup :=
    (hcollection.nodup_iff.mpr Std.ExtTreeMap.nodup_keys).filter _
  have hmem : ∀ id ∈ collectionIds.filter fun id => !ix.isCurrent c id,
      id ∈ c.segments ∧ ¬ ix.isCurrent c id := by
    intro id hid
    obtain ⟨hmem, hcurrent⟩ := List.mem_filter.mp hid
    exact ⟨Std.ExtTreeMap.mem_keys.mp (hcollection.mem_iff.mp hmem), by simpa using hcurrent⟩
  -- no id is listed twice, so the order is asked about different segments only
  have hanswers : (collectionIds.filter fun id => !ix.isCurrent c id).Pairwise
      fun b a => ∃ n, c.order.compare a b = .ok n := by
    refine hnodup.imp_of_mem fun {b a} hb ha hne => ?_
    exact hnew a b (hmem a ha).1 (hmem b hb).1 (hmem a ha).2 (hmem b hb).2 (Ne.symm hne)
  obtain ⟨ids, hids⟩ := Sorting.exists_sort_of_answers hanswers
  exact ⟨_, bind_eq_ok_iff.mpr ⟨ids, hids, rfl⟩⟩

/-- A segment can be added if, for each slot that it declares something for, the order can compare
its id and the segments of the slot with each other. -/
theorem exists_add {ids : SlotKey → Set SegmentId} {id : SegmentId} (hix : ix.Within ids)
    {r : Revision}
    (hr : ∀ k : SlotKey, k.sources r.content ≠ [] → id ∈ ids k ∧ ix.order.AnswersOn (ids k)) :
    ∃ ix', ix.add id r = .ok ix' ∧ ix'.order = ix.order ∧ ix'.Within ids := by
  cases hcontains : ix.contains id with
  | true => exact ⟨ix, add_of_contains hcontains, rfl, hix⟩
  | false =>
    rw [add_of_not_contains hcontains]
    have hopened : ({ ix with tracked := ix.tracked.insert id r } : Index).Within ids := by
      intro k e he
      rw [slot_tracked ix (ix.tracked.insert id r) k] at he
      exact hix k e he
    obtain ⟨ix', henter, hix'⟩ := exists_enter hopened hr
    exact ⟨ix', henter, (entered_of_enter henter).order_eq, hix'⟩

/-- Segments can be added one after the other if each of them can be compared with all that a slot
of its declarations ever holds. -/
theorem exists_addAll {ids : SlotKey → Set SegmentId} {fresh : List (SegmentId × Revision)}
    (hix : ix.Within ids) (hfresh : ∀ q ∈ fresh, ∀ k : SlotKey, k.sources q.2.content ≠ [] →
      q.1 ∈ ids k ∧ ix.order.AnswersOn (ids k)) :
    ∃ ix', fresh.foldlM (fun ix (id, r) => ix.add id r) ix = .ok ix' := by
  induction fresh generalizing ix with
  | nil => exact ⟨ix, rfl⟩
  | cons q fresh ih =>
    obtain ⟨ix₁, hadd, horder, hix₁⟩ := exists_add hix (hfresh q List.mem_cons_self)
    obtain ⟨ix', hix'⟩ := ih hix₁ fun q' hq' => horder ▸ hfresh q' (List.mem_cons_of_mem q hq')
    exact ⟨ix', by rw [List.foldlM_cons]; exact bind_eq_ok_iff.mpr ⟨ix₁, hadd, hix'⟩⟩

/-- **A plan can be carried out** if, for each slot, the segments of what is kept and of what
arrives can be compared with each other; a slot at which nothing arrives asks for nothing. -/
theorem exists_carryOut (ids : SlotKey → Set SegmentId) (hix : ix.Exact) (hplan : ix.Plans c p)
    (hkept : ∀ k : SlotKey, ∀ e ∈ ix.kept c k, k.segment e.address ∈ ids k)
    (hfresh : ∀ q ∈ p.fresh, ∀ k : SlotKey, k.sources q.2.content ≠ [] →
      q.1 ∈ ids k ∧ c.order.AnswersOn (ids k)) :
    ∃ ix', ix.carryOut c.order p = .ok ix' := by
  obtain ⟨horder, -, -⟩ := removeAll_frame { ix with order := c.order } p.stale
  -- what is left once the stale segments are gone is what is kept
  have hwithin : (p.stale.foldl remove { ix with order := c.order }).Within ids := by
    intro k e he
    rw [(hix.setOrder c.order).removeAll_slot p.stale k, slot_order ix c.order k,
      ← hplan.kept_eq hix k] at he
    exact hkept k e he
  rw [carryOut_eq]
  exact exists_addAll hwithin (horder ▸ hfresh)

/-- **An update succeeds** when the order of the collection is a total preorder on its segments. -/
theorem exists_update (hix : ix.Exact) (horder : c.order.TotalOn {id | id ∈ c.segments}) :
    ∃ ix', ix.update c = .ok ix' := by
  obtain ⟨p, hp⟩ : ∃ p, ix.plan c = .ok p := by
    refine exists_planFrom (List.Perm.refl _) fun a b ha hb _ _ hne => ?_
    obtain ⟨n, hn⟩ := horder.answers a ha b hb
    exact ⟨n, by rwa [Order.compareDistinct, if_neg hne] at hn⟩
  have hplan := plans_of_plan hp
  -- whatever a slot keeps or receives belongs to a segment of the collection
  obtain ⟨ix', hix'⟩ := exists_carryOut (fun _ => {id | id ∈ c.segments}) hix hplan
    (fun _ _ he => segment_of_mem_kept hix he)
    (fun _ hq _ _ => ⟨hplan.mem_segments hq, horder.answersOn⟩)
  exact ⟨ix', update_eq_ok_iff.mpr ⟨p, hp, hix'⟩⟩

end Index

/-! ## §5 A small database -/

namespace Sample

/-- A segment that declares `x` twice at one address, first as a variable. -/
def lower : Revision :=
  ⟨0, { symbols := [⟨"x", .variable, 1, 0⟩, ⟨"x", .constant, 1, 0⟩]
        localVars := []
        labels := [⟨"ax", 3⟩]
        floats := [⟨"x", "wx", "wff", 2⟩, ⟨"x", "cx", "class", 2⟩]
        disjoints := [⟨some ["y", "x"], 4⟩] }⟩

/-- A segment that declares the same label and the same symbol once more, and another symbol. -/
def upper : Revision :=
  ⟨1, { symbols := [⟨"z", .constant, 4, 0⟩, ⟨"x", .constant, 5, 0⟩]
        localVars := []
        labels := [⟨"ax", 7⟩]
        floats := []
        disjoints := [] }⟩

/-- The two segments, the upper one first. -/
def both : Collection :=
  ((Collection.empty (.listed (.ofDistinct [2, 1] (by decide)))).put 1 lower).put 2 upper

theorem mem_both {id : SegmentId} (h : id ∈ both.segments) : id = 1 ∨ id = 2 := by
  simp only [both, Collection.put, Collection.empty, Std.ExtTreeMap.mem_insert,
    Std.compare_eq_iff_eq, Std.ExtTreeMap.not_mem_empty, or_false] at h
  rcases h with rfl | rfl
  · exact Or.inr rfl
  · exact Or.inl rfl

/-- The order of the sample arranges its segments strictly. -/
theorem strictOn_both : both.order.StrictOn {id | id ∈ both.segments} := by
  refine (Order.strictOn_listed _).mono fun id hid => ?_
  rcases mem_both hid with rfl | rfl <;> simp

end Sample

end NameIndex
