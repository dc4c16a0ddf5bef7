import NameIndex.Proofs.HandleOrder

/-!
# What the log tells about the tracked segments

Maintenance writes a line when a segment begins to be tracked and one when it ceases to be. The
index is not asked what it tracks, and calls that change nothing write nothing; still the lines
about one segment say at every moment whether it is tracked. They alternate, because a segment is
added only if it is not tracked and removed only if it is, and a segment that is replaced is removed
and added.

An update writes the lines of its removals and of its additions, and a line that counts them. The
removals come in any sequence, the additions in the order of the document.

## Main definitions

* `Event.marks` — the messages of a log about one segment.
* `Event.Alternates` — additions and removals take turns.
* `Index.Logged` — runs of changes with what they write.

## Main results

* `Index.Replayed.step` — a change keeps the log and the tracked segments in agreement.
* `Index.Plans.events_eq` — what an update writes.
* `Index.Plans.size_eq` — the count of segments that an update leaves.
* `Index.tracked_of_log` — the log replays the tracked segments.
-/

namespace NameIndex

/-! ## §1 The lines about one segment -/

namespace Event

/-- The event is about the segment: it has the id in the field for it. -/
def concerns (id : SegmentId) (e : Event) : Bool := ("segment", id.toNat) ∈ e.fields

/-- The messages of a log about one segment. -/
def marks (id : SegmentId) (log : List Event) : List String :=
  (log.filter (concerns id)).map message

variable {id other : SegmentId} {log : List Event}

@[simp] theorem concerns_removed : concerns other (.removed id) = decide (other = id) := by
  simp [concerns, fields, UInt32.toNat_inj]

@[simp] theorem concerns_ofSegment {s : Segment} :
    concerns other (.ofSegment id s) = decide (other = id) := by
  simp [concerns, ofSegment, fields, UInt32.toNat_inj]

@[simp] theorem concerns_updated {gone new all : Nat} :
    concerns other (.updated gone new all) = false := by
  simp [concerns, fields]

theorem marks_append_of_concerns {e : Event} (h : e.concerns id) :
    marks id (log ++ [e]) = marks id log ++ [e.message] := by
  simp [marks, h]

theorem marks_append_of_not_concerns {e : Event} (h : e.concerns id = false) :
    marks id (log ++ [e]) = marks id log := by
  simp [marks, h]

/-- Additions and removals take turns, beginning with an addition; the flag tells whether the last
message is one. -/
inductive Alternates : List String → Bool → Prop where
  | nil : Alternates [] false
  | added {messages : List String} (h : Alternates messages false) :
      Alternates (messages ++ ["segment added"]) true
  | removed {messages : List String} (h : Alternates messages true) :
      Alternates (messages ++ ["segment removed"]) false

namespace Alternates

variable {messages : List String} {last : Bool}

theorem length_mod_two (h : Alternates messages last) :
    messages.length % 2 = if last then 1 else 0 := by
  induction h with
  | nil => rfl
  | added _ ih =>
    rw [if_neg Bool.false_ne_true] at ih
    rw [if_pos rfl, List.length_append, List.length_singleton]
    omega
  | removed _ ih =>
    rw [if_pos rfl] at ih
    rw [if_neg Bool.false_ne_true, List.length_append, List.length_singleton]
    omega

/-- A message of a longer list is one of the shorter list, or the last one. -/
theorem getElem?_concat_eq_some {i : Nat} {m m' : String}
    (h : (messages ++ [m'])[i]? = some m) :
    messages[i]? = some m ∨ i = messages.length ∧ m = m' := by
  rw [List.getElem?_append] at h
  split at h
  · exact Or.inl h
  · next hle =>
    obtain ⟨hlt, hm⟩ := List.getElem?_eq_some_iff.mp h
    rw [List.length_singleton] at hlt
    exact Or.inr ⟨by omega, by simpa using hm.symm⟩

/-- Additions stand at the even places, removals at the odd ones. -/
theorem message_eq (h : Alternates messages last) {i : Nat} {m : String}
    (hi : messages[i]? = some m) :
    m = if i % 2 = 0 then "segment added" else "segment removed" := by
  induction h with
  | nil => simp at hi
  | added h ih =>
    -- an even number of messages comes before an addition
    rcases getElem?_concat_eq_some hi with hi | ⟨rfl, rfl⟩
    · exact ih hi
    · rw [h.length_mod_two]
      rfl
  | removed h ih =>
    -- and an odd number before a removal
    rcases getElem?_concat_eq_some hi with hi | ⟨rfl, rfl⟩
    · exact ih hi
    · rw [h.length_mod_two]
      rfl

theorem getLast?_iff (h : Alternates messages last) :
    last = true ↔ messages.getLast? = some "segment added" := by
  cases h <;> simp

end Alternates

end Event

namespace Index

variable {ix ix' : Index} {c : Collection} {p : UpdatePlan} {id other : SegmentId} {r : Revision}
  {log events : List Event} {change : Change}

/-! ## §2 The tracked segments of one step -/

theorem compare_eq_beq (id other : SegmentId) : (compare id other == .eq) = (other == id) := by
  rw [Bool.eq_iff_iff, beq_iff_eq, beq_iff_eq, Std.compare_eq_iff_eq, eq_comm]

theorem contains_remove : (ix.remove id).contains other = (other != id && ix.contains other) := by
  obtain ⟨-, htracked, -⟩ := ix.remove_frame id
  rw [contains, htracked, Std.ExtTreeMap.contains_erase, bne, compare_eq_beq]
  rfl

theorem Added.contains_eq (h : Added ix id r ix') :
    ix'.contains other = (other == id || ix.contains other) := by
  rw [contains, h.tracked_eq, Std.ExtTreeMap.contains_insert, compare_eq_beq]
  rfl

theorem Plans.nodup_stale (hplan : ix.Plans c p) : p.stale.Nodup :=
  hplan.1.nodup_iff.mpr (Std.ExtTreeMap.nodup_keys.filter _)

/-- **The count of an update**: the collection has as many segments as were tracked, less those
removed, with those added. -/
theorem Plans.size_eq (hplan : ix.Plans c p) :
    c.segments.size + p.stale.length = ix.tracked.size + p.fresh.length := by
  have hadded : p.fresh.length = (c.segments.keys.filter fun id => !ix.isCurrent c id).length := by
    obtain ⟨-, ids, hids, hfresh⟩ := hplan
    have hmem : ∀ id ∈ ids, id ∈ c.segments := fun id hid =>
      Std.ExtTreeMap.mem_keys.mp (List.mem_filter.mp (hids.mem_iff.mp hid)).1
    rw [← hids.length_eq, ← map_fst_filterMap hmem, ← hfresh, List.length_map]
  -- what is current stands in both maps
  have hcurrent : (ix.tracked.keys.filter (ix.isCurrent c)).Perm
      (c.segments.keys.filter (ix.isCurrent c)) := by
    apply (List.perm_ext_iff_of_nodup (Std.ExtTreeMap.nodup_keys.filter _)
      (Std.ExtTreeMap.nodup_keys.filter _)).mpr
    intro id
    simp only [List.mem_filter, Std.ExtTreeMap.mem_keys, Std.ExtTreeMap.mem_iff_isSome_getElem?]
    apply and_congr_left
    intro hsame
    rw [isCurrent_iff.mp hsame]
  have htracked := List.length_eq_length_filter_add (ix.isCurrent c) (l := ix.tracked.keys)
  have hsegments := List.length_eq_length_filter_add (ix.isCurrent c) (l := c.segments.keys)
  rw [Std.ExtTreeMap.length_keys] at htracked hsegments
  rw [hadded, hplan.1.length_eq, htracked, hsegments, hcurrent.length_eq]
  omega

/-! ## §3 Agreement of log and index -/

/-- The lines about each segment alternate, and tell whether the index tracks it. -/
def Replayed (ix : Index) (log : List Event) : Prop :=
  ∀ id, Event.Alternates (Event.marks id log) (ix.contains id)

namespace Replayed

theorem new (order : Order) : (Index.new order).Replayed [] := by
  intro id
  have hnone : (Index.new order).contains id = false := Std.ExtTreeMap.contains_empty
  rw [hnone]
  exact .nil

/-- A removal writes about its segment, and turns the mark of no other. -/
theorem removed (h : ix.Replayed log) (hid : ix.contains id) :
    (ix.remove id).Replayed (log ++ [.removed id]) := by
  intro other
  rw [contains_remove]
  by_cases heq : other = id
  · subst heq
    -- its lines end in an addition, so it is the turn of a removal
    have htracked := h other
    rw [hid] at htracked
    rw [Event.marks_append_of_concerns (by simp), bne_self_eq_false, Bool.false_and]
    exact .removed htracked
  · rw [Event.marks_append_of_not_concerns (by simpa using heq), bne_iff_ne.mpr heq, Bool.true_and]
    exact h other

/-- An addition of a segment that is not tracked writes about it alone, too. -/
theorem added (h : ix.Replayed log) (hadded : Added ix id r ix') :
    ix'.Replayed (log ++ [.ofSegment id r.content]) := by
  intro other
  rw [hadded.contains_eq]
  by_cases heq : other = id
  · subst heq
    -- it has no lines yet, or they end in a removal
    have huntracked := h other
    rw [contains_eq_false_iff.mpr hadded.fresh] at huntracked
    rw [Event.marks_append_of_concerns (by simp), BEq.rfl, Bool.true_or]
    exact .added huntracked
  · rw [Event.marks_append_of_not_concerns (by simpa using heq), beq_false_of_ne heq,
      Bool.false_or]
    exact h other

theorem remove (h : ix.Replayed log) (id : SegmentId) :
    (ix.remove id).Replayed (log ++ (ix.removeReporting id).2) := by
  rw [removeReporting_snd]
  cases hid : ix.contains id with
  | true => exact h.removed hid
  | false =>
    rw [remove_of_untracked (contains_eq_false_iff.mp hid)]
    simpa using h

theorem add (h : ix.Replayed log) (hadd : ix.addReporting id r = .ok (ix', events)) :
    ix'.Replayed (log ++ events) := by
  obtain ⟨hone, rfl⟩ := addReporting_eq_ok_iff.mp hadd
  cases hid : ix.contains id with
  | true =>
    -- an id that is tracked keeps its segment, and nothing is written
    rw [add_of_contains hid] at hone
    obtain rfl := Except.ok.inj hone
    simpa using h
  | false => exact h.added (added_of_add (contains_eq_false_iff.mp hid) hone)

theorem updated (h : ix.Replayed log) (gone new all : Nat) :
    ix.Replayed (log ++ [.updated gone new all]) := by
  intro id
  rw [Event.marks_append_of_not_concerns Event.concerns_updated]
  exact h id

theorem removeAll (h : ix.Replayed log) (ids : List SegmentId) :
    (ix.removeAllReporting ids).1.Replayed (log ++ (ix.removeAllReporting ids).2) := by
  induction ids generalizing ix log with
  | nil => simpa [removeAllReporting] using h
  | cons id ids ih =>
    have hrest := ih (h.remove id)
    rwa [List.append_assoc] at hrest

theorem addAll {fresh : List (SegmentId × Revision)} (h : ix.Replayed log)
    (hadd : ix.addAllReporting fresh = .ok (ix', events)) : ix'.Replayed (log ++ events) := by
  induction fresh generalizing ix log events with
  | nil =>
    obtain ⟨rfl, rfl⟩ := Prod.mk.inj (Except.ok.inj hadd)
    simpa using h
  | cons q fresh ih =>
    obtain ⟨mid, first, later, hone, hrest, rfl⟩ := addAllReporting_cons_eq_ok_iff.mp hadd
    rw [← List.append_assoc]
    exact ih (h.add hone) hrest

/-- An update is its removals, its additions and a count of them. -/
theorem carryOut (h : ix.Replayed log) {o : Order}
    (hrun : ix.carryOutReporting o p = .ok (ix', events)) : ix'.Replayed (log ++ events) := by
  -- the order is adopted first, which changes nothing that is tracked
  have hadopted : ({ ix with order := o } : Index).Replayed log := h
  obtain ⟨⟨after, new⟩, hadd, hrun⟩ := bind_eq_ok_iff.mp hrun
  obtain ⟨rfl, rfl⟩ := Prod.mk.inj (Except.ok.inj hrun)
  rw [← List.append_assoc, ← List.append_assoc]
  exact ((hadopted.removeAll p.stale).addAll hadd).updated _ _ _

end Replayed

/-! ## §4 Runs with their logs -/

/-- **Runs with their logs**: what successful changes make of an index without segments, and what
they have written. -/
inductive Logged : List Event → Index → Prop where
  | new (order : Order) : Logged [] (Index.new order)
  | step {log events : List Event} {ix ix' : Index} {change : Change} (hlog : Logged log ix)
      (hstep : ix.Reports change events ix') : Logged (log ++ events) ix'

theorem Logged.reachable (h : Logged log ix) : ix.Reachable := by
  induction h with
  | new order => exact .new order
  | step _ hstep ih => exact ih.step hstep.step

theorem Logged.run (hlog : Logged log ix) {changes : List Change}
    (h : ix.run changes = .ok (ix', events)) : Logged (log ++ events) ix' := by
  induction changes generalizing ix log events with
  | nil =>
    obtain ⟨rfl, rfl⟩ := Prod.mk.inj (Except.ok.inj h)
    rwa [List.append_nil]
  | cons change rest ih =>
    obtain ⟨⟨ix₁, first⟩, hfirst, h⟩ := bind_eq_ok_iff.mp h
    obtain ⟨⟨ix₂, later⟩, hlater, h⟩ := bind_eq_ok_iff.mp h
    obtain ⟨rfl, rfl⟩ := Prod.mk.inj (Except.ok.inj h)
    rw [← List.append_assoc]
    exact ih (hlog.step (reports_of_apply hfirst)) hlater

/-- **One change** keeps log and index in agreement. -/
theorem Replayed.step (h : ix.Replayed log) (hstep : ix.Reports change events ix') :
    ix'.Replayed (log ++ events) := by
  cases hstep with
  | update _ hrun => exact h.carryOut hrun
  | add hadd => exact h.add hadd
  | remove id => exact h.remove id

/-- **A run** keeps log and index in agreement. -/
theorem Logged.replayed (h : Logged log ix) : ix.Replayed log := by
  induction h with
  | new order => exact .new order
  | step _ hstep ih => exact ih.step hstep

/-! ## §5 What the log tells -/

/-- **The removals of an update** write one line each: different segments that are tracked. -/
theorem removeAllReporting_snd {ids : List SegmentId} (hnodup : ids.Nodup)
    (hids : ∀ id ∈ ids, ix.contains id) : (ix.removeAllReporting ids).2 = ids.map .removed := by
  induction ids generalizing ix with
  | nil => rfl
  | cons id ids ih =>
    obtain ⟨hid, hrest⟩ := List.forall_mem_cons.mp hids
    obtain ⟨hnew, hnodup⟩ := List.nodup_cons.mp hnodup
    have hlater : ((ix.remove id).removeAllReporting ids).2 = ids.map .removed := by
      apply ih hnodup
      intro other hother
      -- no segment is named twice, so the others are still tracked
      have hne : other ≠ id := fun heq => hnew (heq ▸ hother)
      rw [contains_remove, bne_iff_ne.mpr hne, Bool.true_and]
      exact hrest other hother
    show (ix.removeReporting id).2 ++ ((ix.remove id).removeAllReporting ids).2 = _
    rw [removeReporting_snd, if_pos hid, hlater]
    rfl

/-- **The additions of an update** write one line each: different segments that are not tracked. -/
theorem addAllReporting_snd {fresh : List (SegmentId × Revision)}
    (hnodup : (fresh.map Prod.fst).Nodup) (hnew : ∀ q ∈ fresh, ix.tracked[q.1]? = none)
    (hadd : ix.addAllReporting fresh = .ok (ix', events)) :
    events = fresh.map fun (id, r) => .ofSegment id r.content := by
  induction fresh generalizing ix events with
  | nil => exact (Prod.mk.inj (Except.ok.inj hadd)).2.symm
  | cons q fresh ih =>
    obtain ⟨mid, first, later, hone, hrest, rfl⟩ := addAllReporting_cons_eq_ok_iff.mp hadd
    obtain ⟨hmid, rfl⟩ := addReporting_eq_ok_iff.mp hone
    have hfresh := hnew q List.mem_cons_self
    rw [List.map_cons, List.nodup_cons] at hnodup
    -- the segments that follow have other ids, so they are still untracked
    have hadded := added_of_add hfresh hmid
    have hnew₁ := hadded.untracked hnodup.1 fun q hq => hnew q (List.mem_cons_of_mem _ hq)
    rw [if_neg (by simp [contains_eq_false_iff.mpr hfresh]), ih hnodup.2 hnew₁ hrest]
    rfl

/-- **What an update writes**: its removals, its additions, and a line that counts them. -/
theorem Plans.events_eq (hplan : ix.Plans c p)
    (hrun : ix.carryOutReporting c.order p = .ok (ix', events)) :
    events = p.stale.map .removed ++ p.fresh.map (fun (id, r) => .ofSegment id r.content) ++
      [.updated p.stale.length p.fresh.length ix'.tracked.size] := by
  obtain ⟨⟨after, new⟩, hadd, hrun⟩ := bind_eq_ok_iff.mp hrun
  obtain ⟨rfl, rfl⟩ := Prod.mk.inj (Except.ok.inj hrun)
  have hnew : ∀ q ∈ p.fresh,
      ({ ix with order := c.order }.removeAllReporting p.stale).1.tracked[q.1]? = none := by
    rw [removeAllReporting_fst]
    exact hplan.untracked_fresh
  have hgone : ({ ix with order := c.order }.removeAllReporting p.stale).2 =
      p.stale.map .removed :=
    removeAllReporting_snd hplan.nodup_stale fun id hid =>
      Std.ExtTreeMap.contains_iff_mem.mpr (hplan.mem_stale.mp hid).1
  rw [addAllReporting_snd hplan.nodup_fresh hnew hadd, hgone]

/-- **The log replays the tracked segments.** Along every run the lines about a segment alternate,
beginning with an addition, and the segment is tracked exactly if the last of them is one. An update
under an order that is strict on what is new, from any listings of the maps, writes one removal for
each tracked segment that the collection lacks or holds otherwise, then the additions of what is new
in the order of the collection, then one line that counts both and the segments: those of the
collection, which are those tracked before, less the removed ones, with the added ones. -/
theorem tracked_of_log (hlog : Logged log ix) :
    (∀ id, (∀ (i : Nat) m, (Event.marks id log)[i]? = some m →
          m = if i % 2 = 0 then "segment added" else "segment removed") ∧
        (ix.contains id ↔ (Event.marks id log).getLast? = some "segment added")) ∧
    ∀ (c : Collection) (trackedIds collectionIds : List SegmentId) (p : UpdatePlan) (ix' : Index),
      trackedIds.Perm ix.tracked.keys → collectionIds.Perm c.segments.keys →
      c.order.StrictOn {id | ∃ r, ix.Brings (.update c) id r} →
      ix.planFrom c trackedIds collectionIds = .ok p → ix.carryOut c.order p = .ok ix' →
      ∃ events, ix.carryOutReporting c.order p = .ok (ix', events) ∧ Logged (log ++ events) ix' ∧
      ∃ (gone : List SegmentId) (added : List (SegmentId × Revision)),
        events =
          gone.map .removed ++ added.map (fun (id, r) => .ofSegment id r.content) ++
            [.updated gone.length added.length c.segments.size] ∧
        gone.Nodup ∧
        (∀ id, id ∈ gone ↔ ix.contains id ∧ ix.tracked[id]? ≠ c.segments[id]?) ∧
        ix.Additions c added ∧
        (c.segments.size : Int) = ix.tracked.size - gone.length + added.length := by
  constructor
  · intro id
    have halternates := hlog.replayed id
    exact ⟨fun i m hi => halternates.message_eq hi, halternates.getLast?_iff⟩
  · intro c trackedIds collectionIds p ix' htracked hcollection horder hp hrun
    have hplan := plans_of_planFrom htracked hcollection hp
    have hsegments : ix'.tracked = c.segments :=
      (updated_of_carryOut hlog.reachable.exact hplan hrun).tracked_eq
    obtain ⟨events, hevents⟩ := carryOut_eq_ok_iff.mp hrun
    refine ⟨events, hevents, hlog.step (.update hplan hevents), p.stale, p.fresh, ?_,
      hplan.nodup_stale, ?_, ?_, ?_⟩
    · rw [hplan.events_eq hevents, hsegments]
    · intro id
      rw [hplan.mem_stale, contains, Std.ExtTreeMap.contains_iff_mem]
    · exact additions_of_planFrom htracked hcollection horder hp
    · have hsize := hplan.size_eq
      omega

end Index

/-- An update, a removal with a second one that does nothing, and an addition with a second one that
does nothing. -/
def Sample.handled : List Change :=
  [.update both, .remove 1, .remove 1, .add 1 lower, .add 1 upper]

namespace Index

/-- The calls that do nothing write nothing, so the three lines about the segment 1 alternate and
say that it is tracked. Exchanging the contents then removes both segments and adds both again, in
the order of the document. -/
theorem tracked_of_log_exchanged :
    ∃ log ix ix', (new .empty).run Sample.handled = .ok (ix, log) ∧
      Event.marks 1 log = ["segment added", "segment removed", "segment added"] ∧
      ix.contains 1 ∧
      ix.carryOutReporting Sample.exchanged.order
          ⟨[1, 2], [(2, Sample.lower), (1, Sample.upper)]⟩ =
        .ok (ix', [.removed 1, .removed 2, .added 2 2 1 2 1, .added 1 2 1 0 0, .updated 2 2 2]) ∧
      ∃ (gone : List SegmentId) (added : List (SegmentId × Revision)),
        [Event.removed 1, .removed 2, .added 2 2 1 2 1, .added 1 2 1 0 0, .updated 2 2 2] =
          gone.map .removed ++ added.map (fun (id, r) => .ofSegment id r.content) ++
            [.updated gone.length added.length Sample.exchanged.segments.size] ∧
        (∀ id, id ∈ gone ↔
          ix.contains id ∧ ix.tracked[id]? ≠ Sample.exchanged.segments[id]?) ∧
        ix.Additions Sample.exchanged added := by
  let plan : UpdatePlan := ⟨[1, 2], [(2, Sample.lower), (1, Sample.upper)]⟩
  have hfacts : ((new .empty).run Sample.handled).toOption.map (fun outcome =>
      (Event.marks 1 outcome.2, outcome.1.tracked.keys,
        (outcome.1.planFrom Sample.exchanged [1, 2] [2, 1]).toOption,
        (outcome.1.carryOutReporting Sample.exchanged.order plan).toOption.map (·.2))) =
      some (["segment added", "segment removed", "segment added"], [1, 2], some plan,
        some [.removed 1, .removed 2, .added 2 2 1 2 1, .added 1 2 1 0 0, .updated 2 2 2]) := by
    decide +kernel
  obtain ⟨⟨ix, log⟩, hsome, hfacts⟩ := Option.map_eq_some_iff.mp hfacts
  obtain ⟨hmarks, hfacts⟩ := Prod.mk.inj hfacts
  obtain ⟨hkeys, hfacts⟩ := Prod.mk.inj hfacts
  obtain ⟨hplan, hrun⟩ := Prod.mk.inj hfacts
  obtain ⟨⟨ix', written⟩, hrun, rfl⟩ := Option.map_eq_some_iff.mp hrun
  have hrun := eq_ok_of_toOption hrun
  have hlogged := (Logged.new .empty).run (eq_ok_of_toOption hsome)
  obtain ⟨hlines, hupdate⟩ := tracked_of_log hlogged
  have horder : Sample.exchanged.order.StrictOn
      {id | ∃ r, ix.Brings (.update Sample.exchanged) id r} := by
    apply Sample.covered_exchanged.strictOn.mono
    rintro id ⟨r, hr⟩
    exact Brings.mem_segments hr
  obtain ⟨events, hevents, -, gone, added, hlines', -, hgone, hadded, -⟩ :=
    hupdate Sample.exchanged [1, 2] [2, 1] plan ix' (by rw [hkeys]) (by decide +kernel) horder
      (eq_ok_of_toOption hplan) (carryOut_eq_ok_iff.mpr ⟨_, hrun⟩)
  -- the plan is carried out once, so what is written is what the update writes
  obtain ⟨-, rfl⟩ := Prod.mk.inj (Except.ok.inj (hrun.symm.trans hevents))
  refine ⟨log, ix, ix', eq_ok_of_toOption hsome, hmarks, ?_, hrun, gone, added, hlines', hgone,
    hadded⟩
  rw [(hlines 1).2]
  show (Event.marks 1 log).getLast? = some "segment added"
  rw [hmarks]
  rfl

end Index

end NameIndex
