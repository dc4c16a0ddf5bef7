import NameIndex.Index.Update
import NameIndex.Proofs.Tidy

/-!
# What the slots hold

The entries of a slot are the declarations of the tracked segments, each once, whatever orders the
run of changes has used. An index with this property is **exact** (`Index.Exact`).

The declarations of the tracked segments are laid out segment by segment, in an order that means
nothing, so lists of entries are compared **by blocks**: two lists agree when they show the same
entries of each segment in the same sequence. Agreement by blocks is finer than being a
rearrangement and coarser than equality; it is what adding and removing a segment preserve.

## Main results

* `Index.Exact.add`, `Index.Exact.remove`, `Index.Exact.carryOut` — changes keep an index exact.
* `Index.Exact.remove_slot` — removing a segment drops the entries of that segment and no others.
-/

namespace NameIndex

/-! ## §1 Agreement by blocks -/

namespace SlotKey

/-- The two lists show the same entries of each segment, in the same sequence. -/
def SameBlocks (k : SlotKey) (xs ys : List (Entry k.Address k.Value)) : Prop :=
  ∀ id, xs.filter (fun e => k.segment e.address = id) =
    ys.filter fun e => k.segment e.address = id

variable {k : SlotKey} {xs ys : List (Entry k.Address k.Value)}

theorem SameBlocks.symm (h : k.SameBlocks xs ys) : k.SameBlocks ys xs := fun id => (h id).symm

/-- Lists that agree by blocks are rearrangements of each other. -/
theorem SameBlocks.perm (h : k.SameBlocks xs ys) : xs.Perm ys := by
  classical
  rw [List.perm_iff_count]
  intro e
  -- an entry is counted in the block of its own segment
  have hcount : ∀ l : List (Entry k.Address k.Value),
      l.count e = (l.filter fun x => k.segment x.address = k.segment e.address).count e := by
    intro l
    rw [List.count_filter]
    simp
  rw [hcount xs, hcount ys, h]

/-- An address lies in one block, so lists that agree by blocks show its entries alike. -/
theorem SameBlocks.filter_address (h : k.SameBlocks xs ys) (a : k.Address) :
    xs.filter (fun e => e.address = a) = ys.filter fun e => e.address = a := by
  have hblock : ∀ l : List (Entry k.Address k.Value), l.filter (fun e => e.address = a) =
      (l.filter fun e => k.segment e.address = k.segment a).filter fun e => e.address = a := by
    intro l
    rw [List.filter_filter]
    refine List.filter_congr fun e _ => ?_
    by_cases he : e.address = a <;> simp [he]
  rw [hblock xs, hblock ys, h]

/-- Under a strict order, level entries lie in one block, so lists that agree by blocks show them
alike. -/
theorem SameBlocks.filter_ties {o : Order} {ids : Set SegmentId} (h : k.SameBlocks xs ys)
    (ho : o.StrictOn ids) (hxs : ∀ e ∈ xs, k.segment e.address ∈ ids)
    {x : Entry k.Address k.Value} (hx : k.segment x.address ∈ ids) :
    xs.filter (Sorting.ties (Slot.byAddress (k.compare o)) x) =
      ys.filter (Sorting.ties (Slot.byAddress (k.compare o)) x) := by
  have hys : ∀ e ∈ ys, k.segment e.address ∈ ids := fun e he => hxs e (h.perm.mem_iff.mpr he)
  have hblock : ∀ l : List (Entry k.Address k.Value), (∀ e ∈ l, k.segment e.address ∈ ids) →
      l.filter (Sorting.ties (Slot.byAddress (k.compare o)) x) =
        (l.filter fun e => k.segment e.address = k.segment x.address).filter
          (Sorting.ties (Slot.byAddress (k.compare o)) x) := by
    intro l hl
    rw [List.filter_filter]
    refine List.filter_congr fun e he => ?_
    cases htie : Sorting.ties (Slot.byAddress (k.compare o)) x e with
    | false => rfl
    | true =>
      have heq := SlotKey.eq_of_ties ho k hx (hl e he) htie
      simp [heq]
  rw [hblock xs hxs, hblock ys hys, h]

end SlotKey

/-! ## §2 The declarations of the tracked segments -/

theorem Segment.mem_names_of_float {s : Segment} {d : FloatDecl} (hd : d ∈ s.floats) :
    d.typecode ∈ s.names := by
  refine List.mem_flatMap.mpr ⟨.float d, ?_, by simp [Declaration.names]⟩
  simp [Segment.declarations, hd]

theorem Segment.mem_names_of_disjoint {s : Segment} {d : DisjointDecl} (hd : d ∈ s.disjoints)
    {n : String} (hn : n ∈ d.names) : n ∈ s.names := by
  refine List.mem_flatMap.mpr ⟨.disjoint d, ?_, hn⟩
  simp [Segment.declarations, hd]

namespace SlotKey

/-- What a declaration records does not change while the table of names grows. -/
theorem declared_mono {k : SlotKey} {t t' : AtomTable} {id : SegmentId} {s : Segment}
    (hnames : ∀ n ∈ s.names, n ∈ t.names) (ht : t.names <+: t'.names) :
    k.declared t' id s = k.declared t id s := by
  refine List.map_congr_left fun d hd => ?_
  unfold entry
  congr 1
  cases k with
  | label _ | all _ | constants _ => rfl
  | floats n =>
    have hmem := Segment.mem_names_of_float (List.mem_filter.mp hd).1
    simp only [value, AtomTable.atomOf_mono ht (hnames _ hmem)]
  | disjoints =>
    refine congrArg DisjointGroup.ofVars ?_
    refine List.map_congr_left fun n hn => AtomTable.atomOf_mono ht (hnames n ?_)
    exact Segment.mem_names_of_disjoint hd hn

end SlotKey

namespace Index

variable {ix ix' : Index} {id : SegmentId} {r : Revision}

/-- What the tracked segment with an id declares for a slot. -/
def block (ix : Index) (k : SlotKey) (id : SegmentId) : List (Entry k.Address k.Value) :=
  match ix.tracked[id]? with
  | some r => k.declared ix.atoms id r.content
  | none => []

/-- The names of the tracked segments are interned. -/
def Interned (ix : Index) : Prop :=
  ∀ (id : SegmentId) (r : Revision), ix.tracked[id]? = some r →
    ∀ n ∈ r.content.names, n ∈ ix.atoms.names

/-- A map lists a key at most once, with its value. -/
theorem filter_toList_eq (m : Std.ExtTreeMap SegmentId Revision) (id : SegmentId) :
    m.toList.filter (fun p => p.1 = id) = (m[id]?.map (id, ·)).toList := by
  have hnodup : (m.toList.filter fun p => p.1 = id).Nodup := by
    refine List.Nodup.filter _ (Std.ExtTreeMap.distinct_keys_toList.imp fun {p q} hne => ?_)
    rintro rfl
    simp at hne
  cases hm : m[id]? with
  | none =>
    refine List.filter_eq_nil_iff.mpr fun p hp => ?_
    have hget := Std.ExtTreeMap.mem_toList_iff_getElem?_eq_some.mp hp
    intro hid
    rw [of_decide_eq_true hid, hm] at hget
    simp at hget
  | some r =>
    refine List.perm_singleton.mp
      ((List.perm_ext_iff_of_nodup hnodup (List.nodup_singleton (id, r))).mpr fun p => ?_)
    obtain ⟨id', r'⟩ := p
    rw [List.mem_filter, Std.ExtTreeMap.mem_toList_iff_getElem?_eq_some, List.mem_singleton,
      decide_eq_true_eq, Prod.mk.injEq]
    constructor
    · rintro ⟨hget, rfl⟩
      exact ⟨rfl, Option.some.inj (hget.symm.trans hm)⟩
    · rintro ⟨rfl, rfl⟩
      exact ⟨hm, rfl⟩

/-- What the segments of a map give rise to, one after the other, falls into one block for each
segment. -/
theorem filter_flatMap_toList {β : Type} (m : Std.ExtTreeMap SegmentId Revision)
    (f : SegmentId → Revision → List β) {tag : β → SegmentId}
    (htag : ∀ id r, ∀ b ∈ f id r, tag b = id) (id : SegmentId) :
    (m.toList.flatMap fun p => f p.1 p.2).filter (fun b => tag b = id) =
      match m[id]? with
      | some r => f id r
      | none => [] := by
  -- a segment gives rise to its own block and to nothing in any other
  have hblock : ∀ l : List (SegmentId × Revision),
      (l.flatMap fun p => f p.1 p.2).filter (fun b => tag b = id) =
        (l.filter (fun p => p.1 = id)).flatMap fun p => f p.1 p.2 := by
    intro l
    induction l with
    | nil => rfl
    | cons p l ih =>
      rw [List.flatMap_cons, List.filter_append, ih]
      by_cases hp : p.1 = id
      · have hself : (f p.1 p.2).filter (fun b => tag b = id) = f p.1 p.2 :=
          List.filter_eq_self.mpr fun b hb => by simp [htag _ _ b hb, hp]
        rw [hself, List.filter_cons_of_pos (by simpa using hp), List.flatMap_cons]
      · have hnil : (f p.1 p.2).filter (fun b => tag b = id) = [] :=
          List.filter_eq_nil_iff.mpr fun b hb => by simp [htag _ _ b hb, hp]
        rw [hnil, List.filter_cons_of_neg (by simpa using hp), List.nil_append]
  rw [hblock, filter_toList_eq]
  cases m[id]? with
  | none => rfl
  | some r => simp

/-- The entries that the tracked segments declare lie in one block for each segment. -/
theorem filter_declared (ix : Index) (k : SlotKey) (id : SegmentId) :
    (ix.declared k).filter (fun e => k.segment e.address = id) = ix.block k id :=
  filter_flatMap_toList ix.tracked (fun id r => k.declared ix.atoms id r.content)
    (fun _ _ _ he => SlotKey.segment_of_mem_declared he) id

/-- An entry is declared by the tracked segment of its address. -/
theorem mem_declared_iff {k : SlotKey} {e : Entry k.Address k.Value} :
    e ∈ ix.declared k ↔ e ∈ ix.block k (k.segment e.address) := by
  rw [← filter_declared]
  simp

theorem tracked_of_mem_declared {k : SlotKey} {e : Entry k.Address k.Value}
    (h : e ∈ ix.declared k) : k.segment e.address ∈ ix.tracked := by
  rw [mem_declared_iff, block] at h
  split at h
  · next r hr => exact Std.ExtTreeMap.mem_iff_isSome_getElem?.mpr (by simp [hr])
  · simp at h

/-- The block of a segment that both indexes track stays while the table of names grows. -/
theorem block_mono (hint : ix.Interned) (hnames : ix.atoms.names <+: ix'.atoms.names)
    (htracked : ix'.tracked[id]? = ix.tracked[id]?) (k : SlotKey) :
    ix'.block k id = ix.block k id := by
  unfold block
  rw [htracked]
  split
  · next r hr => exact SlotKey.declared_mono (hint id r hr) hnames
  · rfl

/-! ## §3 Adding a segment -/

/-- **What adding a new segment does**: it is tracked, its entries arrive in each slot, and its
names are interned. -/
structure Added (ix : Index) (id : SegmentId) (r : Revision) (ix' : Index) : Prop where
  fresh : ix.tracked[id]? = none
  order_eq : ix'.order = ix.order
  tracked_eq : ix'.tracked = ix.tracked.insert id r
  names_grow : ix.atoms.names <+: ix'.atoms.names
  slots : ∀ t : AtomTable, ix'.atoms.names <+: t.names → ∀ k : SlotKey,
    Slot.insertAll (k.compare ix.order) (ix.slot k) (k.declared t id r.content) = .ok (ix'.slot k)

theorem add_of_contains (h : ix.contains id) : ix.add id r = .ok ix := by
  unfold add addReporting
  rw [if_pos h]
  rfl

theorem add_of_not_contains (h : ix.contains id = false) :
    ix.add id r = { ix with tracked := ix.tracked.insert id r }.enter id r.content := by
  unfold add addReporting
  rw [if_neg (by simp [h])]
  cases { ix with tracked := ix.tracked.insert id r }.enter id r.content <;> rfl

/-- **What an addition reports**: nothing of an id that is tracked already, and the segment of any
other. -/
theorem addReporting_eq_ok_iff {events : List Event} :
    ix.addReporting id r = .ok (ix', events) ↔
      ix.add id r = .ok ix' ∧
        events = if ix.contains id then [] else [.ofSegment id r.content] := by
  unfold add addReporting
  split
  · simp [pure, Except.pure, Functor.map, Except.map, eq_comm]
  · cases { ix with tracked := ix.tracked.insert id r }.enter id r.content <;>
      simp [bind, Except.bind, pure, Except.pure, Functor.map, Except.map, eq_comm]

theorem contains_eq_false_iff : ix.contains id = false ↔ ix.tracked[id]? = none := by
  rw [contains, Std.ExtTreeMap.contains_eq_isSome_getElem?, Option.isSome_eq_false_iff,
    Option.isNone_iff_eq_none]

theorem slot_tracked (ix : Index) (m : Std.ExtTreeMap SegmentId Revision) (k : SlotKey) :
    { ix with tracked := m }.slot k = ix.slot k := by
  cases k <;> rfl

theorem slot_order (ix : Index) (o : Order) (k : SlotKey) :
    { ix with order := o }.slot k = ix.slot k := by
  cases k <;> rfl

theorem added_of_add (hfresh : ix.tracked[id]? = none) (h : ix.add id r = .ok ix') :
    Added ix id r ix' := by
  rw [add_of_not_contains (contains_eq_false_iff.mpr hfresh)] at h
  have hentered := entered_of_enter h
  refine ⟨hfresh, hentered.order_eq, hentered.tracked_eq, hentered.names_grow, fun t ht k => ?_⟩
  have hslot := enter_slot h t ht k
  rwa [slot_tracked] at hslot

/-- An id that is tracked already changes nothing; any other is added. -/
theorem add_cases (h : ix.add id r = .ok ix') : ix' = ix ∨ Added ix id r ix' := by
  cases hcontains : ix.contains id with
  | true =>
    rw [add_of_contains hcontains] at h
    exact Or.inl (Except.ok.inj h).symm
  | false => exact Or.inr (added_of_add (contains_eq_false_iff.mp hcontains) h)

/-- A new segment has its names interned in sequence. -/
theorem Tidy.add (h : ix.Tidy) (hfresh : ix.tracked[id]? = none) (hadd : ix.add id r = .ok ix') :
    ix'.Tidy ∧ ix'.atoms = (ix.atoms.internAll r.content.names).2 := by
  rw [add_of_not_contains (contains_eq_false_iff.mpr hfresh)] at hadd
  exact (h.setTracked (ix.tracked.insert id r)).enter hadd

/-- After a segment has been added, the declarations are those from before and the new ones. -/
theorem Added.sameBlocks (h : Added ix id r ix') (hint : ix.Interned) (k : SlotKey) :
    k.SameBlocks (ix'.declared k) (ix.declared k ++ k.declared ix'.atoms id r.content) := by
  intro id'
  rw [List.filter_append, filter_declared, filter_declared]
  by_cases hid : id = id'
  · -- the new segment had no block before
    subst hid
    have hold : ix.block k id = [] := by simp [block, h.fresh]
    have hnew : ix'.block k id = k.declared ix'.atoms id r.content := by
      simp [block, h.tracked_eq]
    have hall : (k.declared ix'.atoms id r.content).filter (fun e => k.segment e.address = id) =
        k.declared ix'.atoms id r.content :=
      List.filter_eq_self.mpr fun e he => by simp [SlotKey.segment_of_mem_declared he]
    rw [hold, hnew, hall, List.nil_append]
  · -- any other segment keeps its block, and the new entries are not in it
    have hsame : ix'.tracked[id']? = ix.tracked[id']? := by
      simp [h.tracked_eq, Std.ExtTreeMap.getElem?_insert, hid]
    have hnone : (k.declared ix'.atoms id r.content).filter (fun e => k.segment e.address = id') =
        [] :=
      List.filter_eq_nil_iff.mpr fun e he => by simp [SlotKey.segment_of_mem_declared he, hid]
    rw [hnone, block_mono hint h.names_grow hsame, List.append_nil]

/-! ## §4 Exact indexes -/

/-- **An exact index**: each slot holds the declarations of the tracked segments, each once, with
the handles that its names have. -/
structure Exact (ix : Index) : Prop where
  tidy : ix.Tidy
  interned : ix.Interned
  content : ∀ k : SlotKey, (ix.slot k).entries.Perm (ix.declared k)

theorem exact_new (order : Order) : (new order).Exact where
  tidy := tidy_new order
  interned id r h := by simp [new] at h
  content k := by
    rw [slot_new]
    exact List.Perm.nil

/-- Adding a segment keeps an index exact. -/
theorem Exact.add (h : ix.Exact) (hadd : ix.add id r = .ok ix') : ix'.Exact := by
  rcases add_cases hadd with rfl | hadded
  · exact h
  · obtain ⟨htidy, hatoms⟩ := h.tidy.add hadded.fresh hadd
    refine ⟨htidy, fun id' r' hr' n hn => ?_, fun k => ?_⟩
    · rw [hadded.tracked_eq, Std.ExtTreeMap.getElem?_insert] at hr'
      split at hr'
      · -- the names of the new segment have just been interned
        obtain rfl := Option.some.inj hr'
        rw [hatoms]
        exact AtomTable.mem_names_internAll.mpr (.inr hn)
      · exact hadded.names_grow.subset (h.interned id' r' hr' n hn)
    · -- the slot has taken in exactly the block of the new segment
      have hperm := Slot.insertAll_perm (hadded.slots ix'.atoms (List.prefix_refl _) k)
      have hold := (h.content k).append_right (k.declared ix'.atoms id r.content)
      exact (hperm.trans hold).trans (hadded.sameBlocks h.interned k).symm.perm

/-! ## §5 Removing a segment -/

theorem remove_of_tracked (h : ix.tracked[id]? = some r) :
    ix.remove id = { ix with tracked := ix.tracked.erase id }.withdraw id r.content := by
  unfold remove removeReporting
  rw [h]

theorem remove_of_untracked (h : ix.tracked[id]? = none) : ix.remove id = ix := by
  unfold remove removeReporting
  rw [h]

/-- **What a removal reports**: the segment, if it was tracked. -/
theorem removeReporting_snd (ix : Index) (id : SegmentId) :
    (ix.removeReporting id).2 = if ix.contains id then [.removed id] else [] := by
  unfold removeReporting contains
  rw [Std.ExtTreeMap.contains_eq_isSome_getElem?]
  cases ix.tracked[id]? <;> rfl

/-- Removing a segment stops tracking it and changes neither the order nor the names. -/
theorem remove_frame (ix : Index) (id : SegmentId) :
    (ix.remove id).order = ix.order ∧ (ix.remove id).tracked = ix.tracked.erase id ∧
      (ix.remove id).atoms = ix.atoms := by
  cases htracked : ix.tracked[id]? with
  | none =>
    rw [remove_of_untracked htracked]
    refine ⟨rfl, ?_, rfl⟩
    refine Std.ExtTreeMap.ext_getElem? fun id' => ?_
    rw [Std.ExtTreeMap.getElem?_erase]
    split
    · next hid => rw [← Std.compare_eq_iff_eq.mp hid, htracked]
    · rfl
  | some r =>
    rw [remove_of_tracked htracked]
    exact withdraw_frame _ id r.content

/-- **Removing a segment drops the entries of that segment** from each slot, and no others. -/
theorem Exact.remove_slot (h : ix.Exact) (id : SegmentId) (k : SlotKey) :
    ((ix.remove id).slot k).entries =
      (ix.slot k).entries.filter fun e => k.segment e.address ≠ id := by
  cases htracked : ix.tracked[id]? with
  | none =>
    -- no entry belongs to a segment that is not tracked
    rw [remove_of_untracked htracked]
    refine (List.filter_eq_self.mpr fun e he => ?_).symm
    have hmem := tracked_of_mem_declared ((h.content k).mem_iff.mp he)
    simp only [ne_eq, decide_eq_true_eq]
    rintro rfl
    simp [Std.ExtTreeMap.mem_iff_isSome_getElem?, htracked] at hmem
  | some r =>
    rw [remove_of_tracked htracked, withdraw_slot, slot_tracked]
    refine List.filter_congr fun e he =>
      decide_eq_decide.mpr (not_congr ⟨fun htarget => ?_, fun hid => ?_⟩)
    · -- withdrawing drops addresses of the segment only
      obtain ⟨decl, -, hdecl⟩ := List.mem_filterMap.mp htarget
      exact SlotKey.segment_of_target? hdecl
    · -- an entry of the segment is declared by it, hence at an address that is dropped
      have hmem := mem_declared_iff.mp ((h.content k).mem_iff.mp he)
      rw [hid, block, htracked] at hmem
      obtain ⟨d, hd, rfl⟩ := List.mem_map.mp hmem
      rw [SlotKey.sources_eq_filterMap] at hd
      obtain ⟨decl, hdecl, hsource⟩ := List.mem_filterMap.mp hd
      exact List.mem_filterMap.mpr ⟨decl, hdecl, SlotKey.target?_of_source? id hsource⟩

/-- After a segment has been removed, the declarations are those of the others. -/
theorem sameBlocks_remove (ix : Index) (id : SegmentId) (k : SlotKey) :
    k.SameBlocks ((ix.remove id).declared k)
      ((ix.declared k).filter fun e => k.segment e.address ≠ id) := by
  obtain ⟨-, htracked, hatoms⟩ := ix.remove_frame id
  -- the removed segment loses its block, every other segment keeps it
  intro id'
  rw [filter_declared, List.filter_filter]
  by_cases hid : id = id'
  · subst hid
    rw [List.filter_eq_nil_iff.mpr (by simp), block, htracked]
    simp
  · have hrest : (ix.declared k).filter (fun e => decide (k.segment e.address = id') &&
        decide (k.segment e.address ≠ id)) =
        (ix.declared k).filter fun e => k.segment e.address = id' := by
      refine List.filter_congr fun e _ => ?_
      by_cases he : k.segment e.address = id'
      · simp [he, Ne.symm hid]
      · simp [he]
    rw [hrest, filter_declared, block, block, htracked, hatoms, Std.ExtTreeMap.getElem?_erase]
    simp [hid]

/-- Removing a segment keeps an index exact. -/
theorem Exact.remove (h : ix.Exact) (id : SegmentId) : (ix.remove id).Exact := by
  obtain ⟨-, htracked, hatoms⟩ := ix.remove_frame id
  refine ⟨?_, fun id' r hr n hn => ?_, fun k => ?_⟩
  · cases hid : ix.tracked[id]? with
    | none =>
      rw [remove_of_untracked hid]
      exact h.tidy
    | some r =>
      rw [remove_of_tracked hid]
      exact (h.tidy.setTracked (ix.tracked.erase id)).withdraw id r.content
  · rw [htracked, Std.ExtTreeMap.getElem?_erase] at hr
    rw [hatoms]
    split at hr
    · simp at hr
    · exact h.interned id' r hr n hn
  · rw [h.remove_slot id k]
    exact ((h.content k).filter _).trans (ix.sameBlocks_remove id k).symm.perm

/-! ## §6 Whole updates -/

/-- The order has no part in what the slots hold. -/
theorem Exact.setOrder (h : ix.Exact) (o : Order) : ({ ix with order := o } : Index).Exact where
  tidy := ⟨h.tidy.named, h.tidy.inhabited, h.tidy.nodup⟩
  interned := h.interned
  content k := by
    rw [slot_order]
    exact h.content k

theorem removeAllReporting_fst (ix : Index) (ids : List SegmentId) :
    (ix.removeAllReporting ids).1 = ids.foldl remove ix := by
  induction ids generalizing ix with
  | nil => rfl
  | cons id ids ih => exact ih (ix.remove id)

theorem addAllReporting_cons_eq_ok_iff {q : SegmentId × Revision}
    {fresh : List (SegmentId × Revision)} {events : List Event} :
    ix.addAllReporting (q :: fresh) = .ok (ix', events) ↔
      ∃ mid first later, ix.addReporting q.1 q.2 = .ok (mid, first) ∧
        mid.addAllReporting fresh = .ok (ix', later) ∧ events = first ++ later := by
  constructor
  · intro h
    obtain ⟨⟨mid, first⟩, hone, h⟩ := bind_eq_ok_iff.mp h
    obtain ⟨⟨after, later⟩, hrest, h⟩ := bind_eq_ok_iff.mp h
    obtain ⟨rfl, rfl⟩ := Prod.mk.inj (Except.ok.inj h)
    exact ⟨mid, first, later, hone, hrest, rfl⟩
  · rintro ⟨mid, first, later, hone, hrest, rfl⟩
    exact bind_eq_ok_iff.mpr ⟨_, hone, bind_eq_ok_iff.mpr ⟨_, hrest, rfl⟩⟩

theorem addAllReporting_fst (ix : Index) (fresh : List (SegmentId × Revision)) :
    Prod.fst <$> ix.addAllReporting fresh = fresh.foldlM (fun ix (id, r) => ix.add id r) ix := by
  induction fresh generalizing ix with
  | nil => rfl
  | cons q fresh ih =>
    obtain ⟨id, r⟩ := q
    rw [List.foldlM_cons]
    show Prod.fst <$> (ix.addReporting id r >>= fun first => first.1.addAllReporting fresh >>=
      fun rest => Except.ok (rest.1, first.2 ++ rest.2)) = Prod.fst <$> ix.addReporting id r >>= _
    cases ix.addReporting id r with
    | error f => rfl
    | ok first =>
      refine Eq.trans ?_ (ih first.1)
      show Prod.fst <$> (first.1.addAllReporting fresh >>= _) = _
      cases first.1.addAllReporting fresh <;> rfl

/-- **The index that a plan leaves**: removals one after the other, then additions. -/
theorem carryOut_eq (ix : Index) (o : Order) (p : UpdatePlan) :
    ix.carryOut o p =
      p.fresh.foldlM (fun ix (id, r) => ix.add id r) (p.stale.foldl remove { ix with order := o }) := by
  rw [← removeAllReporting_fst, ← addAllReporting_fst]
  -- the report is written beside the changes and not looked at
  let gone := { ix with order := o }.removeAllReporting p.stale
  show Prod.fst <$> (gone.1.addAllReporting p.fresh >>= fun new => Except.ok (new.1,
    gone.2 ++ new.2 ++ [.updated p.stale.length p.fresh.length new.1.tracked.size])) =
      Prod.fst <$> gone.1.addAllReporting p.fresh
  cases gone.1.addAllReporting p.fresh <;> rfl

theorem Exact.removeAll (h : ix.Exact) (ids : List SegmentId) :
    (ids.foldl Index.remove ix).Exact := by
  induction ids generalizing ix with
  | nil => exact h
  | cons id ids ih => exact ih (h.remove id)

theorem Exact.addAll (h : ix.Exact) {fresh : List (SegmentId × Revision)}
    (hadd : fresh.foldlM (fun ix (id, r) => ix.add id r) ix = .ok ix') : ix'.Exact := by
  induction fresh generalizing ix with
  | nil => exact Except.ok.inj hadd ▸ h
  | cons p fresh ih =>
    rw [List.foldlM_cons] at hadd
    obtain ⟨ix₁, hone, hrest⟩ := bind_eq_ok_iff.mp hadd
    exact ih (h.add hone) hrest

/-- Carrying out any plan under any order keeps an index exact. -/
theorem Exact.carryOut (h : ix.Exact) {o : Order} {p : UpdatePlan}
    (hrun : ix.carryOut o p = .ok ix') : ix'.Exact :=
  ((h.setOrder o).removeAll p.stale).addAll (carryOut_eq ix o p ▸ hrun)

end Index

end NameIndex
