import Mathlib.Data.List.Forall2
import NameIndex.Proofs.DocumentOrder
import NameIndex.Proofs.OrderEdits
import NameIndex.Proofs.Resorting
import NameIndex.Spec.Convert

/-!
# Collections that descriptions make up

Descriptions are read from left to right, each into the collection that the earlier ones have left.
When all of them are understood and no id comes twice, the result can be said in one go: the order is
the list of ids as described, and under each id there is the segment that is described there
(`Collection.MadeOf`). Two collections that are made of the same segments differ in stamps only, and
stamps are not seen in declarations (`Collection.MadeOf.declarations_congr`).

## Main definitions

* `SegmentSpec.Describe` — what a list of descriptions describes.
* `Collection.MadeOf` — a collection of the listed segments, in the order of the list.

## Main results

* `Collection.madeOf_of_ofSpecs`, `Collection.exists_ofSpecs` — descriptions make up a collection of
  what they describe, and they do so whenever their ids are distinct.
-/

namespace NameIndex

/-! ## §1 What descriptions describe -/

/-- The descriptions describe the segments, one each and in this sequence. -/
def SegmentSpec.Describe (specs : List (Option SegmentSpec)) (parts : List (SegmentId × Segment)) :
    Prop :=
  List.Forall₂ (fun spec? part => ∃ spec, spec? = some spec ∧ spec.id = part.1 ∧
    spec.toSegment = .ok part.2) specs parts

/-- Descriptions that are chosen by their ids describe the segments that have these ids. -/
theorem SegmentSpec.Describe.filter {specs : List (Option SegmentSpec)}
    {parts : List (SegmentId × Segment)} (h : SegmentSpec.Describe specs parts)
    (keep : SegmentId → Bool) :
    SegmentSpec.Describe (specs.filter fun spec? => spec?.all fun spec => keep spec.id)
      (parts.filter fun part => keep part.1) := by
  apply List.rel_filter _ h
  rintro _ part ⟨spec, rfl, hid, -⟩
  simp [hid]

namespace Collection

variable {c c' : Collection} {specs : List (Option SegmentSpec)} {ids : List SegmentId}
  {parts : List (SegmentId × Segment)}

/-! ## §2 Reading descriptions -/

/-- Puts segments into a collection, with stamps that count from `n`. -/
def putAll (c : Collection) (n : Nat) : List (SegmentId × Segment) → Collection
  | [] => c
  | (id, s) :: rest => (c.put id ⟨n, s⟩).putAll (n + 1) rest

theorem addSpecs_cons_eq_ok_iff {spec? : Option SegmentSpec} {result : List SegmentId × Collection} :
    addSpecs ids c (spec? :: specs) = .ok result ↔
      ∃ spec s, spec? = some spec ∧ spec.id ∉ c.segments ∧ spec.toSegment = .ok s ∧
        addSpecs (ids ++ [spec.id]) (c.put spec.id ⟨ids.length, s⟩) specs = .ok result := by
  cases spec? with
  | none => simp [addSpecs, present, bind, Except.bind]
  | some spec =>
    by_cases hmem : spec.id ∈ c.segments
    · simp [addSpecs, present, hmem, bind, Except.bind, throw, throwThe, MonadExceptOf.throw]
    · simp [addSpecs, present, hmem, bind_eq_ok_iff]

/-- Ids are new beside one more segment iff they are new and none is the id of that segment. -/
theorem forall_not_mem_put {id : SegmentId} {r : Revision} :
    (∀ part ∈ parts, part.1 ∉ (c.put id r).segments) ↔
      id ∉ parts.map Prod.fst ∧ ∀ part ∈ parts, part.1 ∉ c.segments := by
  simp only [put, Std.ExtTreeMap.mem_insert, Std.compare_eq_iff_eq, not_or, forall_and,
    List.mem_map, not_exists, not_and, eq_comm (b := id)]

/-- **Reading descriptions** succeeds exactly if all are understood and their ids are new, and it
puts in what they describe. -/
theorem addSpecs_eq_ok_iff {result : List SegmentId × Collection} :
    addSpecs ids c specs = .ok result ↔
      ∃ parts, SegmentSpec.Describe specs parts ∧ (parts.map Prod.fst).Nodup ∧
        (∀ part ∈ parts, part.1 ∉ c.segments) ∧
        result = (ids ++ parts.map Prod.fst, c.putAll ids.length parts) := by
  -- each description is read into what the earlier ones have left, so ids and collection vary
  induction specs generalizing ids c with
  | nil => simp [addSpecs, SegmentSpec.Describe, putAll, eq_comm]
  | cons spec? rest ih =>
    rw [addSpecs_cons_eq_ok_iff]
    constructor
    · rintro ⟨spec, s, rfl, hnew, hs, hrest⟩
      obtain ⟨parts, hdescribe, hnodup, hnew', rfl⟩ := ih.mp hrest
      obtain ⟨hid, hnew'⟩ := forall_not_mem_put.mp hnew'
      refine ⟨(spec.id, s) :: parts, .cons ⟨spec, rfl, rfl, hs⟩ hdescribe,
        List.nodup_cons.mpr ⟨hid, hnodup⟩, List.forall_mem_cons.mpr ⟨hnew, hnew'⟩, ?_⟩
      simp [putAll]
    · rintro ⟨parts, hdescribe, hnodup, hnew, rfl⟩
      obtain ⟨⟨_, s⟩, parts, ⟨spec, rfl, rfl, hs⟩, hrest, rfl⟩ :=
        List.forall₂_cons_left_iff.mp hdescribe
      obtain ⟨hid, hnodup⟩ := List.nodup_cons.mp hnodup
      obtain ⟨hnew, hnew'⟩ := List.forall_mem_cons.mp hnew
      refine ⟨spec, s, rfl, hnew, hs, ih.mpr ⟨parts, hrest, hnodup, ?_, ?_⟩⟩
      · exact forall_not_mem_put.mpr ⟨hid, hnew'⟩
      · simp [putAll]

/-! ## §3 The segments of a collection -/

/-- The collection holds the listed segments, ordered as they are listed. -/
structure MadeOf (c : Collection) (parts : List (SegmentId × Segment)) : Prop where
  nodup : (parts.map Prod.fst).Nodup
  order_eq : c.order = .listed (.ofDistinct (parts.map Prod.fst) nodup)
  content_iff : ∀ id s, c.segments[id]?.map Revision.content = some s ↔ (id, s) ∈ parts

theorem content_putAll {n : Nat} (hnodup : (parts.map Prod.fst).Nodup)
    (hnew : ∀ part ∈ parts, part.1 ∉ c.segments) (id : SegmentId) (s : Segment) :
    (c.putAll n parts).segments[id]?.map Revision.content = some s ↔
      (id, s) ∈ parts ∨ c.segments[id]?.map Revision.content = some s := by
  induction parts generalizing c n with
  | nil => simp [putAll]
  | cons part parts ih =>
    obtain ⟨id', s'⟩ := part
    obtain ⟨hid, hnodup⟩ := List.nodup_cons.mp hnodup
    obtain ⟨hmem, hnew⟩ := List.forall_mem_cons.mp hnew
    -- the rest does not have the id of this segment, and the collection did not have it before
    have hnone : c.segments[id']? = none := by
      rwa [Std.ExtTreeMap.mem_iff_isSome_getElem?, Option.not_isSome_iff_eq_none] at hmem
    rw [putAll, ih hnodup (forall_not_mem_put.mpr ⟨hid, hnew⟩), put,
      Std.ExtTreeMap.getElem?_insert, List.mem_cons, or_assoc, or_left_comm]
    apply or_congr_right
    by_cases hid : id' = id
    · subst hid
      simp [hnone, eq_comm]
    · simp [hid, Ne.symm hid]

/-- Descriptions with distinct ids make up a collection of what they describe. -/
theorem exists_ofSpecs (hdescribe : SegmentSpec.Describe specs parts)
    (hnodup : (parts.map Prod.fst).Nodup) :
    ∃ c, ofSpecs specs = .ok c ∧ c.MadeOf parts := by
  have hempty : ∀ part ∈ parts, part.1 ∉ (empty .empty).segments := fun _ _ =>
    Std.ExtTreeMap.not_mem_empty
  have hadd : addSpecs [] (empty .empty) specs = .ok _ :=
    addSpecs_eq_ok_iff.mpr ⟨parts, hdescribe, hnodup, hempty, rfl⟩
  refine ⟨⟨.listed (.ofDistinct _ hnodup), ((empty .empty).putAll 0 parts).segments⟩, ?_, hnodup, rfl,
    fun id s => ?_⟩
  · unfold ofSpecs
    rw [hadd]
    simp only [List.nil_append, bind, Except.bind, ListOrder.ofList_of_nodup hnodup]
    rfl
  · rw [content_putAll hnodup hempty]
    simp [empty]

/-- **What descriptions make up** is a collection of what they describe. -/
theorem madeOf_of_ofSpecs (h : ofSpecs specs = .ok c) :
    ∃ parts, SegmentSpec.Describe specs parts ∧ c.MadeOf parts := by
  obtain ⟨result, hadd, -⟩ := bind_eq_ok_iff.mp h
  obtain ⟨parts, hdescribe, hnodup, -, -⟩ := addSpecs_eq_ok_iff.mp hadd
  -- reading has one result, and that one is made of the parts
  obtain ⟨c', hc', hmade⟩ := exists_ofSpecs hdescribe hnodup
  obtain rfl := Except.ok.inj (h.symm.trans hc')
  exact ⟨parts, hdescribe, hmade⟩

namespace MadeOf

theorem mem_segments_iff (h : c.MadeOf parts) {id : SegmentId} :
    id ∈ c.segments ↔ id ∈ parts.map Prod.fst := by
  rw [Std.ExtTreeMap.mem_iff_isSome_getElem?, ← Option.isSome_map (f := Revision.content),
    Option.isSome_iff_exists]
  simp [h.content_iff]

theorem covered (h : c.MadeOf parts) : c.Covered :=
  ⟨_, h.order_eq, fun _ hid =>
    (ListOrder.ids_ofDistinct h.nodup).symm ▸ h.mem_segments_iff.mp hid⟩

/-- Some segment of the collection has a property iff some listed one has it. -/
theorem exists_content_iff (h : c.MadeOf parts) {P : SegmentId → Segment → Prop} :
    (∃ (id : SegmentId) (r : Revision), c.segments[id]? = some r ∧ P id r.content) ↔
      ∃ part ∈ parts, P part.1 part.2 := by
  constructor
  · rintro ⟨id, r, hr, hP⟩
    exact ⟨(id, r.content), (h.content_iff id r.content).mp (by rw [hr]; rfl), hP⟩
  · rintro ⟨⟨id, s⟩, hpart, hP⟩
    obtain ⟨r, hr, rfl⟩ := Option.map_eq_some_iff.mp ((h.content_iff id s).mpr hpart)
    exact ⟨id, r, hr, hP⟩

theorem order_congr (h : c.MadeOf parts) (h' : c'.MadeOf parts) : c.order = c'.order :=
  h.order_eq.trans h'.order_eq.symm

/-- Collections of the same segments have the same declarations: stamps are not seen there. -/
theorem declarations_congr (h : c.MadeOf parts) (h' : c'.MadeOf parts) (k : SlotKey) :
    c.declarations k = c'.declarations k := by
  have hcontents : c.segments.map (fun _ r => r.content) = c'.segments.map fun _ r => r.content := by
    apply Std.ExtTreeMap.ext_getElem?
    intro id
    rw [Std.ExtTreeMap.getElem?_map, Std.ExtTreeMap.getElem?_map]
    apply Option.ext
    intro s
    exact (h.content_iff id s).trans (h'.content_iff id s).symm
  have hlisted : ∀ c : Collection, c.declarations k =
      (c.segments.map fun _ r => r.content).toList.flatMap
        fun (id, s) => (k.sources s).map (id, ·) := by
    intro c
    rw [Std.ExtTreeMap.toList_map, List.flatMap_map]
    rfl
  rw [hlisted, hlisted, hcontents]

/-- Collections of the same segments have a document order in common. -/
theorem exists_layout (h : c.MadeOf parts) (h' : c'.MadeOf parts) (k : SlotKey) :
    ∃ ds, c.Layout k ds ∧ c'.Layout k ds := by
  obtain ⟨ds, hds⟩ := Collection.exists_layout h.covered.strictOn.total k
  refine ⟨ds, hds, ?_⟩
  unfold Layout at hds ⊢
  rwa [← h.order_congr h', ← h.declarations_congr h' k]

end MadeOf

end Collection

end NameIndex
