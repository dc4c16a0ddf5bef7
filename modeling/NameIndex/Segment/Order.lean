import Std.Data.ExtTreeMap
import NameIndex.Fault
import NameIndex.Segment.Basic

/-!
# Orders of segments

The order of the segments is the order of the document. It is either an explicit list of distinct
segment ids, or a comparison supplied by the caller under a name.

A listed order is stored twice: the list of its ids, and a map from each id to its place in the list.
Questions are answered from the map; edits write a new list and a new map for it. A listed order is a
store that was written so, from its own list (`ListOrder.Store.Built`).

A listed order knows only its own ids: to compare any other id is a fault. It is never changed in
place; its edits give a new order.

## Main definitions

* `ListOrder.Store` — the list and the map.
* `ListOrder.ofList`, `ListOrder.append`, `ListOrder.insertBefore`, `ListOrder.remove`.
* `Order.compare` — negative when the first segment comes first, positive when the second does.
-/

namespace NameIndex

namespace ListOrder

/-! ## §1 Stored orders -/

/-- The places of segments, counted from zero. -/
abbrev Places : Type := Std.ExtTreeMap SegmentId Nat

/-- An order as it is stored. -/
structure Store where
  /-- The segments in document order. -/
  ids : List SegmentId
  /-- The place of each segment. -/
  pos : Places

namespace Store

/-- Notes the places of ids, counted from `i`. The first id from the left that has a place already is
at fault. -/
def places (i : Nat) (pos : Places) : List SegmentId → Except Fault Places
  | [] => .ok pos
  | id :: rest =>
    if pos.contains id then .error (.repeatedInOrder id)
    else places (i + 1) (pos.insert id i) rest

/-- The order that a list gives. -/
def ofList (ids : List SegmentId) : Except Fault Store := do
  return ⟨ids, ← places 0 ∅ ids⟩

/-- The order lists the segment. -/
def contains (o : Store) (id : SegmentId) : Bool := o.pos.contains id

/-- The place of a segment. -/
def position (o : Store) (id : SegmentId) : Except Fault Nat :=
  match o.pos[id]? with
  | some i => .ok i
  | none => .error (.notInOrder id)

/-- The sign of the comparison of two places; the first segment is looked up first. -/
def compare (o : Store) (a b : SegmentId) : Except Fault Int := do
  let i ← o.position a
  let j ← o.position b
  return if i < j then -1 else if i = j then 0 else 1

/-- The order with a segment after all others. -/
def append (o : Store) (id : SegmentId) : Except Fault Store :=
  ofList (o.ids ++ [id])

/-- The order with a segment just before another one, which is looked up first. -/
def insertBefore (o : Store) (before id : SegmentId) : Except Fault Store := do
  let i ← o.position before
  ofList (o.ids.take i ++ id :: o.ids.drop i)

/-- The order without a segment. -/
def remove (o : Store) (id : SegmentId) : Except Fault Store :=
  match o.pos[id]? with
  | some i => ofList (o.ids.eraseIdx i)
  | none => ofList o.ids

/-- The store was written from its list. -/
def Built (o : Store) : Prop := ofList o.ids = .ok o

theorem built_of_ofList {ids : List SegmentId} {o : Store} (h : ofList ids = .ok o) : o.Built := by
  unfold ofList at h
  cases hplaces : places 0 ∅ ids with
  | error f => simp [hplaces, bind, Except.bind] at h
  | ok pos =>
    simp only [hplaces, bind, Except.bind, pure, Except.pure, Except.ok.injEq] at h
    subst h
    simp [Built, ofList, hplaces, bind, Except.bind, pure, Except.pure]

/-- **A list whose places can be noted** repeats no id, and has none that had a place before. -/
theorem places_ok_iff {i : Nat} {pos : Places} {ids : List SegmentId} :
    (∃ pos', places i pos ids = .ok pos') ↔ ids.Nodup ∧ ∀ id ∈ ids, id ∉ pos := by
  induction ids generalizing i pos with
  | nil => simp [places]
  | cons id rest ih =>
    rw [places]
    split
    · next hid =>
      -- an id with a place is at fault at once
      rw [Std.ExtTreeMap.contains_iff_mem] at hid
      simp [hid]
    · next hid =>
      rw [Std.ExtTreeMap.contains_iff_mem] at hid
      simp only [ih, Std.ExtTreeMap.mem_insert, Std.compare_eq_iff_eq, List.nodup_cons,
        List.forall_mem_cons, hid, not_or, not_false_eq_true, true_and]
      constructor
      · rintro ⟨hrest, havoid⟩
        exact ⟨⟨fun hmem => (havoid id hmem).1 rfl, hrest⟩, fun x hx => (havoid x hx).2⟩
      · rintro ⟨⟨hfresh, hrest⟩, havoid⟩
        exact ⟨hrest, fun x hx => ⟨fun heq => hfresh (heq ▸ hx), havoid x hx⟩⟩

theorem exists_ofList_iff {ids : List SegmentId} : (∃ o, ofList ids = .ok o) ↔ ids.Nodup := by
  have hplaces : (∃ pos, places 0 ∅ ids = .ok pos) ↔ ids.Nodup ∧ ∀ id ∈ ids, id ∉ (∅ : Places) :=
    places_ok_iff
  simp only [Std.ExtTreeMap.not_mem_empty, not_false_eq_true, implies_true, and_true] at hplaces
  rw [← hplaces]
  unfold ofList
  cases places 0 ∅ ids with
  | error f => simp [bind, Except.bind]
  | ok pos => simp [bind, Except.bind, pure, Except.pure]

theorem Built.nodup {o : Store} (h : o.Built) : o.ids.Nodup := exists_ofList_iff.mp ⟨o, h⟩

/-- A list stays free of repetitions when an id is taken out of it, so removing is no fault. -/
theorem Built.exists_remove {o : Store} (h : o.Built) (id : SegmentId) :
    ∃ o', o.remove id = .ok o' := by
  unfold remove
  split
  · next i _ => exact exists_ofList_iff.mpr (h.nodup.sublist (List.eraseIdx_sublist _ i))
  · exact exists_ofList_iff.mpr h.nodup

theorem built_of_insertBefore {o o' : Store} {before id : SegmentId}
    (h : o.insertBefore before id = .ok o') : o'.Built := by
  unfold insertBefore at h
  cases hplace : o.position before with
  | error f => simp [hplace, bind, Except.bind] at h
  | ok i => exact built_of_ofList (by simpa [hplace, bind, Except.bind] using h)

theorem built_of_remove {o o' : Store} {id : SegmentId} (h : o.remove id = .ok o') : o'.Built := by
  unfold remove at h
  split at h
  · exact built_of_ofList h
  · exact built_of_ofList h

end Store

end ListOrder

/-! ## §2 Listed orders -/

/-- An order given as the list of its segments. -/
structure ListOrder where
  /-- The list and the map. -/
  store : ListOrder.Store
  /-- The map was written from the list. -/
  built : store.Built

namespace ListOrder

/-- The segments in document order. -/
def ids (o : ListOrder) : List SegmentId := o.store.ids

/-- No segment is listed twice. -/
theorem distinct (o : ListOrder) : o.ids.Nodup := o.built.nodup

/-- The order without segments. -/
def empty : ListOrder := ⟨⟨[], ∅⟩, rfl⟩

/-- What was stored, as an order. -/
def ofStore : (stored : Except Fault Store) → (∀ o, stored = .ok o → o.Built) →
    Except Fault ListOrder
  | .error f, _ => .error f
  | .ok o, h => .ok ⟨o, h o rfl⟩

/-- The order that a list gives, if its ids are distinct; otherwise the first repeated id from the
left is at fault. -/
def ofList (ids : List SegmentId) : Except Fault ListOrder :=
  ofStore (Store.ofList ids) fun _ => Store.built_of_ofList

/-- The order lists the segment. -/
def contains (o : ListOrder) (id : SegmentId) : Bool := o.store.contains id

/-- The place of a segment, counted from zero. -/
def position (o : ListOrder) (id : SegmentId) : Except Fault Nat := o.store.position id

/-- The sign of the comparison of two places; the first segment is looked up first. -/
def compare (o : ListOrder) (a b : SegmentId) : Except Fault Int := o.store.compare a b

/-- The order with a segment after all others. -/
def append (o : ListOrder) (id : SegmentId) : Except Fault ListOrder :=
  ofStore (o.store.append id) fun _ => Store.built_of_ofList

/-- The order with a segment just before another one, which is looked up first. -/
def insertBefore (o : ListOrder) (before id : SegmentId) : Except Fault ListOrder :=
  ofStore (o.store.insertBefore before id) fun _ => Store.built_of_insertBefore

/-- The order without a segment, which can always be written. -/
def remove (o : ListOrder) (id : SegmentId) : ListOrder :=
  match h : o.store.remove id with
  | .ok o' => ⟨o', Store.built_of_remove h⟩
  | .error f => absurd (o.built.exists_remove id) (by simp [h])

end ListOrder

/-! ## §3 Orders in general -/

/-- The order of the segments of a collection. -/
inductive Order where
  /-- A list of the segments. -/
  | listed (list : ListOrder)
  /-- A comparison, known to the outside under a name. -/
  | compared (name : String) (rank : SegmentId → SegmentId → Int)

namespace Order

/-- The order that lists no segment. -/
def empty : Order := .listed .empty

/-- Negative when `a` precedes `b`, positive when `b` precedes `a`. -/
def compare : Order → SegmentId → SegmentId → Except Fault Int
  | .listed list, a, b => list.compare a b
  | .compared _ rank, a, b => .ok (rank a b)

end Order

end NameIndex
