import Mathlib.Data.List.Nodup
import Mathlib.Data.List.Pairwise
import NameIndex.Proofs.StableSort
import NameIndex.Segment.Order

/-!
# Edits of listed orders

A listed order is edited by writing a new list: a segment is put after all others, or just before
another one, or taken out. The places behind the edit shift, so no place can be relied upon; what
can be relied upon is how two segments stand to each other. One of the two lists is always a part of
the other, and a list without repetitions ranks its segments as every part of it does
(`ListOrder.compare_eq_of_sublist`). So an edit changes what is known about its own segment only,
and many edits change what is known about theirs.

## Main definitions

* `ListOrder.Edit`, `ListOrder.edit`, `ListOrder.editAll` — edits as data.
* `ListOrder.Edit.onIds` — what an edit makes of a list of ids, said without places.
* `ListOrder.Store.StrictlyOrders` — list and map fit, and the comparison is the strict total order of
  the listed ids.

## Main results

* `ListOrder.Store.Built.getElem?_pos` — the map that a list is stored with has the places of the
  list.
* `ListOrder.ids_edit`, `ListOrder.compare_edit` — what one edit does.
* `ListOrder.ids_editAll`, `ListOrder.compare_editAll` — what a chain of edits does.
* `ListOrder.Store.order_of_edits` — what a chain of edits leaves in store, and where one more edit
  puts its segment.
-/

namespace NameIndex.ListOrder

open Sorting

variable {o o' : ListOrder} {ids pre post : List SegmentId} {a b x id before : SegmentId}

/-! ## §1 Orders from lists -/

namespace Store

variable {s s' : Store}

theorem ids_of_ofList (h : ofList ids = .ok s) : s.ids = ids := by
  obtain ⟨pos, -, h⟩ := bind_eq_ok_iff.mp h
  rw [← Except.ok.inj h]

/-- Stores that were written from the same list are the same. -/
theorem Built.eq_of_ids_eq (h : s.Built) (h' : s'.Built) (hids : s.ids = s'.ids) : s = s' :=
  Except.ok.inj (h.symm.trans (hids ▸ h'))

/-- **The places that are noted**: each id of the list has its place there, counted from `i`, and
all others have the place that they had. -/
theorem getElem?_places {i : Nat} {pos pos' : Places} (h : places i pos ids = .ok pos')
    (id : SegmentId) : pos'[id]? = ((ids.idxOf? id).map (i + ·)).or pos[id]? := by
  induction ids generalizing i pos with
  | nil =>
    obtain rfl := Except.ok.inj h
    simp
  | cons x rest ih =>
    rw [places] at h
    split at h
    · cases h
    · rw [ih h, Std.ExtTreeMap.getElem?_insert, List.idxOf?_cons]
      by_cases hx : x = id
      · -- the id that was just noted does not come again
        subst hx
        have hnone : rest.idxOf? x = none := by
          apply List.idxOf?_eq_none_iff.mpr
          intro hmem
          exact absurd ((places_ok_iff.mp ⟨pos', h⟩).2 x hmem) (by simp)
        simp [hnone]
      · simp only [Std.compare_eq_iff_eq, hx, if_false, beq_iff_eq, Option.map_map]
        congr 2
        funext n
        exact Nat.add_right_comm i 1 n

/-- The map of an order has the places of the list. -/
theorem Built.getElem?_pos (h : s.Built) (id : SegmentId) : s.pos[id]? = s.ids.idxOf? id := by
  obtain ⟨pos, hpos, hs⟩ := bind_eq_ok_iff.mp h
  obtain rfl : pos = s.pos := congrArg Store.pos (Except.ok.inj hs)
  rw [getElem?_places hpos]
  simp

end Store

theorem ofStore_eq_ok_iff {stored : Except Fault Store} {h : ∀ o, stored = .ok o → o.Built} :
    ofStore stored h = .ok o ↔ stored = .ok o.store := by
  cases stored with
  | error f => simp [ofStore]
  | ok s =>
    obtain ⟨store, built⟩ := o
    simp [ofStore]

theorem ofStore_eq_error_iff {stored : Except Fault Store} {h : ∀ o, stored = .ok o → o.Built}
    {f : Fault} : ofStore stored h = .error f ↔ stored = .error f := by
  cases stored <;> simp [ofStore]

/-- Orders are the same when their lists are. -/
theorem eq_of_ids_eq (h : o.ids = o'.ids) : o = o' := by
  obtain ⟨store, built⟩ := o
  obtain ⟨store', built'⟩ := o'
  obtain rfl : store = store' := built.eq_of_ids_eq built' h
  rfl

/-- A list makes the order that has it as its list of ids, if there is one. -/
theorem ofList_eq_ok_iff : ofList ids = .ok o ↔ o.ids = ids := by
  unfold ofList
  rw [ofStore_eq_ok_iff]
  constructor
  · exact Store.ids_of_ofList
  · rintro rfl
    exact o.built

/-- The order of a list without repetitions. -/
def ofDistinct (ids : List SegmentId) (h : ids.Nodup) : ListOrder :=
  match hstored : Store.ofList ids with
  | .ok s => ⟨s, Store.built_of_ofList hstored⟩
  | .error _ => absurd (Store.exists_ofList_iff.mpr h) (by simp [hstored])

theorem ofList_of_nodup (h : ids.Nodup) : ofList ids = .ok (ofDistinct ids h) := by
  unfold ofList
  rw [ofStore_eq_ok_iff, ofDistinct]
  split
  · next hstored => exact hstored
  · next hstored => exact absurd (Store.exists_ofList_iff.mpr h) (by simp [hstored])

@[simp] theorem ids_ofDistinct (h : ids.Nodup) : (ofDistinct ids h).ids = ids :=
  ofList_eq_ok_iff.mp (ofList_of_nodup h)

/-! ## §2 Places -/

theorem position_of_mem (h : id ∈ o.ids) : o.position id = .ok (o.ids.idxOf id) := by
  obtain ⟨i, hi⟩ := Option.isSome_iff_exists.mp (List.isSome_idxOf?.mpr h)
  have hpos : o.store.pos[id]? = some i := (o.built.getElem?_pos id).trans hi
  rw [position, Store.position, hpos, List.idxOf_eq_getD_idxOf?, hi]
  rfl

theorem position_of_not_mem (h : id ∉ o.ids) : o.position id = .error (.notInOrder id) := by
  have hpos : o.store.pos[id]? = none :=
    (o.built.getElem?_pos id).trans (List.idxOf?_eq_none_iff.mpr h)
  rw [position, Store.position, hpos]

theorem contains_iff : o.contains id ↔ id ∈ o.ids := by
  rw [contains, Store.contains, Std.ExtTreeMap.contains_eq_isSome_getElem?,
    o.built.getElem?_pos, List.isSome_idxOf?]
  rfl

/-- Comparing looks up both places. -/
theorem compare_eq (o : ListOrder) (a b : SegmentId) :
    o.compare a b = (do
      let i ← o.position a
      let j ← o.position b
      return if i < j then -1 else if i = j then 0 else 1) :=
  rfl

/-- The comparison has the sign of the difference of the places. -/
theorem compare_of_mem (ha : a ∈ o.ids) (hb : b ∈ o.ids) :
    o.compare a b = .ok ((o.ids.idxOf a : Int) - o.ids.idxOf b).sign := by
  rw [compare_eq, position_of_mem ha, position_of_mem hb]
  simp only [bind, Except.bind, pure, Except.pure, Except.ok.injEq]
  split_ifs with hlt heq
  · rw [Int.sign_eq_neg_one_of_neg (by omega)]
  · simp [heq]
  · rw [Int.sign_eq_one_of_pos (by omega)]

/-- The first segment is looked up first. -/
theorem compare_of_not_mem (ha : a ∉ o.ids) : o.compare a b = .error (.notInOrder a) := by
  rw [compare_eq, position_of_not_mem ha]
  rfl

theorem compare_of_not_mem_right (ha : a ∈ o.ids) (hb : b ∉ o.ids) :
    o.compare a b = .error (.notInOrder b) := by
  rw [compare_eq, position_of_mem ha, position_of_not_mem hb]
  rfl

/-- Places ascend along the list. -/
theorem pairwise_idxOf (h : ids.Nodup) : ids.Pairwise fun a b => ids.idxOf a < ids.idxOf b := by
  rw [List.pairwise_iff_getElem]
  intro i j hi hj hij
  rwa [h.idxOf_getElem i hi, h.idxOf_getElem j hj]

/-- **The map of a stored order fits its list**: no id is listed twice, each has its place in the
map and no other id has one, and the comparison that reads the map is the strict total order in which
the ids are listed. -/
structure Store.StrictlyOrders (o : Store) : Prop where
  distinct : o.ids.Nodup
  pos_eq : ∀ x, o.pos[x]? = o.ids.idxOf? x
  contains_iff : ∀ x, o.contains x ↔ x ∈ o.ids
  compare_eq : ∀ a ∈ o.ids, ∀ b ∈ o.ids,
    o.compare a b = .ok ((o.ids.idxOf a : Int) - o.ids.idxOf b).sign
  total : TotalOn o.compare {x | x ∈ o.ids}
  separates : ∀ a ∈ o.ids, ∀ b ∈ o.ids, o.compare a b = .ok 0 → a = b

theorem totalOn_compare (o : ListOrder) : TotalOn o.compare {x | x ∈ o.ids} := by
  -- on its own ids the order ranks by the place
  apply (totalOn_byRank (fun x => (o.ids.idxOf x : Int)) {x | x ∈ o.ids}).congr
  intro a ha b hb
  exact compare_of_mem ha hb

theorem separates (ha : a ∈ o.ids) (hb : b ∈ o.ids) (hzero : o.compare a b = .ok 0) : a = b := by
  -- level places are one place, and a place holds one segment
  rw [compare_of_mem ha hb] at hzero
  have hplace := Int.sign_eq_zero_iff_zero.mp (Except.ok.inj hzero)
  exact (List.idxOf_inj ha).mp (by omega)

/-- What was written from a list fits it. -/
theorem Store.Built.strictlyOrders {s : Store} (h : s.Built) : s.StrictlyOrders where
  distinct := h.nodup
  pos_eq := h.getElem?_pos
  contains_iff _ := contains_iff (o := ⟨s, h⟩)
  compare_eq _ ha _ hb := compare_of_mem (o := ⟨s, h⟩) ha hb
  total := totalOn_compare ⟨s, h⟩
  separates _ ha _ hb := separates (o := ⟨s, h⟩) ha hb

/-- A segment comes before another one if both are listed and its place is the lower one. -/
theorem compare_eq_neg_one_iff :
    o.compare a b = .ok (-1) ↔ a ∈ o.ids ∧ b ∈ o.ids ∧ o.ids.idxOf a < o.ids.idxOf b := by
  by_cases ha : a ∈ o.ids
  · by_cases hb : b ∈ o.ids
    · rw [compare_of_mem ha hb]
      simp only [Except.ok.injEq, Int.sign_eq_neg_one_iff_neg, ha, hb, true_and]
      omega
    · simp [compare_of_not_mem_right ha hb, hb]
  · simp [compare_of_not_mem ha, ha]

/-- **Where a segment stands**: before it come those to its left in the list, and after it those to
its right. -/
theorem compare_split (h : o.ids = pre ++ x :: post) :
    (∀ y, o.compare y x = .ok (-1) ↔ y ∈ pre) ∧ ∀ y, o.compare x y = .ok (-1) ↔ y ∈ post := by
  have hmem : ∀ y, y ∈ o.ids ↔ y ∈ pre ∨ y = x ∨ y ∈ post := by simp [h]
  have hasc := pairwise_idxOf o.distinct
  nth_rewrite 3 [h] at hasc
  rw [List.pairwise_append, List.pairwise_cons] at hasc
  obtain ⟨-, ⟨hright, -⟩, hleft⟩ := hasc
  have hbefore : ∀ y ∈ pre, o.ids.idxOf y < o.ids.idxOf x :=
    fun y hy => hleft y hy x List.mem_cons_self
  constructor
  · intro y
    rw [compare_eq_neg_one_iff, hmem, hmem]
    constructor
    · rintro ⟨hy | rfl | hy, -, hlt⟩
      · exact hy
      · omega
      · have := hright y hy
        omega
    · exact fun hy => ⟨.inl hy, .inr (.inl rfl), hbefore y hy⟩
  · intro y
    rw [compare_eq_neg_one_iff, hmem, hmem]
    constructor
    · rintro ⟨-, hy | rfl | hy, hlt⟩
      · have := hbefore y hy
        omega
      · omega
      · exact hy
    · exact fun hy => ⟨.inr (.inl rfl), .inr (.inr hy), hright y hy⟩

theorem sign_idxOf_of_sublist {part : List SegmentId} (h : part.Sublist ids) (hnodup : ids.Nodup) :
    ∀ a ∈ part, ∀ b ∈ part,
      ((ids.idxOf a : Int) - ids.idxOf b).sign = ((part.idxOf a : Int) - part.idxOf b).sign := by
  -- both lists have the segments of the shorter one at ascending places
  have hboth := ((pairwise_idxOf hnodup).sublist h).and (pairwise_idxOf (h.nodup hnodup))
  apply List.Pairwise.forall_of_forall_of_flip
  · intro a _
    simp
  · apply hboth.imp
    intro a b hab
    rw [Int.sign_eq_neg_one_of_neg (by omega), Int.sign_eq_neg_one_of_neg (by omega)]
  · apply hboth.imp
    intro a b hab
    show Int.sign _ = Int.sign _
    rw [Int.sign_eq_one_of_pos (by omega), Int.sign_eq_one_of_pos (by omega)]

/-- **A part ranks alike**: where one list is a part of the other, two segments that both lists have
or both lack compare alike, in answer or in fault. -/
theorem compare_eq_of_sublist (h : o.ids.Sublist o'.ids) (ha : a ∈ o'.ids → a ∈ o.ids)
    (hb : b ∈ o'.ids → b ∈ o.ids) : o'.compare a b = o.compare a b := by
  by_cases hmem : a ∈ o.ids
  · by_cases hmem' : b ∈ o.ids
    · rw [compare_of_mem hmem hmem', compare_of_mem (h.subset hmem) (h.subset hmem'),
        sign_idxOf_of_sublist h o'.distinct a hmem b hmem']
    · rw [compare_of_not_mem_right hmem hmem',
        compare_of_not_mem_right (h.subset hmem) fun hb' => hmem' (hb hb')]
  · rw [compare_of_not_mem hmem, compare_of_not_mem fun ha' => hmem (ha ha')]

/-! ## §3 One edit -/

/-- An edit of an order. -/
inductive Edit where
  /-- A segment after all others. -/
  | append (id : SegmentId)
  /-- A segment just before another one. -/
  | insertBefore (before id : SegmentId)
  /-- One segment less. -/
  | remove (id : SegmentId)

namespace Edit

/-- The segment that an edit puts in or takes out. -/
def subject : Edit → SegmentId
  | .append id | .insertBefore _ id | .remove id => id

/-- What an edit makes of a list of ids. -/
def onIds (ids : List SegmentId) : Edit → List SegmentId
  | .append id => ids ++ [id]
  | .insertBefore before id => ids.flatMap fun x => if x = before then [id, x] else [x]
  | .remove id => ids.filter (· ≠ id)

end Edit

/-- Makes an edit. -/
def edit (o : ListOrder) : Edit → Except Fault ListOrder
  | .append id => o.append id
  | .insertBefore before id => o.insertBefore before id
  | .remove id => .ok (o.remove id)

/-- Makes an edit of a stored order. -/
def Store.edit (o : Store) : Edit → Except Fault Store
  | .append id => o.append id
  | .insertBefore before id => o.insertBefore before id
  | .remove id => o.remove id

/-- **One edit** writes an order from its list. -/
theorem Store.built_of_edit {s s' : Store} {e : Edit} (h : s.edit e = .ok s') : s'.Built := by
  cases e with
  | append id => exact built_of_ofList h
  | insertBefore before id => exact built_of_insertBefore h
  | remove id => exact built_of_remove h

/-- What stays when an id is taken out can be stored. -/
theorem remove_store (o : ListOrder) (id : SegmentId) :
    o.store.remove id = .ok (o.remove id).store := by
  rw [remove]
  split
  · next h => exact h
  · next h => exact absurd (o.built.exists_remove id) (by simp [h])

/-- An edit of what is stored is an edit of the order. -/
theorem edit_of_store {e : Edit} (h : o.store.edit e = .ok o'.store) : o.edit e = .ok o' := by
  cases e with
  | append id => exact ofStore_eq_ok_iff.mpr h
  | insertBefore before id => exact ofStore_eq_ok_iff.mpr h
  | remove id =>
    have hstore := Except.ok.inj ((o.remove_store id).symm.trans h)
    exact congrArg Except.ok (eq_of_ids_eq (congrArg Store.ids hstore))

theorem append_eq (o : ListOrder) (id : SegmentId) : o.append id = ofList (o.ids ++ [id]) := rfl

theorem append_eq_ok_iff : o.append id = .ok o' ↔ o'.ids = o.ids ++ [id] :=
  ofList_eq_ok_iff

/-- The other segment is looked up, and then a new list is written. -/
theorem insertBefore_eq (o : ListOrder) (before id : SegmentId) :
    o.insertBefore before id = (do
      let i ← o.position before
      ofList (o.ids.take i ++ id :: o.ids.drop i)) := by
  have hstored : o.store.insertBefore before id = (do
      let i ← o.position before
      Store.ofList (o.ids.take i ++ id :: o.ids.drop i)) := rfl
  unfold insertBefore
  cases hplace : o.position before with
  | error f => exact ofStore_eq_error_iff.mpr (by rw [hstored, hplace]; rfl)
  | ok i =>
    show _ = ofList (o.ids.take i ++ id :: o.ids.drop i)
    unfold ofList
    congr 1
    rw [hstored, hplace]
    rfl

theorem not_mem_of_split (h : o.ids = pre ++ x :: post) : x ∉ pre ∧ x ∉ post := by
  have hdistinct := o.distinct
  rw [h, List.nodup_middle, List.nodup_cons, List.mem_append] at hdistinct
  exact not_or.mp hdistinct.1

theorem insertBefore_of_split (h : o.ids = pre ++ before :: post) :
    o.insertBefore before id = ofList (pre ++ id :: before :: post) := by
  have hplace : o.ids.idxOf before = pre.length := by
    rw [h, List.idxOf_append_of_notMem (not_mem_of_split h).1, List.idxOf_cons_self, Nat.add_zero]
  rw [insertBefore_eq, position_of_mem (by simp [h]), hplace, h]
  simp [bind, Except.bind]

/-- A segment is put between what stands before the other one and the other one. -/
theorem insertBefore_eq_ok_iff :
    o.insertBefore before id = .ok o' ↔
      ∃ pre post, o.ids = pre ++ before :: post ∧ o'.ids = pre ++ id :: before :: post := by
  constructor
  · intro h
    by_cases hmem : before ∈ o.ids
    · obtain ⟨pre, post, hsplit⟩ := List.append_of_mem hmem
      rw [insertBefore_of_split hsplit] at h
      exact ⟨pre, post, hsplit, ofList_eq_ok_iff.mp h⟩
    · rw [insertBefore_eq, position_of_not_mem hmem] at h
      simp [bind, Except.bind] at h
  · rintro ⟨pre, post, hsplit, hids⟩
    rw [insertBefore_of_split hsplit]
    exact ofList_eq_ok_iff.mpr hids

/-- The place of an id is where the list is erased; an id without a place is not in it. -/
theorem ids_remove_eq_erase (o : ListOrder) (id : SegmentId) : (o.remove id).ids = o.ids.erase id := by
  have hstored := o.remove_store id
  unfold Store.remove at hstored
  rw [o.built.getElem?_pos] at hstored
  split at hstored
  · next i hi =>
    have hidx : o.ids.idxOf id = i := by
      rw [List.idxOf_eq_getD_idxOf?, show o.ids.idxOf? id = some i from hi]
      rfl
    rw [List.erase_eq_eraseIdx_of_idxOf hidx]
    exact Store.ids_of_ofList hstored
  · next hnone =>
    have hmem : id ∉ o.ids := List.idxOf?_eq_none_iff.mp hnone
    rw [List.erase_of_not_mem hmem]
    exact Store.ids_of_ofList hstored

theorem ids_remove (o : ListOrder) (id : SegmentId) :
    (o.remove id).ids = o.ids.filter (· ≠ id) := by
  rw [ids_remove_eq_erase, o.distinct.erase_eq_filter]
  exact List.filter_congr fun x _ => Bool.eq_iff_iff.mpr (by simp)

/-- Taking out a segment that is not there changes nothing. -/
theorem remove_of_not_mem (h : id ∉ o.ids) : o.remove id = o :=
  eq_of_ids_eq ((o.ids_remove_eq_erase id).trans (List.erase_of_not_mem h))

theorem flatMap_insert_of_not_mem {l : List SegmentId} (h : before ∉ l) :
    (l.flatMap fun x => if x = before then [id, x] else [x]) = l := by
  induction l with
  | nil => rfl
  | cons x l ih =>
    obtain ⟨hx, hl⟩ := not_or.mp (mt List.mem_cons.mpr h)
    rw [List.flatMap_cons, ih hl, if_neg (Ne.symm hx)]
    rfl

/-- **One edit and the list.** -/
theorem ids_edit {e : Edit} (h : o.edit e = .ok o') : o'.ids = e.onIds o.ids := by
  cases e with
  | append id => exact append_eq_ok_iff.mp h
  | insertBefore before id =>
    obtain ⟨pre, post, hsplit, hids⟩ := insertBefore_eq_ok_iff.mp h
    obtain ⟨hpre, hpost⟩ := not_mem_of_split hsplit
    rw [hids, Edit.onIds, hsplit, List.flatMap_append, List.flatMap_cons,
      flatMap_insert_of_not_mem hpre, flatMap_insert_of_not_mem hpost, if_pos rfl]
    rfl
  | remove id =>
    obtain rfl := Except.ok.inj h
    exact o.ids_remove id

/-- **One edit and the comparison**: the edit tells nothing new about two segments that are not its
own. -/
theorem compare_edit {e : Edit} (h : o.edit e = .ok o') (ha : a ≠ e.subject) (hb : b ≠ e.subject) :
    o'.compare a b = o.compare a b := by
  cases e with
  | append id =>
    have hids := append_eq_ok_iff.mp h
    apply compare_eq_of_sublist
    · simp [hids]
    · simp [hids, show a ≠ id from ha]
    · simp [hids, show b ≠ id from hb]
  | insertBefore before id =>
    obtain ⟨pre, post, hsplit, hids⟩ := insertBefore_eq_ok_iff.mp h
    apply compare_eq_of_sublist
    · simp [hsplit, hids]
    · simp [hsplit, hids, show a ≠ id from ha]
    · simp [hsplit, hids, show b ≠ id from hb]
  | remove id =>
    obtain rfl := Except.ok.inj h
    symm
    apply compare_eq_of_sublist
    · simp [ids_remove]
    · simp [ids_remove, show a ≠ id from ha]
    · simp [ids_remove, show b ≠ id from hb]

/-- A segment put at the end comes after all others. -/
theorem compare_append (h : o.append id = .ok o') (ha : a ∈ o.ids) : o'.compare a id = .ok (-1) :=
  ((compare_split (append_eq_ok_iff.mp h)).1 a).mpr ha

/-- A segment put before another one comes before that one and what follows it, and after all the
rest. -/
theorem compare_insertBefore (h : o.insertBefore before id = .ok o') (hx : x ∈ o.ids) :
    (o'.compare id x = .ok (-1) ↔ x = before ∨ o.compare before x = .ok (-1)) ∧
      (o'.compare x id = .ok (-1) ↔ x ≠ before ∧ ¬ o.compare before x = .ok (-1)) := by
  obtain ⟨pre, post, hsplit, hids⟩ := insertBefore_eq_ok_iff.mp h
  rw [(compare_split hids).2, (compare_split hids).1, (compare_split hsplit).2, List.mem_cons,
    ← not_or, ← List.mem_cons]
  refine ⟨Iff.rfl, ?_⟩
  -- the list falls into two parts, and no segment is in both
  have hdistinct := o.distinct
  rw [hsplit, List.nodup_append] at hdistinct
  rw [hsplit, List.mem_append] at hx
  constructor
  · intro hpre hpost
    exact hdistinct.2.2 x hpre x hpost rfl
  · exact hx.resolve_right

/-- Taking a segment out again gives back the order that it was put into. -/
theorem remove_of_append (h : o.append id = .ok o') : o'.remove id = o := by
  have hids := append_eq_ok_iff.mp h
  have hnew := (not_mem_of_split hids).1
  apply eq_of_ids_eq
  rw [ids_remove_eq_erase, hids, List.erase_append_right _ hnew, List.erase_cons_head, List.append_nil]

theorem remove_of_insertBefore (h : o.insertBefore before id = .ok o') : o'.remove id = o := by
  obtain ⟨pre, post, hsplit, hids⟩ := insertBefore_eq_ok_iff.mp h
  have hnew := (not_mem_of_split hids).1
  apply eq_of_ids_eq
  rw [ids_remove_eq_erase, hids, List.erase_append_right _ hnew, List.erase_cons_head, hsplit]

/-! ## §4 Chains of edits -/

/-- Makes the edits one after the other. -/
def editAll (o : ListOrder) (edits : List Edit) : Except Fault ListOrder := edits.foldlM edit o

theorem editAll_cons_eq_ok_iff {e : Edit} {edits : List Edit} :
    o.editAll (e :: edits) = .ok o' ↔ ∃ mid, o.edit e = .ok mid ∧ mid.editAll edits = .ok o' := by
  unfold editAll
  rw [List.foldlM_cons, bind_eq_ok_iff]

/-- **A chain of edits and the list.** -/
theorem ids_editAll {edits : List Edit} (h : o.editAll edits = .ok o') :
    o'.ids = edits.foldl Edit.onIds o.ids := by
  induction edits generalizing o with
  | nil =>
    obtain rfl := Except.ok.inj h
    rfl
  | cons e edits ih =>
    obtain ⟨mid, hone, hrest⟩ := editAll_cons_eq_ok_iff.mp h
    rw [List.foldl_cons, ← ids_edit hone, ih hrest]

/-- **A chain of edits and the comparison**: two segments that no edit is about compare in the end
as they did in the beginning. -/
theorem compare_editAll {edits : List Edit} (h : o.editAll edits = .ok o')
    (hothers : ∀ e ∈ edits, a ≠ e.subject ∧ b ≠ e.subject) : o'.compare a b = o.compare a b := by
  induction edits generalizing o with
  | nil =>
    obtain rfl := Except.ok.inj h
    rfl
  | cons e edits ih =>
    obtain ⟨mid, hone, hrest⟩ := editAll_cons_eq_ok_iff.mp h
    obtain ⟨ha, hb⟩ := hothers e List.mem_cons_self
    rw [ih hrest fun e' he' => hothers e' (List.mem_cons_of_mem e he'), compare_edit hone ha hb]

namespace Store

/-- Makes the edits of a stored order one after the other. -/
def editAll (o : Store) (edits : List Edit) : Except Fault Store := edits.foldlM edit o

/-- **A chain of edits** leaves an order that was written from its list, and is a chain of edits of
the order. -/
theorem Built.editAll {edits : List Edit} {s s' : Store} (hs : s.Built)
    (h : s.editAll edits = .ok s') :
    ∃ hs' : s'.Built, (ListOrder.mk s hs).editAll edits = .ok ⟨s', hs'⟩ := by
  induction edits generalizing s with
  | nil =>
    obtain rfl := Except.ok.inj h
    exact ⟨hs, rfl⟩
  | cons e edits ih =>
    unfold Store.editAll at h
    rw [List.foldlM_cons, bind_eq_ok_iff] at h
    obtain ⟨mid, hone, hrest⟩ := h
    obtain ⟨hs', hchain⟩ := ih (built_of_edit hone) hrest
    refine ⟨hs', editAll_cons_eq_ok_iff.mpr ⟨⟨mid, built_of_edit hone⟩, ?_, hchain⟩⟩
    exact edit_of_store hone

/-- **Edits keep a strict total order and disturb nothing else.** What a chain of edits makes of a
list has the list that the edits make of it, and a map that fits this list, so that it compares its
ids by their places there. Two segments that no edit was about still stand as in the beginning. One
more edit leaves the comparison of every two other segments as it is; a segment that is appended comes
after all others; a segment that is put before another one comes before that one and what follows it,
and after all the rest; in both cases taking it out again gives back the order, list and map. Taking
out a segment always succeeds; it drops just this one, and nothing if it is not there. -/
theorem order_of_edits {start o : Store} {edits : List Edit} (hstart : ofList ids = .ok start)
    (hedits : start.editAll edits = .ok o) :
    o.ids = edits.foldl Edit.onIds ids ∧ o.StrictlyOrders ∧
    (∀ a b, (∀ e ∈ edits, a ≠ e.subject ∧ b ≠ e.subject) → o.compare a b = start.compare a b) ∧
    (∀ e o', o.edit e = .ok o' → o'.StrictlyOrders ∧ o'.ids = e.onIds o.ids ∧
      ∀ a b, a ≠ e.subject → b ≠ e.subject → o'.compare a b = o.compare a b) ∧
    (∀ id o', o.append id = .ok o' →
      (∀ a ∈ o.ids, o'.compare a id = .ok (-1)) ∧ o'.remove id = .ok o) ∧
    (∀ before id o', o.insertBefore before id = .ok o' →
      (∀ a ∈ o.ids, (o'.compare id a = .ok (-1) ↔ a = before ∨ o.compare before a = .ok (-1)) ∧
        (o'.compare a id = .ok (-1) ↔ a ≠ before ∧ ¬ o.compare before a = .ok (-1))) ∧
      o'.remove id = .ok o) ∧
    ∀ id, ∃ o', o.remove id = .ok o' ∧ o'.ids = o.ids.filter (· ≠ id) ∧ (id ∉ o.ids → o' = o) := by
  have hbuilt := built_of_ofList hstart
  obtain ⟨ho, hchain⟩ := hbuilt.editAll hedits
  -- from here on the stores are those of orders, and what is known of orders applies
  let whole : ListOrder := ⟨o, ho⟩
  refine ⟨?ids, ho.strictlyOrders, ?chain, ?edit, ?append, ?insertBefore, ?remove⟩
  case ids =>
    rw [← ids_of_ofList hstart]
    exact ids_editAll hchain
  case chain => exact fun a b hothers => compare_editAll hchain hothers
  case edit =>
    intro e o' h
    have ho' := built_of_edit h
    have hone : whole.edit e = .ok ⟨o', ho'⟩ := edit_of_store h
    exact ⟨ho'.strictlyOrders, ids_edit hone, fun a b ha hb => compare_edit hone ha hb⟩
  case append =>
    intro id o' h
    have hone : whole.append id = .ok ⟨o', built_of_ofList h⟩ := ofStore_eq_ok_iff.mpr h
    refine ⟨fun a ha => compare_append hone ha, ?_⟩
    rw [remove_store ⟨o', built_of_ofList h⟩ id, remove_of_append hone]
  case insertBefore =>
    intro before id o' h
    have hone : whole.insertBefore before id = .ok ⟨o', built_of_insertBefore h⟩ :=
      ofStore_eq_ok_iff.mpr h
    refine ⟨fun a ha => compare_insertBefore hone ha, ?_⟩
    rw [remove_store ⟨o', built_of_insertBefore h⟩ id, remove_of_insertBefore hone]
  case remove =>
    intro id
    refine ⟨(whole.remove id).store, whole.remove_store id, whole.ids_remove id, fun h => ?_⟩
    rw [remove_of_not_mem h]

/-- The list 1, 2, 3 with 4 at the end, 5 before 2, and without 1 and the 9 that it never had.
Putting 7 before 3 leaves 5 before 2; the 7 comes before 4 and after 2, and can be taken out again.
-/
theorem order_of_edits_around_three :
    ∃ start o o', ofList [1, 2, 3] = .ok start ∧
      start.editAll [.append 4, .insertBefore 2 5, .remove 1, .remove 9] = .ok o ∧
      o.ids = [5, 2, 3, 4] ∧ o.pos[(3 : SegmentId)]? = some 2 ∧
      o.compare 2 3 = start.compare 2 3 ∧ o.insertBefore 3 7 = .ok o' ∧
      o'.compare 5 2 = o.compare 5 2 ∧ o'.compare 7 4 = .ok (-1) ∧ o'.compare 2 7 = .ok (-1) ∧
      o'.remove 7 = .ok o := by
  have hruns : ((do
      let start ← ofList [1, 2, 3]
      let o ← start.editAll [.append 4, .insertBefore 2 5, .remove 1, .remove 9]
      let o' ← o.insertBefore 3 7
      return (start, o, o')) : Except Fault (Store × Store × Store)).toOption.isSome := by
    decide +kernel
  obtain ⟨⟨start, o, o'⟩, hruns⟩ := Option.isSome_iff_exists.mp hruns
  obtain ⟨start', hstart, hruns⟩ := bind_eq_ok_iff.mp (eq_ok_of_toOption hruns)
  obtain ⟨mid, hedits, hruns⟩ := bind_eq_ok_iff.mp hruns
  obtain ⟨last, hinsert, hruns⟩ := bind_eq_ok_iff.mp hruns
  obtain ⟨rfl, rfl, rfl⟩ : start' = start ∧ mid = o ∧ last = o' := by
    simpa using Except.ok.inj hruns
  obtain ⟨hids, hfits, hchain, hone, -, hplaced, -⟩ := order_of_edits hstart hedits
  obtain ⟨hcompare, hback⟩ := hplaced 3 7 last hinsert
  have hids : mid.ids = [5, 2, 3, 4] := hids
  have hmem : ∀ x ∈ [5, 2, 3, 4], x ∈ mid.ids := by simp [hids]
  refine ⟨start', mid, last, hstart, hedits, hids, ?_, hchain 2 3 (by decide), hinsert, ?_, ?_, ?_,
    hback⟩
  · rw [hfits.pos_eq, hids]
    decide
  · exact (hone (.insertBefore 3 7) last hinsert).2.2 5 2 (by decide) (by decide)
  · exact ((hcompare 4 (hmem 4 (by decide))).1).mpr (.inr (by
      rw [hfits.compare_eq 3 (hmem 3 (by decide)) 4 (hmem 4 (by decide)), hids]; decide))
  · exact ((hcompare 2 (hmem 2 (by decide))).2).mpr ⟨by decide, by
      rw [hfits.compare_eq 3 (hmem 3 (by decide)) 2 (hmem 2 (by decide)), hids]; decide⟩

end Store

end NameIndex.ListOrder
