import Mathlib.Order.Bounds.Basic
import NameIndex.Proofs.OrderEdits

/-!
# Faults of listed orders

A listed order is at fault in two ways: a list repeats an id, or an id is asked for that is not
listed. Which id is named depends on the scan. A list is read from the left and the first id that
has been met before is named; where several ids are looked up, the first that is missing is named,
and looking up comes before writing a new list.

An edit writes a list that was free of repetitions with one id put into it. Wherever the place is,
the only id that can come twice there is the one that was put in
(`ListOrder.ofList_insert_eq_error_iff`), so an edit never names another one.

## Main definitions

* `ListOrder.RepeatsAt` — a list has an id at a place and also to the left of the place.

## Main results

* `ListOrder.ofList_eq_error_iff`, `ListOrder.isLeast_repeatsAt_iff` — which id a list is refused
  for.
* `ListOrder.faults_of_operations` — for every operation, exactly when it is at fault and how.
-/

namespace NameIndex.ListOrder

variable {o : ListOrder} {ids pre post : List SegmentId} {a b x id before : SegmentId}
  {f : Fault} {i : Nat}

/-! ## §1 Repetitions -/

/-- The id at this place also stands to its left. -/
def RepeatsAt (ids : List SegmentId) (i : Nat) : Prop := ∃ id, ids[i]? = some id ∧ id ∈ ids.take i

/-- **The scan stops** at the first id that has a place, from before or from what was passed. -/
theorem Store.places_eq_error_iff {pos : Places} :
    Store.places i pos ids = .error f ↔
      ∃ pre id post, ids = pre ++ id :: post ∧ pre.Nodup ∧ (∀ x ∈ pre, x ∉ pos) ∧
        (id ∈ pos ∨ id ∈ pre) ∧ f = .repeatedInOrder id := by
  -- what is passed has a place in the rest of the scan
  induction ids generalizing i pos with
  | nil => simp [places]
  | cons y rest ih =>
    rw [places]
    split
    · next hy =>
      rw [Std.ExtTreeMap.contains_iff_mem] at hy
      -- the first id has a place, so the scan does not go on
      constructor
      · rintro ⟨⟩
        exact ⟨[], y, rest, rfl, List.nodup_nil, by simp, .inl hy, rfl⟩
      · rintro ⟨pre, id, post, hsplit, -, havoid, -, rfl⟩
        cases pre with
        | nil => rw [(List.cons.inj hsplit).1]
        | cons z pre =>
          obtain ⟨rfl, -⟩ := List.cons.inj hsplit
          exact absurd hy (havoid y List.mem_cons_self)
    · next hy =>
      rw [Std.ExtTreeMap.contains_iff_mem] at hy
      have hplaced : ∀ x, x ∈ pos.insert y i ↔ y = x ∨ x ∈ pos := by
        simp [Std.ExtTreeMap.mem_insert]
      simp only [ih, hplaced, not_or]
      -- what repeats the first id in the rest, repeats it in the whole
      constructor
      · rintro ⟨pre, id, post, rfl, hnodup, havoid, hid, hf⟩
        have hfresh : y ∉ pre := fun hmem => (havoid y hmem).1 rfl
        refine ⟨y :: pre, id, post, rfl, List.nodup_cons.mpr ⟨hfresh, hnodup⟩, ?_, ?_, hf⟩
        · rw [List.forall_mem_cons]
          exact ⟨hy, fun x hx => (havoid x hx).2⟩
        · simp only [List.mem_cons]
          tauto
      · rintro ⟨pre, id, post, hsplit, hnodup, havoid, hid, hf⟩
        cases pre with
        | nil =>
          obtain ⟨rfl, -⟩ := List.cons.inj hsplit
          exact absurd hid (by simp [hy])
        | cons z pre =>
          obtain ⟨rfl, rfl⟩ := List.cons.inj hsplit
          obtain ⟨hfresh, hnodup⟩ := List.nodup_cons.mp hnodup
          refine ⟨pre, id, post, rfl, hnodup, ?_, ?_, hf⟩
          · intro x hx
            exact ⟨fun heq => hfresh (heq ▸ hx), havoid x (List.mem_cons_of_mem y hx)⟩
          · simp only [List.mem_cons] at hid
            tauto

/-- **The id that a list is refused for**: up to it nothing is repeated, and it stands there. -/
theorem ofList_eq_error_iff :
    ofList ids = .error f ↔
      ∃ pre id post, ids = pre ++ id :: post ∧ pre.Nodup ∧ id ∈ pre ∧ f = .repeatedInOrder id := by
  have hscan : Store.ofList ids = .error f ↔ Store.places 0 ∅ ids = .error f := by
    unfold Store.ofList
    cases Store.places 0 ∅ ids <;> simp [bind, Except.bind, pure, Except.pure]
  rw [ofList, ofStore_eq_error_iff, hscan, Store.places_eq_error_iff]
  simp only [Std.ExtTreeMap.not_mem_empty, not_false_eq_true, implies_true, true_and, false_or]

theorem exists_ofList_error_iff : (∃ f, ofList ids = .error f) ↔ ¬ ids.Nodup := by
  constructor
  · rintro ⟨f, hf⟩ hnodup
    rw [ofList_of_nodup hnodup] at hf
    cases hf
  · intro hrepeats
    cases hids : ofList ids with
    | error f => exact ⟨f, rfl⟩
    | ok o => exact absurd (ofList_eq_ok_iff.mp hids ▸ o.distinct) hrepeats

theorem repeatsAt_append (hi : i < pre.length) : RepeatsAt (pre ++ post) i ↔ RepeatsAt pre i := by
  unfold RepeatsAt
  rw [List.getElem?_append_left hi, List.take_append_of_le_length hi.le]

theorem not_repeatsAt_of_nodup (h : ids.Nodup) : ¬ RepeatsAt ids i := by
  rintro ⟨id, hid, hleft⟩
  obtain ⟨hi, rfl⟩ := List.getElem?_eq_some_iff.mp hid
  -- the list falls into what is left of the place and the rest, which starts with the id
  rw [← List.take_append_drop i ids, List.drop_eq_getElem_cons hi, List.nodup_middle,
    List.nodup_cons, List.mem_append] at h
  exact h.1 (.inl hleft)

/-- The first place of a repetition is the end of the longest front without one. -/
theorem isLeast_repeatsAt_iff :
    IsLeast {i | RepeatsAt ids i} i ∧ ids[i]? = some id ↔
      ∃ pre post, ids = pre ++ id :: post ∧ pre.length = i ∧ pre.Nodup ∧ id ∈ pre := by
  constructor
  · rintro ⟨⟨⟨id', hid', hleft⟩, hleast⟩, hid⟩
    obtain rfl : id' = id := Option.some.inj (hid'.symm.trans hid)
    obtain ⟨hi, rfl⟩ := List.getElem?_eq_some_iff.mp hid
    have hlength : (ids.take i).length = i := List.length_take_of_le hi.le
    have hsplit : ids = ids.take i ++ ids[i] :: ids.drop (i + 1) := by
      rw [← List.drop_eq_getElem_cons hi, List.take_append_drop]
    refine ⟨ids.take i, ids.drop (i + 1), hsplit, hlength, ?_, hleft⟩
    by_contra hrepeats
    -- a repetition in the front would be at a lower place
    obtain ⟨f, hf⟩ := exists_ofList_error_iff.mpr hrepeats
    obtain ⟨pre, x, post, hfront, -, hx, -⟩ := ofList_eq_error_iff.mp hf
    have hlower : pre.length < i := by
      rw [← hlength, hfront]
      simp
    have hat : RepeatsAt (ids.take i) pre.length := ⟨x, by simp [hfront], by simpa [hfront] using hx⟩
    have hat' : RepeatsAt ids pre.length := by
      rw [← List.take_append_drop i ids]
      exact (repeatsAt_append (by omega)).mpr hat
    exact absurd (hleast hat') (by omega)
  · rintro ⟨pre, post, rfl, rfl, hnodup, hid⟩
    refine ⟨⟨⟨id, by simp, by simpa using hid⟩, ?_⟩, by simp⟩
    intro j (hj : RepeatsAt _ j)
    by_contra hlower
    rw [repeatsAt_append (by omega)] at hj
    exact not_repeatsAt_of_nodup hnodup hj

/-! ## §2 Lists with one id put in -/

/-- **One id put into a list without repetitions** is the only one that can be repeated, on either
side of its place. -/
theorem ofList_insert_eq_error_iff (h : (pre ++ post).Nodup) :
    ofList (pre ++ id :: post) = .error f ↔ id ∈ pre ++ post ∧ f = .repeatedInOrder id := by
  have hnamed : ∀ g, ofList (pre ++ id :: post) = .error g → g = .repeatedInOrder id := by
    intro g hg
    obtain ⟨front, x, back, hsplit, -, hx, rfl⟩ := ofList_eq_error_iff.mp hg
    -- the id that is named comes twice, and without the new one no id does
    have htwice : 1 < (pre ++ id :: post).count x := by
      rw [hsplit, List.count_append, List.count_cons_self]
      have := List.count_pos_iff.mpr hx
      omega
    have honce : (pre ++ post).count x ≤ 1 := List.nodup_iff_count_le_one.mp h x
    rw [List.perm_middle.count_eq, List.count_cons] at htwice
    by_cases hid : id = x
    · rw [hid]
    · simp only [beq_iff_eq, hid, if_false] at htwice
      omega
  have hrepeats : (∃ g, ofList (pre ++ id :: post) = .error g) ↔ id ∈ pre ++ post := by
    rw [exists_ofList_error_iff, List.nodup_middle, List.nodup_cons, and_iff_left h, not_not]
  constructor
  · intro hf
    exact ⟨hrepeats.mp ⟨f, hf⟩, hnamed f hf⟩
  · rintro ⟨hid, rfl⟩
    obtain ⟨g, hg⟩ := hrepeats.mpr hid
    rwa [← hnamed g hg]

theorem append_eq_error_iff : o.append id = .error f ↔ id ∈ o.ids ∧ f = .repeatedInOrder id := by
  have hdistinct : (o.ids ++ []).Nodup := by
    rw [List.append_nil]
    exact o.distinct
  rw [append_eq, ofList_insert_eq_error_iff hdistinct, List.append_nil]

/-- The other segment is looked up first; only then the new list is written. -/
theorem insertBefore_eq_error_iff :
    o.insertBefore before id = .error f ↔
      before ∉ o.ids ∧ f = .notInOrder before ∨
        before ∈ o.ids ∧ id ∈ o.ids ∧ f = .repeatedInOrder id := by
  by_cases hmem : before ∈ o.ids
  · obtain ⟨pre, post, hsplit⟩ := List.append_of_mem hmem
    rw [insertBefore_of_split hsplit, ofList_insert_eq_error_iff (hsplit ▸ o.distinct), ← hsplit]
    simp [hmem]
  · rw [insertBefore_eq, position_of_not_mem hmem]
    simp [hmem, bind, Except.bind, eq_comm]

/-- Writing the list again without the id at its place meets no repetition. -/
theorem ofList_eraseIdx (o : ListOrder) (id : SegmentId) :
    ofList (o.ids.eraseIdx (o.ids.idxOf id)) = .ok (o.remove id) :=
  ofList_eq_ok_iff.mpr ((o.ids_remove_eq_erase id).trans (List.erase_eq_eraseIdx_of_idxOf rfl))

/-! ## §3 The operations -/

theorem compare_eq_error_iff :
    o.compare a b = .error f ↔
      a ∉ o.ids ∧ f = .notInOrder a ∨ a ∈ o.ids ∧ b ∉ o.ids ∧ f = .notInOrder b := by
  by_cases ha : a ∈ o.ids
  · by_cases hb : b ∈ o.ids
    · simp [compare_of_mem ha hb, ha, hb]
    · simp [compare_of_not_mem_right ha hb, ha, hb, eq_comm]
  · simp [compare_of_not_mem ha, ha, eq_comm]

/-- **Exactly when an operation is at fault.** A list is refused iff an id is repeated, for the id at
the least place that has it to its left. Of every order: putting an id at the end is at fault iff it
is listed; putting an id before another one is at fault for the other one iff that one is not
listed, and otherwise for the id iff it is listed; taking an id out is never at fault, that is, the
list without it is accepted; comparing is at fault for the first id if it is not listed, and
otherwise for the second if that one is not. -/
theorem faults_of_operations :
    (∀ ids, (∃ f, ofList ids = .error f) ↔ ¬ ids.Nodup) ∧
    (∀ ids f, ofList ids = .error f ↔
      ∃ i id, IsLeast {i | RepeatsAt ids i} i ∧ ids[i]? = some id ∧ f = .repeatedInOrder id) ∧
    (∀ o : ListOrder,
      (∀ id f, o.append id = .error f ↔ id ∈ o.ids ∧ f = .repeatedInOrder id) ∧
      (∀ before id f, o.insertBefore before id = .error f ↔
        before ∉ o.ids ∧ f = .notInOrder before ∨
          before ∈ o.ids ∧ id ∈ o.ids ∧ f = .repeatedInOrder id) ∧
      (∀ id, o.store.remove id = .ok (o.remove id).store ∧
        ofList (o.ids.eraseIdx (o.ids.idxOf id)) = .ok (o.remove id)) ∧
      ∀ a b f, o.compare a b = .error f ↔
        a ∉ o.ids ∧ f = .notInOrder a ∨ a ∈ o.ids ∧ b ∉ o.ids ∧ f = .notInOrder b) ∧
    ∀ id : SegmentId,
      (Fault.repeatedInOrder id).message = "duplicate segment id in order: " ++ id.toNat.repr ∧
      (Fault.notInOrder id).message = "segment " ++ id.toNat.repr ++ " is not in the order" := by
  refine ⟨fun ids => exists_ofList_error_iff, ?list, ?operations, fun id => ⟨rfl, rfl⟩⟩
  case list =>
    intro ids f
    rw [ofList_eq_error_iff]
    constructor
    · rintro ⟨pre, id, post, hsplit, hnodup, hid, hf⟩
      obtain ⟨hleast, hat⟩ := isLeast_repeatsAt_iff.mpr ⟨pre, post, hsplit, rfl, hnodup, hid⟩
      exact ⟨pre.length, id, hleast, hat, hf⟩
    · rintro ⟨i, id, hleast, hat, hf⟩
      obtain ⟨pre, post, hsplit, -, hnodup, hid⟩ := isLeast_repeatsAt_iff.mp ⟨hleast, hat⟩
      exact ⟨pre, id, post, hsplit, hnodup, hid, hf⟩
  case operations =>
    intro o
    exact ⟨fun id f => append_eq_error_iff, fun before id f => insertBefore_eq_error_iff,
      fun id => ⟨o.remove_store id, o.ofList_eraseIdx id⟩, fun a b f => compare_eq_error_iff⟩

/-- Both 1 and 3 are repeated; the second 1 comes first. -/
example : ofList [3, 1, 2, 1, 3] = .error (.repeatedInOrder 1) := rfl

end NameIndex.ListOrder
