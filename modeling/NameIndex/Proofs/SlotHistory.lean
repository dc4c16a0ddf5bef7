import Mathlib.Data.List.Induction
import NameIndex.Proofs.Slot

/-!
# Slots through insertions and removals

A slot is edited from outside: entries arrive one by one, each with the comparator of its day, and
addresses are removed with all their entries. What it holds in the end can be read off the list of
edits without running them: an entry that was inserted survives unless its address is removed later
(`Slot.survivors`).

## Architecture

1. Survivors are reckoned from the list alone; one more edit appends an entry to them or drops those
   of one address (`Slot.survivors_append`).
2. Each edit does the same to the slot, up to the arrangement, so that all of them leave the
   survivors (`Slot.perm_editAll`).
3. The last insertion arranges the slot, and removals leave the arrangement alone
   (`Slot.ascending_of_last`).
4. Under one comparator the many sorts come to one stable sort of the survivors, because dropping
   entries before a sort or after it is the same (`Slot.stableSort_editAll`).
5. `Slot.multimap_of_edits` puts the parts together.
-/

namespace NameIndex.Slot

open Sorting

variable {ε A V : Type} {cmp : A → A → Except ε Int} {s s' : Slot A V} {a : A} {v : V} {S : Set A}

/-! ## §1 One insertion -/

/-- Entries whose addresses a comparator arranges are arranged by it. -/
theorem totalOn_byAddress (h : TotalOn cmp S) {xs : List (Entry A V)}
    (hxs : ∀ x ∈ xs, x.address ∈ S) : TotalOn (byAddress cmp) {x | x ∈ xs} :=
  (h.comap Entry.address).mono hxs

/-- The entries of a slot and one more keep to the addresses that the slot and the entry keep to. -/
theorem address_of_mem_append (ha : a ∈ S) (hs : ∀ x ∈ s.entries, x.address ∈ S) :
    ∀ x ∈ s.entries ++ [⟨a, v⟩], x.address ∈ S := by
  intro x hx
  rcases List.mem_append.mp hx with hx | hx
  · exact hs x hx
  · rw [List.mem_singleton.mp hx]
    exact ha

/-- A slot takes an entry in if the comparator knows the addresses. -/
theorem exists_insert_of_totalOn (hcmp : TotalOn cmp S) (ha : a ∈ S)
    (hs : ∀ x ∈ s.entries, x.address ∈ S) (v : V) : ∃ s', s.insert cmp a v = .ok s' := by
  have htotal := totalOn_byAddress hcmp (address_of_mem_append (v := v) ha hs)
  obtain ⟨ys, hys, -⟩ := exists_stableSort htotal
  exact ⟨⟨ys⟩, insert_eq_ok_iff.mpr hys⟩

/-- **One insertion** sorts the slot as a whole. -/
theorem stableSort_insert (hcmp : TotalOn cmp S) (ha : a ∈ S) (hs : ∀ x ∈ s.entries, x.address ∈ S)
    (h : s.insert cmp a v = .ok s') :
    StableSort (byAddress cmp) (s.entries ++ [⟨a, v⟩]) s'.entries :=
  stableSort_of_sort (totalOn_byAddress hcmp (address_of_mem_append ha hs)) (insert_eq_ok_iff.mp h)

/-! ## §2 Edits -/

/-- An edit of a slot. -/
inductive Edit (ε A V : Type) where
  /-- One more entry, sorted in with a comparator of addresses. -/
  | insert (cmp : A → A → Except ε Int) (address : A) (value : V)
  /-- No more entries of an address. -/
  | remove (address : A)

/-- The edit puts nothing in. -/
def Edit.isRemoval : Edit ε A V → Bool
  | .insert .. => false
  | .remove _ => true

/-- The edit keeps to a set of addresses: what it inserts has its address there, and its comparator
is a total preorder there. -/
def Edit.Within (S : Set A) : Edit ε A V → Prop
  | .insert cmp a _ => a ∈ S ∧ TotalOn cmp S
  | .remove _ => True

variable [DecidableEq A]

/-- The edit removes the address. -/
def Edit.removes (a : A) : Edit ε A V → Bool
  | .insert .. => false
  | .remove b => a = b

/-- Makes an edit. -/
def edit (s : Slot A V) : Edit ε A V → Except ε (Slot A V)
  | .insert cmp a v => s.insert cmp a v
  | .remove a => .ok (s.remove a).2

/-- Makes the edits one after the other. -/
def editAll (s : Slot A V) (edits : List (Edit ε A V)) : Except ε (Slot A V) := edits.foldlM edit s

/-- **The survivors of a list of edits**: the entries that are inserted and whose address is not
removed later, in the sequence of their insertion. -/
def survivors : List (Edit ε A V) → List (Entry A V)
  | [] => []
  | .insert _ a v :: later =>
    if later.any (·.removes a) then survivors later else ⟨a, v⟩ :: survivors later
  | .remove _ :: later => survivors later

variable {edits later : List (Edit ε A V)}

theorem editAll_append_eq_ok_iff :
    s.editAll (edits ++ later) = .ok s' ↔
      ∃ mid, s.editAll edits = .ok mid ∧ mid.editAll later = .ok s' := by
  unfold editAll
  rw [List.foldlM_append, bind_eq_ok_iff]

theorem editAll_cons_eq_ok_iff {e : Edit ε A V} :
    s.editAll (e :: edits) = .ok s' ↔ ∃ mid, s.edit e = .ok mid ∧ mid.editAll edits = .ok s' := by
  unfold editAll
  rw [List.foldlM_cons, bind_eq_ok_iff]

@[simp] theorem editAll_singleton {e : Edit ε A V} : s.editAll [e] = s.edit e := by
  unfold editAll
  rw [List.foldlM_cons]
  cases s.edit e <;> rfl

/-! ## §3 Survivors -/

/-- Later edits drop the survivors of the addresses that they remove, and add their own. -/
theorem survivors_append (edits later : List (Edit ε A V)) :
    survivors (edits ++ later) =
      (survivors edits).filter (fun e => !later.any (·.removes e.address)) ++ survivors later := by
  induction edits with
  | nil => rfl
  | cons e edits ih =>
    cases e with
    | remove b => exact ih
    | insert cmp a v =>
      -- an entry goes with the first removal of its address, wherever that stands
      simp only [List.cons_append, survivors, List.any_append, ih]
      by_cases hbefore : edits.any (·.removes a)
      · simp [hbefore]
      · by_cases hlater : later.any (·.removes a)
        · simp [hbefore, hlater]
        · simp [hbefore, hlater]

theorem survivors_append_insert (edits : List (Edit ε A V)) (cmp : A → A → Except ε Int) (a : A)
    (v : V) : survivors (edits ++ [.insert cmp a v]) = survivors edits ++ [⟨a, v⟩] := by
  rw [survivors_append]
  simp [Edit.removes, survivors]

theorem survivors_append_remove (edits : List (Edit ε A V)) (a : A) :
    survivors (edits ++ [.remove a]) = (survivors edits).filter (·.address ≠ a) := by
  rw [survivors_append]
  simp [Edit.removes, survivors]

/-- Every survivor has been inserted. -/
theorem exists_insert_of_mem_survivors {e : Entry A V} (he : e ∈ survivors edits) :
    ∃ cmp, Edit.insert cmp e.address e.value ∈ edits := by
  induction edits with
  | nil => simp [survivors] at he
  | cons first edits ih =>
    have hlater : e ∈ survivors edits → ∃ cmp, .insert cmp e.address e.value ∈ first :: edits := by
      intro hmem
      obtain ⟨cmp, hcmp⟩ := ih hmem
      exact ⟨cmp, List.mem_cons_of_mem first hcmp⟩
    cases first with
    | remove b => exact hlater he
    | insert cmp a v =>
      rw [survivors] at he
      split at he
      · exact hlater he
      · rcases List.mem_cons.mp he with rfl | he
        · exact ⟨cmp, List.mem_cons_self⟩
        · exact hlater he

theorem address_of_mem_survivors (h : ∀ e ∈ edits, e.Within S) {x : Entry A V}
    (hx : x ∈ survivors edits) : x.address ∈ S := by
  obtain ⟨cmp, hcmp⟩ := exists_insert_of_mem_survivors hx
  exact (h _ hcmp).1

/-! ## §4 What a slot holds -/

/-- **The slot holds the survivors**, whatever the comparators were. -/
theorem perm_editAll (h : editAll ∅ edits = .ok s) : s.entries.Perm (survivors edits) := by
  induction edits using List.reverseRecOn generalizing s with
  | nil =>
    obtain rfl := Except.ok.inj h
    exact List.Perm.refl []
  | append_singleton edits last ih =>
    obtain ⟨mid, hmid, hlast⟩ := editAll_append_eq_ok_iff.mp h
    have hperm := ih hmid
    rw [editAll_singleton] at hlast
    cases last with
    | insert cmp a v =>
      rw [survivors_append_insert]
      exact (insert_perm hlast).trans (hperm.append_right _)
    | remove a =>
      obtain rfl := Except.ok.inj hlast
      rw [survivors_append_remove]
      exact hperm.filter _

theorem address_of_mem_editAll (hwithin : ∀ e ∈ edits, e.Within S) (h : editAll ∅ edits = .ok s) :
    ∀ x ∈ s.entries, x.address ∈ S :=
  fun _ hx => address_of_mem_survivors hwithin ((perm_editAll h).mem_iff.mp hx)

/-- Edits that keep to a set of addresses succeed. -/
theorem exists_editAll (hwithin : ∀ e ∈ edits, e.Within S) :
    ∃ s : Slot A V, editAll ∅ edits = .ok s := by
  induction edits using List.reverseRecOn with
  | nil => exact ⟨∅, rfl⟩
  | append_singleton edits last ih =>
    have hbefore : ∀ e ∈ edits, e.Within S := fun e he => hwithin e (List.mem_append_left [last] he)
    obtain ⟨mid, hmid⟩ := ih hbefore
    -- the comparator of the last edit knows what the edits before it have left
    obtain ⟨s, hs⟩ : ∃ s, mid.edit last = .ok s := by
      cases last with
      | insert cmp a v =>
        obtain ⟨ha, hcmp⟩ : (Edit.insert cmp a v).Within S := hwithin _ (by simp)
        exact exists_insert_of_totalOn hcmp ha (address_of_mem_editAll hbefore hmid) v
      | remove a => exact ⟨mid.without a, rfl⟩
    exact ⟨s, editAll_append_eq_ok_iff.mpr ⟨mid, hmid, by rwa [editAll_singleton]⟩⟩

/-- What a removal reports is the number of survivors that it drops. -/
theorem count_of_editAll (h : editAll ∅ edits = .ok s) (a : A) :
    (s.remove a).1 = (survivors edits).countP (·.address = a) ∧
      (s.remove a).1 + (survivors (edits ++ [.remove a])).length = (survivors edits).length := by
  have hcount : (s.remove a).1 = (survivors edits).countP (·.address = a) := by
    rw [remove_fst, (perm_editAll h).countP_eq]
  have hparts := List.length_eq_length_filter_add (l := survivors edits) fun e => e.address = a
  refine ⟨hcount, ?_⟩
  rw [hcount, survivors_append_remove, List.countP_eq_length_filter, hparts]
  simp

/-! ## §5 How a slot is arranged -/

/-- Removals leave a part of the slot, in unchanged sequence. -/
theorem sublist_of_removals (hlater : ∀ e ∈ later, e.isRemoval) (h : s.editAll later = .ok s') :
    s'.entries.Sublist s.entries := by
  induction later generalizing s with
  | nil =>
    obtain rfl := Except.ok.inj h
    exact List.Sublist.refl _
  | cons e later ih =>
    obtain ⟨mid, hmid, hrest⟩ := editAll_cons_eq_ok_iff.mp h
    have hsub := ih (fun e' he' => hlater e' (List.mem_cons_of_mem e he')) hrest
    cases e with
    | insert cmp a v => simp [Edit.isRemoval] at hlater
    | remove a =>
      obtain rfl := Except.ok.inj hmid
      exact hsub.trans List.filter_sublist

/-- **The last insertion arranges the slot**, whatever its comparator, and removals that follow
leave it arranged. -/
theorem ascending_of_last (hwithin : ∀ e ∈ edits ++ .insert cmp a v :: later, e.Within S)
    (hlater : ∀ e ∈ later, e.isRemoval)
    (h : editAll ∅ (edits ++ .insert cmp a v :: later) = .ok s) :
    s.entries.Pairwise fun x y => precedes (byAddress cmp) x y := by
  obtain ⟨mid, hmid, hrest⟩ := editAll_append_eq_ok_iff.mp h
  obtain ⟨next, hnext, hremovals⟩ := editAll_cons_eq_ok_iff.mp hrest
  have hbefore : ∀ e ∈ edits, e.Within S := fun e he => hwithin e (List.mem_append_left _ he)
  obtain ⟨ha, hcmp⟩ : (Edit.insert cmp a v).Within S := hwithin _ (by simp)
  -- the insertion sorts what the earlier edits have left, however that was arranged
  have hsort := stableSort_insert hcmp ha (address_of_mem_editAll hbefore hmid) hnext
  exact hsort.sorted.sublist (sublist_of_removals hlater hremovals)

/-- **One comparator**: the slot is the stable sort of the survivors. -/
theorem stableSort_editAll (hwithin : ∀ e ∈ edits, e.Within S)
    (hone : ∀ cmp' a v, .insert cmp' a v ∈ edits → cmp' = cmp) (h : editAll ∅ edits = .ok s) :
    StableSort (byAddress cmp) (survivors edits) s.entries := by
  induction edits using List.reverseRecOn generalizing s with
  | nil =>
    obtain rfl := Except.ok.inj h
    exact StableSort.refl List.Pairwise.nil
  | append_singleton edits last ih =>
    obtain ⟨mid, hmid, hlast⟩ := editAll_append_eq_ok_iff.mp h
    have hbefore : ∀ e ∈ edits, e.Within S := fun e he => hwithin e (List.mem_append_left [last] he)
    have hone' : ∀ cmp' a v, .insert cmp' a v ∈ edits → cmp' = cmp :=
      fun cmp' a v he => hone cmp' a v (List.mem_append_left [last] he)
    have hsorted := ih hbefore hone' hmid
    rw [editAll_singleton] at hlast
    cases last with
    | insert cmp' a v =>
      obtain rfl := hone cmp' a v (by simp)
      obtain ⟨ha, hcmp⟩ : (Edit.insert cmp' a v).Within S := hwithin _ (by simp)
      have hsort := stableSort_insert hcmp ha (address_of_mem_editAll hbefore hmid) hlast
      -- sorting what is sorted together with the new entry is sorting everything once
      have hall := totalOn_byAddress hcmp fun x hx => address_of_mem_survivors hwithin hx
      rw [survivors_append_insert] at hall ⊢
      exact hsorted.append hall hsort
    | remove a =>
      obtain rfl := Except.ok.inj hlast
      rw [survivors_append_remove]
      exact hsorted.filter _

/-! ## §6 The whole account -/

/-- **A slot is a stable sorted multimap.** Edits of an empty slot, each insertion with a total
preorder of its own, succeed and leave a rearrangement of the survivors. A removal reports how many
survivors it drops. After the last insertion, and any removals that follow it, the slot ascends by
the comparator of that insertion. If there is one comparator only, the slot is the stable sort of
the survivors in the sequence of their insertion, and the top is the first inserted of the least. -/
theorem multimap_of_edits (hedits : ∀ e ∈ edits, e.Within S) :
    ∃ s : Slot A V, editAll ∅ edits = .ok s ∧ s.entries.Perm (survivors edits) ∧
      (∀ before a after, edits = before ++ .remove a :: after →
        ∃ mid : Slot A V, editAll ∅ before = .ok mid ∧
          (mid.remove a).1 = (survivors before).countP (·.address = a) ∧
          (mid.remove a).1 + (survivors (before ++ [.remove a])).length = (survivors before).length) ∧
      (∀ before cmp a v after, edits = before ++ .insert cmp a v :: after →
        (∀ e ∈ after, e.isRemoval) →
        s.entries.Pairwise fun x y => precedes cmp x.address y.address) ∧
      ∀ cmp, (∀ cmp' a v, .insert cmp' a v ∈ edits → cmp' = cmp) →
        StableSort (byAddress cmp) (survivors edits) s.entries ∧
        s.top? = (survivors edits).find? fun x =>
          (survivors edits).all fun y => precedes cmp x.address y.address := by
  obtain ⟨s, hs⟩ := exists_editAll hedits
  have hperm := perm_editAll hs
  refine ⟨s, hs, hperm, ?removal, ?last, ?one⟩
  case removal =>
    -- the removal meets the slot that the edits before it have left
    intro before a after hsplit
    have hbefore : ∀ e ∈ before, e.Within S :=
      fun e he => hedits e (hsplit ▸ List.mem_append_left _ he)
    obtain ⟨mid, hmid⟩ := exists_editAll hbefore
    exact ⟨mid, hmid, count_of_editAll hmid a⟩
  case last =>
    intro before cmp a v after hsplit hafter
    subst hsplit
    exact ascending_of_last hedits hafter hs
  case one =>
    intro cmp hone
    have hsort := stableSort_editAll hedits hone hs
    refine ⟨hsort, ?_⟩
    by_cases hnil : survivors edits = []
    · -- nothing is left, so there is no top
      have hempty : s.entries = [] := (hnil ▸ hperm).eq_nil
      rw [top?, hempty, hnil]
      rfl
    · -- somebody has been inserted, with the one comparator
      obtain ⟨x, hx⟩ := List.exists_mem_of_ne_nil _ hnil
      obtain ⟨cmp', hcmp'⟩ := exists_insert_of_mem_survivors hx
      obtain rfl := hone cmp' _ _ hcmp'
      have htotal := totalOn_byAddress (hedits _ hcmp').2
        fun x hx => address_of_mem_survivors hedits hx
      exact hsort.head?_eq_find? htotal

/-- The comparator that sees tens only. -/
def Sample.byTens : Int → Int → Except Empty Int := byRank (· / 10)

/-- The comparator that puts the greatest number first. -/
def Sample.descending : Int → Int → Except Empty Int := byRank (-·)

/-- Three insertions under two comparators, and a removal. -/
def Sample.mixed : List (Edit Empty Int String) :=
  [.insert byTens 12 "b", .insert byTens 3 "x", .insert descending 17 "c", .remove 3]

/-- Four insertions under one comparator, to which 12 and 17 are level, and a removal. -/
def Sample.level : List (Edit Empty Int String) :=
  [.insert byTens 17 "b", .insert byTens 3 "x", .insert byTens 12 "c", .insert byTens 17 "d",
    .remove 3]

/-- Under two comparators the last one decides how the survivors 12 and 17 are arranged; under the
one that finds them level they stay as they came, the first of them on top. The removal drops one.
-/
theorem multimap_of_edits_level :
    (∃ s : Slot Int String, editAll ∅ Sample.mixed = .ok s ∧
      s.entries.Perm [⟨12, "b"⟩, ⟨17, "c"⟩] ∧
      s.entries.Pairwise fun x y => precedes Sample.descending x.address y.address) ∧
    ∃ s mid : Slot Int String, editAll ∅ Sample.level = .ok s ∧
      StableSort (byAddress Sample.byTens) [⟨17, "b"⟩, ⟨12, "c"⟩, ⟨17, "d"⟩] s.entries ∧
      s.top? = some ⟨17, "b"⟩ ∧
      editAll ∅ (Sample.level.take 4) = .ok mid ∧ (mid.remove 3).1 = 1 := by
  have hmixed : ∀ e ∈ Sample.mixed, e.Within Set.univ := by
    simp [Sample.mixed, Edit.Within, Sample.byTens, Sample.descending, totalOn_byRank]
  have hlevel : ∀ e ∈ Sample.level, e.Within Set.univ := by
    simp [Sample.level, Edit.Within, Sample.byTens, totalOn_byRank]
  have hone : ∀ cmp a v, .insert cmp a v ∈ Sample.level → cmp = Sample.byTens := by
    intro cmp a v hmem
    simp only [Sample.level, List.mem_cons, Edit.insert.injEq, reduceCtorEq, List.not_mem_nil,
      or_false] at hmem
    tauto
  constructor
  · obtain ⟨s, hs, hperm, -, hlast, -⟩ := multimap_of_edits hmixed
    refine ⟨s, hs, hperm, hlast (Sample.mixed.take 2) Sample.descending 17 "c" [.remove 3] rfl ?_⟩
    simp [Edit.isRemoval]
  · obtain ⟨s, hs, -, hremoval, -, hsame⟩ := multimap_of_edits hlevel
    obtain ⟨hsort, htop⟩ := hsame Sample.byTens hone
    obtain ⟨mid, hmid, hcount, -⟩ := hremoval (Sample.level.take 4) 3 [] rfl
    exact ⟨s, mid, hs, hsort, htop, hmid, hcount⟩

end NameIndex.Slot
