import NameIndex.Proofs.StableSort

/-!
# Slots under many insertions

A slot is sorted again whenever an entry arrives. This module follows a slot through a list of
arrivals: under any comparator no entry is lost or invented (`Slot.insertAll_perm`), and under a
total preorder the many sorts come to one stable sort of everything (`Slot.stableSort_insertAll`).
-/

namespace NameIndex.Slot

open Sorting

variable {ε A V : Type}

/-- Entries compared by their addresses. -/
def byAddress (cmp : A → A → Except ε Int) (x y : Entry A V) : Except ε Int :=
  cmp x.address y.address

/-- Inserts the entries one after the other. -/
def insertAll (cmp : A → A → Except ε Int) (s : Slot A V) (es : List (Entry A V)) :
    Except ε (Slot A V) :=
  es.foldlM (fun s e => s.insert cmp e.address e.value) s

variable {cmp : A → A → Except ε Int} {s s' : Slot A V} {es fs : List (Entry A V)}

/-! ## §1 One arrival -/

theorem insert_eq_ok_iff {a : A} {v : V} :
    s.insert cmp a v = .ok s' ↔ sort (byAddress cmp) (s.entries ++ [⟨a, v⟩]) = .ok s'.entries := by
  unfold insert
  rw [bind_eq_ok_iff]
  obtain ⟨entries⟩ := s'
  simp only [pure, Except.pure, Except.ok.injEq, mk.injEq, exists_eq_right]
  rfl

theorem insert_perm {a : A} {v : V} (h : s.insert cmp a v = .ok s') :
    s'.entries.Perm (s.entries ++ [⟨a, v⟩]) :=
  sort_perm (insert_eq_ok_iff.mp h)

theorem entries_ne_nil_of_insert {a : A} {v : V} (h : s.insert cmp a v = .ok s') :
    s'.entries ≠ [] := by
  intro hempty
  have hlength := (insert_perm h).length_eq
  simp [hempty] at hlength

/-! ## §2 Many arrivals -/

@[simp] theorem insertAll_nil : insertAll cmp s [] = .ok s := rfl

theorem insertAll_cons_eq_ok_iff {e : Entry A V} :
    insertAll cmp s (e :: es) = .ok s' ↔
      ∃ mid, s.insert cmp e.address e.value = .ok mid ∧ insertAll cmp mid es = .ok s' := by
  unfold insertAll
  rw [List.foldlM_cons, bind_eq_ok_iff]

@[simp] theorem insertAll_singleton {e : Entry A V} :
    insertAll cmp s [e] = s.insert cmp e.address e.value := by
  unfold insertAll
  rw [List.foldlM_cons]
  cases s.insert cmp e.address e.value <;> rfl

theorem insertAll_append_eq_ok_iff :
    insertAll cmp s (es ++ fs) = .ok s' ↔
      ∃ mid, insertAll cmp s es = .ok mid ∧ insertAll cmp mid fs = .ok s' := by
  induction es generalizing s with
  | nil => simp
  | cons e es ih =>
    rw [List.cons_append, insertAll_cons_eq_ok_iff]
    constructor
    · rintro ⟨m, hm, hrest⟩
      obtain ⟨mid, hmid, hfs⟩ := ih.mp hrest
      exact ⟨mid, insertAll_cons_eq_ok_iff.mpr ⟨m, hm, hmid⟩, hfs⟩
    · rintro ⟨mid, hmid, hfs⟩
      obtain ⟨m, hm, hes⟩ := insertAll_cons_eq_ok_iff.mp hmid
      exact ⟨m, hm, ih.mpr ⟨mid, hes, hfs⟩⟩

/-- **No entry is lost or invented**, whatever the comparator. -/
theorem insertAll_perm (h : insertAll cmp s es = .ok s') :
    s'.entries.Perm (s.entries ++ es) := by
  induction es generalizing s with
  | nil =>
    simp only [insertAll_nil, Except.ok.injEq] at h
    simp [h]
  | cons e es ih =>
    obtain ⟨mid, hmid, hrest⟩ := insertAll_cons_eq_ok_iff.mp h
    have hhead := (insert_perm hmid).append_right es
    simpa using (ih hrest).trans hhead

/-- A comparator that knows every address involved lets all entries in. -/
theorem exists_insertAll_of_answers {S : Set A}
    (hS : ∀ a ∈ S, ∀ b ∈ S, ∃ c, cmp a b = .ok c)
    (hs : ∀ e ∈ s.entries, e.address ∈ S) (hes : ∀ e ∈ es, e.address ∈ S) :
    ∃ s', insertAll cmp s es = .ok s' := by
  induction es generalizing s with
  | nil => exact ⟨s, rfl⟩
  | cons e es ih =>
    -- one arrival: every comparison is between addresses in `S`
    have hall : ∀ x ∈ s.entries ++ [e], x.address ∈ S := by
      intro x hx
      rcases List.mem_append.mp hx with hx | hx
      · exact hs x hx
      · exact hes x (by simp_all)
    have hans : (s.entries ++ [e]).Pairwise fun y x => ∃ c, byAddress cmp x y = .ok c :=
      List.pairwise_of_forall_mem_list fun y hy x hx => hS _ (hall x hx) _ (hall y hy)
    obtain ⟨ys, hys⟩ := exists_sort_of_answers hans
    have hmid : s.insert cmp e.address e.value = .ok ⟨ys⟩ := insert_eq_ok_iff.mpr hys
    -- sorting brings in no other address, so the rest can arrive as well
    have hmem : ∀ x ∈ (⟨ys⟩ : Slot A V).entries, x.address ∈ S :=
      fun x hx => hall x ((insert_perm hmid).mem_iff.mp hx)
    obtain ⟨s', hs'⟩ := ih hmem fun x hx => hes x (List.mem_cons_of_mem e hx)
    exact ⟨s', insertAll_cons_eq_ok_iff.mpr ⟨_, hmid, hs'⟩⟩

/-- Once an entry has arrived, any two entries of the slot are linked by comparisons that
answered. -/
theorem related_of_insertAll {R : Entry A V → Entry A V → Prop} (hR : Equivalence R)
    (hcmp : ∀ x y c, byAddress cmp x y = .ok c → R x y) (hne : es ≠ [])
    (h : insertAll cmp s es = .ok s') : ∀ x ∈ s.entries ++ es, ∀ y ∈ s.entries ++ es, R x y := by
  induction es generalizing s with
  | nil => exact absurd rfl hne
  | cons e es ih =>
    obtain ⟨mid, hmid, hrest⟩ := insertAll_cons_eq_ok_iff.mp h
    have hfirst := related_of_sort hR hcmp (insert_eq_ok_iff.mp hmid)
    -- the last arrival is sorted together with everything before it
    cases es with
    | nil => exact hfirst
    | cons f fs =>
      have hmem : ∀ z ∈ s.entries ++ e :: f :: fs, z ∈ mid.entries ++ f :: fs := by
        intro z hz
        refine ((insert_perm hmid).append_right (f :: fs)).mem_iff.mpr ?_
        simpa using hz
      intro x hx y hy
      exact ih (List.cons_ne_nil f fs) hrest x (hmem x hx) y (hmem y hy)

/-! ## §3 Many sorts are one -/

/-- **Many sorts are one**: under a total preorder, a slot into which entries have arrived is the
stable sort of what it held followed by the arrivals. -/
theorem stableSort_insertAll (hS : TotalOn (byAddress cmp) {x | x ∈ s.entries ++ es})
    (hne : es ≠ []) (h : insertAll cmp s es = .ok s') :
    StableSort (byAddress cmp) (s.entries ++ es) s'.entries := by
  induction es generalizing s with
  | nil => exact absurd rfl hne
  | cons e es ih =>
    obtain ⟨mid, hmid, hrest⟩ := insertAll_cons_eq_ok_iff.mp h
    have hsplit : s.entries ++ e :: es = (s.entries ++ [e]) ++ es := by simp
    rw [hsplit] at hS ⊢
    have hfirst : StableSort (byAddress cmp) (s.entries ++ [e]) mid.entries :=
      stableSort_of_sort (hS.mono fun x hx => List.mem_append_left es hx)
        (insert_eq_ok_iff.mp hmid)
    -- the last arrival leaves the slot sorted; before that, this sort is absorbed by the next
    cases es with
    | nil =>
      simp only [insertAll_nil, Except.ok.injEq] at hrest
      simpa [← hrest] using hfirst
    | cons f fs =>
      have hmidS : TotalOn (byAddress cmp) {x | x ∈ mid.entries ++ f :: fs} :=
        hS.mono fun x hx => (hfirst.perm.append_right (f :: fs)).mem_iff.mp hx
      exact hfirst.append hS (ih hmidS (by simp) hrest)

/-- A slot that is sorted already is the stable sort also when nothing arrives. -/
theorem stableSort_insertAll_of_sorted
    (hS : TotalOn (byAddress cmp) {x | x ∈ s.entries ++ es})
    (hs : s.entries.Pairwise fun x y => precedes (byAddress cmp) x y)
    (h : insertAll cmp s es = .ok s') :
    StableSort (byAddress cmp) (s.entries ++ es) s'.entries := by
  by_cases hne : es = []
  · subst hne
    simp only [insertAll_nil, Except.ok.injEq] at h
    subst h
    simpa using StableSort.refl hs
  · exact stableSort_insertAll hS hne h

/-- Entries of one address stay in the sequence of their arrival. -/
theorem insertAll_filter_address [DecidableEq A]
    (hS : TotalOn (byAddress cmp) {x | x ∈ s.entries ++ es}) (h : insertAll cmp s es = .ok s')
    (a : A) :
    s'.entries.filter (fun e => e.address = a) =
      (s.entries ++ es).filter fun e => e.address = a := by
  by_cases hne : es = []
  · subst hne
    obtain rfl := Except.ok.inj h
    rw [List.append_nil]
  · refine (stableSort_insertAll hS hne h).filter_eq fun x hx y _ hxa hya => ?_
    -- an address is level with itself
    have hxy : x.address = y.address := (of_decide_eq_true hxa).trans (of_decide_eq_true hya).symm
    have hself := hS.ties_refl hx
    unfold ties byAddress at hself ⊢
    rwa [← hxy]

/-! ## §4 Departures -/

@[simp] theorem remove_snd [DecidableEq A] (s : Slot A V) (a : A) : (s.remove a).2 = s.without a :=
  rfl

/-- **The number of a removal** is that of the entries of the address. -/
theorem remove_fst [DecidableEq A] (s : Slot A V) (a : A) :
    (s.remove a).1 = s.entries.countP (·.address = a) := by
  -- an entry is of the address or is kept
  have hsplit := List.length_eq_countP_add_countP (fun e : Entry A V => decide (e.address = a))
    (l := s.entries)
  have hkept : (s.without a).size = s.entries.countP fun e => ¬ decide (e.address = a) := by
    rw [List.countP_eq_length_filter]
    simp [without, size]
  rw [remove, hkept, size]
  omega

/-- Removing addresses one after the other leaves the entries of all other addresses. -/
theorem foldl_without_entries [DecidableEq A] (s : Slot A V) (as : List A) :
    (as.foldl without s).entries = s.entries.filter fun e => e.address ∉ as := by
  induction as generalizing s with
  | nil => simp
  | cons a as ih =>
    rw [List.foldl_cons, ih, without, List.filter_filter]
    refine List.filter_congr fun e _ => ?_
    simp [not_or, Bool.and_comm]

end NameIndex.Slot
