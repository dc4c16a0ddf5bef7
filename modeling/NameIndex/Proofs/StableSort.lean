import Mathlib.Data.List.Basic
import Mathlib.Data.Set.Basic
import NameIndex.Slot

/-!
# Stable sorting under a comparator that may fail

`Sorting.sort` takes a comparator that may fail and that need not be an order. This module says
what it does in three degrees of trust in the comparator.

* Any comparator: what comes out is a rearrangement (`sort_perm`).
* A comparator that answers: something comes out (`exists_sort_of_answers`).
* A comparator that is a total preorder on the entries: what comes out is **the** stable sort
  (`exists_stableSort`, `StableSort.unique`).

The stable sort is described without an algorithm: a rearrangement, ascending, in which entries
that compare equal stand as they stood. From the description follows that sorting after every
insertion is the same as sorting once at the end (`StableSort.append`).

## Main definitions

* `Sorting.TotalOn` — the comparator is a total preorder on a set.
* `Sorting.StableSort` — one list is the stable sort of another.
-/

namespace NameIndex

/-- A computation in two steps succeeds when both steps do. -/
theorem bind_eq_ok_iff {ε α β : Type} {x : Except ε α} {f : α → Except ε β} {r : β} :
    (x >>= f) = .ok r ↔ ∃ a, x = .ok a ∧ f a = .ok r := by
  cases x with
  | error e => simp [bind, Except.bind]
  | ok a => simp [bind, Except.bind]

theorem eq_ok_of_toOption {ε α : Type} {x : Except ε α} {a : α} (h : x.toOption = some a) :
    x = .ok a := by
  cases x with
  | error e => simp [Except.toOption] at h
  | ok b => exact congrArg Except.ok (Option.some.inj h)

namespace Sorting

variable {ε α β : Type}

/-! ## §1 Comparators -/

/-- The comparator answers that `x` comes before `y` or level with it. -/
def precedes (cmp : α → α → Except ε Int) (x y : α) : Bool :=
  match cmp x y with
  | .ok c => c ≤ 0
  | .error _ => false

/-- The comparator answers that `x` and `y` are level. -/
def ties (cmp : α → α → Except ε Int) (x y : α) : Bool :=
  match cmp x y with
  | .ok c => c = 0
  | .error _ => false

/-- On `S` the comparator is a total preorder: it answers, swapped arguments turn the sign of the
answer around, and precedence is transitive. -/
structure TotalOn (cmp : α → α → Except ε Int) (S : Set α) : Prop where
  answers : ∀ x ∈ S, ∀ y ∈ S, ∃ c, cmp x y = .ok c
  antisymm : ∀ x ∈ S, ∀ y ∈ S, ∀ c d, cmp x y = .ok c → cmp y x = .ok d → d.sign = -c.sign
  trans : ∀ x ∈ S, ∀ y ∈ S, ∀ z ∈ S, precedes cmp x y → precedes cmp y z → precedes cmp x z

theorem precedes_of_ties {cmp : α → α → Except ε Int} {x y : α} (h : ties cmp x y) :
    precedes cmp x y := by
  unfold ties at h
  unfold precedes
  cases hc : cmp x y with
  | error e => simp [hc] at h
  | ok c => simp_all

namespace TotalOn

variable {cmp : α → α → Except ε Int} {S T : Set α} {x y z : α}

theorem mono (h : TotalOn cmp T) (hST : S ⊆ T) : TotalOn cmp S where
  answers x hx y hy := h.answers x (hST hx) y (hST hy)
  antisymm x hx y hy := h.antisymm x (hST hx) y (hST hy)
  trans x hx y hy z hz := h.trans x (hST hx) y (hST hy) z (hST hz)

/-- Only the answers on the set matter. -/
theorem congr {cmp' : α → α → Except ε Int} (h : TotalOn cmp S)
    (heq : ∀ x ∈ S, ∀ y ∈ S, cmp' x y = cmp x y) : TotalOn cmp' S where
  answers x hx y hy := by
    rw [heq x hx y hy]
    exact h.answers x hx y hy
  antisymm x hx y hy := by
    rw [heq x hx y hy, heq y hy x hx]
    exact h.antisymm x hx y hy
  trans x hx y hy z hz := by
    unfold precedes
    rw [heq x hx y hy, heq y hy z hz, heq x hx z hz]
    exact h.trans x hx y hy z hz

/-- A comparator read through a function is as good as the comparator. -/
theorem comap (h : TotalOn cmp S) (f : β → α) :
    TotalOn (fun x y => cmp (f x) (f y)) (Set.preimage f S) where
  answers x hx y hy := h.answers (f x) hx (f y) hy
  antisymm x hx y hy := h.antisymm (f x) hx (f y) hy
  trans x hx y hy z hz := h.trans (f x) hx (f y) hy (f z) hz

/-- A negative answer means that the second argument does not precede the first. -/
theorem neg_iff (h : TotalOn cmp S) (hx : x ∈ S) (hy : y ∈ S) {c : Int} (hc : cmp x y = .ok c) :
    c < 0 ↔ precedes cmp y x = false := by
  obtain ⟨d, hd⟩ := h.answers y hy x hx
  have hsign := h.antisymm x hx y hy c d hc hd
  simp only [precedes, hd, decide_eq_false_iff_not, not_le]
  constructor
  · intro hneg
    rw [Int.sign_eq_neg_one_of_neg hneg] at hsign
    exact Int.sign_eq_one_iff_pos.mp (by simpa using hsign)
  · intro hpos
    rw [Int.sign_eq_one_of_pos hpos] at hsign
    exact Int.sign_eq_neg_one_iff_neg.mp (by omega)

theorem precedes_or (h : TotalOn cmp S) (hx : x ∈ S) (hy : y ∈ S) :
    precedes cmp x y ∨ precedes cmp y x := by
  obtain ⟨c, hc⟩ := h.answers x hx y hy
  by_cases hneg : c < 0
  · left
    simp [precedes, hc, hneg.le]
  · right
    have := (h.neg_iff hx hy hc).not.mp hneg
    simpa using this

theorem ties_iff (h : TotalOn cmp S) (hx : x ∈ S) (hy : y ∈ S) :
    ties cmp x y ↔ precedes cmp x y ∧ precedes cmp y x := by
  obtain ⟨c, hc⟩ := h.answers x hx y hy
  have hneg := h.neg_iff hx hy hc
  rw [← not_iff_not, Bool.not_eq_false, not_lt] at hneg
  rw [← hneg]
  simp only [ties, precedes, hc, decide_eq_true_eq]
  omega

theorem ties_refl (h : TotalOn cmp S) (hx : x ∈ S) : ties cmp x x := by
  have := h.precedes_or hx hx
  rw [h.ties_iff hx hx]
  simpa using this

/-- Level entries are level with the same entries. -/
theorem ties_congr (h : TotalOn cmp S) (hx : x ∈ S) (hy : y ∈ S) (hz : z ∈ S)
    (hxy : ties cmp x y) : ties cmp x z = ties cmp y z := by
  rw [h.ties_iff hx hy] at hxy
  rw [Bool.eq_iff_iff, h.ties_iff hx hz, h.ties_iff hy hz]
  constructor
  · rintro ⟨hxz, hzx⟩
    exact ⟨h.trans y hy x hx z hz hxy.2 hxz, h.trans z hz x hx y hy hzx hxy.1⟩
  · rintro ⟨hyz, hzy⟩
    exact ⟨h.trans x hx y hy z hz hxy.1 hyz, h.trans z hz y hy x hx hzy hxy.2⟩

end TotalOn

/-- The comparator that ranks by a number. -/
def byRank (rank : α → Int) (x y : α) : Except ε Int := .ok (rank x - rank y).sign

/-- Numbers rank in a total preorder. -/
theorem totalOn_byRank (rank : α → Int) (S : Set α) :
    TotalOn (byRank rank : α → α → Except ε Int) S where
  answers _ _ _ _ := ⟨_, rfl⟩
  antisymm x _ y _ c d hc hd := by
    rw [← Except.ok.inj hc, ← Except.ok.inj hd, ← Int.neg_sub, Int.sign_neg, Int.sign_neg]
  trans x _ y _ z _ hxy hyz := by
    simp only [precedes, byRank, decide_eq_true_eq, Int.sign_nonpos_iff] at hxy hyz ⊢
    omega

/-! ## §2 Any comparator: a rearrangement -/

theorem place_cons_eq_ok {cmp : α → α → Except ε Int} {x y : α} {done ys : List α}
    (h : place cmp x (y :: done) = .ok ys) :
    (∃ c ys', cmp x y = .ok c ∧ c < 0 ∧ place cmp x done = .ok ys' ∧ ys = y :: ys') ∨
      (∃ c, cmp x y = .ok c ∧ ¬ c < 0 ∧ ys = x :: y :: done) := by
  rw [place, bind_eq_ok_iff] at h
  obtain ⟨c, hc, h⟩ := h
  split at h
  · next hneg =>
    obtain ⟨ys', hp, hys⟩ := bind_eq_ok_iff.mp h
    exact .inl ⟨c, ys', hc, hneg, hp, (Except.ok.inj hys).symm⟩
  · next hnonneg => exact .inr ⟨c, hc, hnonneg, (Except.ok.inj h).symm⟩

theorem placeAll_cons_eq_ok {cmp : α → α → Except ε Int} {x : α} {done rest ys : List α}
    (h : placeAll cmp done (x :: rest) = .ok ys) :
    ∃ mid, place cmp x done = .ok mid ∧ placeAll cmp mid rest = .ok ys := by
  rw [placeAll] at h
  exact bind_eq_ok_iff.mp h

theorem sort_eq_ok_iff {cmp : α → α → Except ε Int} {xs ys : List α} :
    sort cmp xs = .ok ys ↔ placeAll cmp [] xs = .ok ys.reverse := by
  unfold sort
  rw [bind_eq_ok_iff]
  simp only [pure, Except.pure, Except.ok.injEq, List.reverse_eq_iff, exists_eq_right]

theorem place_perm {cmp : α → α → Except ε Int} {x : α} {done ys : List α}
    (h : place cmp x done = .ok ys) : ys.Perm (x :: done) := by
  induction done generalizing ys with
  | nil =>
    simp only [place, Except.ok.injEq] at h
    rw [← h]
  | cons y done ih =>
    rcases place_cons_eq_ok h with ⟨c, ys', -, -, hp, rfl⟩ | ⟨c, -, -, rfl⟩
    · exact ((ih hp).cons y).trans (List.Perm.swap x y done)
    · exact List.Perm.refl _

theorem placeAll_perm {cmp : α → α → Except ε Int} {done xs ys : List α}
    (h : placeAll cmp done xs = .ok ys) : ys.Perm (done ++ xs) := by
  induction xs generalizing done with
  | nil =>
    simp only [placeAll, Except.ok.injEq] at h
    simp [h]
  | cons x rest ih =>
    obtain ⟨mid, hp, hrest⟩ := placeAll_cons_eq_ok h
    have hmid : (mid ++ rest).Perm (x :: done ++ rest) := (place_perm hp).append_right rest
    exact ((ih hrest).trans hmid).trans List.perm_middle.symm

/-- Whatever the comparator, sorting rearranges. -/
theorem sort_perm {cmp : α → α → Except ε Int} {xs ys : List α} (h : sort cmp xs = .ok ys) :
    ys.Perm xs := by
  have := placeAll_perm (sort_eq_ok_iff.mp h)
  exact (List.reverse_perm ys).symm.trans (by simpa using this)

/-! ## §3 Answers and results -/

theorem exists_place_of_answers {cmp : α → α → Except ε Int} {x : α} {done : List α}
    (h : ∀ y ∈ done, ∃ c, cmp x y = .ok c) : ∃ ys, place cmp x done = .ok ys := by
  induction done with
  | nil => exact ⟨[x], rfl⟩
  | cons y done ih =>
    obtain ⟨c, hc⟩ := h y (by simp)
    obtain ⟨ys, hys⟩ := ih fun z hz => h z (List.mem_cons_of_mem y hz)
    rw [place, hc, hys]
    by_cases hneg : c < 0
    · exact ⟨y :: ys, by simp [bind, Except.bind, pure, Except.pure, hneg]⟩
    · exact ⟨x :: y :: done, by simp [bind, Except.bind, pure, Except.pure, hneg]⟩

theorem exists_placeAll_of_answers {cmp : α → α → Except ε Int} {done xs : List α}
    (hcross : ∀ x ∈ xs, ∀ y ∈ done, ∃ c, cmp x y = .ok c)
    (hxs : xs.Pairwise fun y x => ∃ c, cmp x y = .ok c) :
    ∃ ys, placeAll cmp done xs = .ok ys := by
  induction xs generalizing done with
  | nil => exact ⟨done, rfl⟩
  | cons x rest ih =>
    obtain ⟨mid, hmid⟩ := exists_place_of_answers (hcross x (by simp))
    rw [List.pairwise_cons] at hxs
    have hmidCross : ∀ z ∈ rest, ∀ y ∈ mid, ∃ c, cmp z y = .ok c := by
      intro z hz y hy
      -- what has been placed is `x` and what was there before
      rcases List.mem_cons.mp ((place_perm hmid).mem_iff.mp hy) with rfl | hy
      · exact hxs.1 z hz
      · exact hcross z (List.mem_cons_of_mem x hz) y hy
    obtain ⟨ys, hys⟩ := ih hmidCross hxs.2
    exact ⟨ys, by rw [placeAll, hmid]; exact hys⟩

/-- Sorting compares an entry only with entries to its left. Where these comparisons answer,
sorting gives a result. -/
theorem exists_sort_of_answers {cmp : α → α → Except ε Int} {xs : List α}
    (h : xs.Pairwise fun y x => ∃ c, cmp x y = .ok c) : ∃ ys, sort cmp xs = .ok ys := by
  have hnil : ∀ x ∈ xs, ∀ y ∈ ([] : List α), ∃ c, cmp x y = .ok c := by simp
  obtain ⟨ys, hys⟩ := exists_placeAll_of_answers hnil h
  exact ⟨ys.reverse, sort_eq_ok_iff.mpr (by simpa using hys)⟩

theorem related_of_placeAll {cmp : α → α → Except ε Int} {R : α → α → Prop} (hR : Equivalence R)
    (hcmp : ∀ x y c, cmp x y = .ok c → R x y) {done xs ys : List α}
    (hdone : ∀ x ∈ done, ∀ y ∈ done, R x y) (h : placeAll cmp done xs = .ok ys) :
    ∀ x ∈ ys, ∀ y ∈ ys, R x y := by
  induction xs generalizing done with
  | nil =>
    obtain rfl := Except.ok.inj h
    exact hdone
  | cons x rest ih =>
    obtain ⟨mid, hplace, hrest⟩ := placeAll_cons_eq_ok h
    -- `x` has been compared with the entry to its left, which is related to all that was placed
    have hx : ∀ y ∈ done, R x y := by
      cases done with
      | nil => simp
      | cons z done =>
        have hxz : R x z := by
          rcases place_cons_eq_ok hplace with ⟨c, -, hc, -⟩ | ⟨c, hc, -⟩ <;> exact hcmp x z c hc
        intro y hy
        exact hR.trans hxz (hdone z List.mem_cons_self y hy)
    apply ih _ hrest
    intro y hy z hz
    rcases List.mem_cons.mp ((place_perm hplace).mem_iff.mp hy) with rfl | hy
    · rcases List.mem_cons.mp ((place_perm hplace).mem_iff.mp hz) with rfl | hz
      · exact hR.refl z
      · exact hx z hz
    · rcases List.mem_cons.mp ((place_perm hplace).mem_iff.mp hz) with rfl | hz
      · exact hR.symm (hx y hy)
      · exact hdone y hy z hz

/-- **A result needs a chain of answers.** Where sorting gives a result, any two entries are linked
by comparisons that answered: they are related by every equivalence that relates what can be
compared. -/
theorem related_of_sort {cmp : α → α → Except ε Int} {R : α → α → Prop} (hR : Equivalence R)
    (hcmp : ∀ x y c, cmp x y = .ok c → R x y) {xs ys : List α} (h : sort cmp xs = .ok ys) :
    ∀ x ∈ xs, ∀ y ∈ xs, R x y := by
  intro x hx y hy
  have hys := related_of_placeAll hR hcmp (by simp) (sort_eq_ok_iff.mp h)
  have hmem : ∀ z ∈ xs, z ∈ ys.reverse := by
    intro z hz
    rw [List.mem_reverse]
    exact (sort_perm h).mem_iff.mpr hz
  exact hys x (hmem x hx) y (hmem y hy)

/-! ## §4 A total preorder: the stable sort -/

/-- **The stable sort**: `ys` rearranges `xs`, is ascending, and shows level entries in the order
in which they stand in `xs`. -/
structure StableSort (cmp : α → α → Except ε Int) (xs ys : List α) : Prop where
  perm : ys.Perm xs
  sorted : ys.Pairwise fun x y => precedes cmp x y
  stable : ∀ x ∈ xs, ys.filter (ties cmp x) = xs.filter (ties cmp x)

/-- Placing into a descending list keeps it descending. -/
theorem place_descending {cmp : α → α → Except ε Int} {S : Set α} (hS : TotalOn cmp S)
    {x : α} {done ys : List α} (hx : x ∈ S) (hdone : ∀ y ∈ done, y ∈ S)
    (hdesc : done.Pairwise fun y z => precedes cmp z y) (h : place cmp x done = .ok ys) :
    ys.Pairwise fun y z => precedes cmp z y := by
  induction done generalizing ys with
  | nil =>
    simp only [place, Except.ok.injEq] at h
    simp [← h]
  | cons y done ih =>
    have hy : y ∈ S := hdone y (by simp)
    have hrest : ∀ z ∈ done, z ∈ S := fun z hz => hdone z (List.mem_cons_of_mem y hz)
    rw [List.pairwise_cons] at hdesc
    rcases place_cons_eq_ok h with ⟨c, ys', hc, hneg, hp, rfl⟩ | ⟨c, hc, hnonneg, rfl⟩
    · -- `x` passes `y`, so `y` stays the greatest
      refine List.pairwise_cons.mpr ⟨fun z hz => ?_, ih hrest hdesc.2 hp⟩
      rcases List.mem_cons.mp ((place_perm hp).mem_iff.mp hz) with rfl | hz
      · simp [precedes, hc, hneg.le]
      · exact hdesc.1 z hz
    · -- `x` stops at `y` and is the greatest
      have hyx : precedes cmp y x := by
        have := (hS.neg_iff hx hy hc).not.mp hnonneg
        simpa using this
      refine List.pairwise_cons.mpr ⟨fun z hz => ?_, List.pairwise_cons.mpr hdesc⟩
      rcases List.mem_cons.mp hz with rfl | hz
      · exact hyx
      · exact hS.trans z (hrest z hz) y hy x hx (hdesc.1 z hz) hyx

/-- Placing an entry never moves it past an entry that is level with it. -/
theorem place_filter_ties {cmp : α → α → Except ε Int} {S : Set α} (hS : TotalOn cmp S)
    {x z : α} {done ys : List α} (hx : x ∈ S) (hz : z ∈ S) (hdone : ∀ y ∈ done, y ∈ S)
    (h : place cmp x done = .ok ys) :
    ys.filter (ties cmp z) = (x :: done).filter (ties cmp z) := by
  induction done generalizing ys with
  | nil =>
    simp only [place, Except.ok.injEq] at h
    rw [← h]
  | cons y done ih =>
    have hy : y ∈ S := hdone y (by simp)
    rcases place_cons_eq_ok h with ⟨c, ys', hc, hneg, hp, rfl⟩ | ⟨c, -, -, rfl⟩
    · have hpast := ih (fun w hw => hdone w (List.mem_cons_of_mem y hw)) hp
      -- `x` and `y` are not both level with `z`, for `x` comes strictly first
      have hnot : ¬ (ties cmp z x = true ∧ ties cmp z y = true) := by
        rintro ⟨hzx, hzy⟩
        have hyx : ties cmp y x := by rw [← hS.ties_congr hz hy hx hzy]; exact hzx
        have := (hS.neg_iff hx hy hc).mp hneg
        simp [precedes_of_ties hyx] at this
      rw [List.filter_cons, hpast]
      by_cases hzx : ties cmp z x = true
      · have hzy : ties cmp z y = false := by
          simpa [hzx] using hnot
        simp [hzx, hzy]
      · simp [hzx, List.filter_cons]
    · rfl

theorem placeAll_stable {cmp : α → α → Except ε Int} {S : Set α} (hS : TotalOn cmp S)
    {done xs ys : List α} (hdone : ∀ y ∈ done, y ∈ S) (hxs : ∀ x ∈ xs, x ∈ S)
    (hdesc : done.Pairwise fun y z => precedes cmp z y) (h : placeAll cmp done xs = .ok ys) :
    (ys.Pairwise fun y z => precedes cmp z y) ∧
      ∀ z ∈ S, ys.filter (ties cmp z) = (xs.reverse ++ done).filter (ties cmp z) := by
  induction xs generalizing done with
  | nil =>
    simp only [placeAll, Except.ok.injEq] at h
    subst h
    exact ⟨hdesc, fun z _ => rfl⟩
  | cons x rest ih =>
    obtain ⟨mid, hp, hrest⟩ := placeAll_cons_eq_ok h
    have hx : x ∈ S := hxs x (by simp)
    have hmid : ∀ y ∈ mid, y ∈ S := by
      intro y hy
      rcases List.mem_cons.mp ((place_perm hp).mem_iff.mp hy) with rfl | hy
      · exact hx
      · exact hdone y hy
    obtain ⟨hsorted, hstable⟩ := ih hmid (fun w hw => hxs w (List.mem_cons_of_mem x hw))
      (place_descending hS hx hdone hdesc hp) hrest
    refine ⟨hsorted, fun z hz => ?_⟩
    rw [hstable z hz, List.filter_append, place_filter_ties hS hx hz hdone hp]
    simp [List.filter_append, List.filter_cons]

/-- **Sorting is stable sorting** where the comparator is a total preorder on the entries. -/
theorem stableSort_of_sort {cmp : α → α → Except ε Int} {xs ys : List α}
    (hS : TotalOn cmp {x | x ∈ xs}) (h : sort cmp xs = .ok ys) : StableSort cmp xs ys := by
  have hnil : ∀ y ∈ ([] : List α), y ∈ {x | x ∈ xs} := by simp
  obtain ⟨hdesc, hstable⟩ := placeAll_stable hS hnil (fun x hx => hx) List.Pairwise.nil
    (sort_eq_ok_iff.mp h)
  refine ⟨sort_perm h, List.pairwise_reverse.mp hdesc, fun x hx => ?_⟩
  have hrev := congrArg List.reverse (hstable x hx)
  simpa [List.filter_reverse] using hrev

theorem exists_stableSort {cmp : α → α → Except ε Int} {xs : List α}
    (hS : TotalOn cmp {x | x ∈ xs}) : ∃ ys, sort cmp xs = .ok ys ∧ StableSort cmp xs ys := by
  have hans : xs.Pairwise fun y x => ∃ c, cmp x y = .ok c :=
    List.pairwise_of_forall_mem_list fun y hy x hx => hS.answers x hx y hy
  obtain ⟨ys, hys⟩ := exists_sort_of_answers hans
  exact ⟨ys, hys, stableSort_of_sort hS hys⟩

/-! ## §5 Laws of the stable sort -/

/-- Ascending rearrangements that agree on every class of level entries are equal. -/
theorem eq_of_perm_of_ties {cmp : α → α → Except ε Int} {ys zs : List α}
    (hS : TotalOn cmp {x | x ∈ ys}) (hperm : ys.Perm zs)
    (hys : ys.Pairwise fun x y => precedes cmp x y) (hzs : zs.Pairwise fun x y => precedes cmp x y)
    (hties : ∀ x ∈ ys, ys.filter (ties cmp x) = zs.filter (ties cmp x)) : ys = zs := by
  induction ys generalizing zs with
  | nil => exact hperm.nil_eq
  | cons y ys ih =>
    cases zs with
    | nil => exact absurd hperm.eq_nil (by simp)
    | cons z zs =>
      have hy : y ∈ {x | x ∈ y :: ys} := by simp
      have hz : z ∈ {x | x ∈ y :: ys} := hperm.mem_iff.mpr (by simp)
      rw [List.pairwise_cons] at hys hzs
      -- the two heads are both least, hence level, hence first of the same class
      have hyz : precedes cmp y z := by
        rcases List.mem_cons.mp hz with rfl | hmem
        · exact precedes_of_ties (hS.ties_refl hy)
        · exact hys.1 z hmem
      have hzy : precedes cmp z y := by
        rcases List.mem_cons.mp (hperm.mem_iff.mp hy) with rfl | hmem
        · exact precedes_of_ties (hS.ties_refl hy)
        · exact hzs.1 y hmem
      have htie : ties cmp y z := (hS.ties_iff hy hz).mpr ⟨hyz, hzy⟩
      have hheads := hties y hy
      rw [List.filter_cons_of_pos (hS.ties_refl hy), List.filter_cons_of_pos htie] at hheads
      obtain ⟨rfl, -⟩ := List.cons.inj hheads
      congr 1
      refine ih (hS.mono fun x hx => List.mem_cons_of_mem y hx) hperm.cons_inv hys.2 hzs.2 ?_
      intro x hx
      have hclass := hties x (List.mem_cons_of_mem y hx)
      by_cases hxy : ties cmp x y = true
      · simpa [List.filter_cons, hxy] using hclass
      · simpa [List.filter_cons, hxy] using hclass

namespace StableSort

variable {cmp cmp' : α → α → Except ε Int} {xs xs' ys zs es : List α}

/-- **A list has one stable sort.** -/
theorem unique (hS : TotalOn cmp {x | x ∈ xs}) (hy : StableSort cmp xs ys)
    (hz : StableSort cmp xs zs) : ys = zs := by
  refine eq_of_perm_of_ties (hS.mono fun x hx => hy.perm.mem_iff.mp hx)
    (hy.perm.trans hz.perm.symm) hy.sorted hz.sorted fun x hx => ?_
  have hx' := hy.perm.mem_iff.mp hx
  rw [hy.stable x hx', hz.stable x hx']

theorem refl (h : xs.Pairwise fun x y => precedes cmp x y) : StableSort cmp xs xs :=
  ⟨List.Perm.refl xs, h, fun _ _ => rfl⟩

/-- Agreement with the list holds for the class of any entry that the comparator knows. -/
theorem stable_of_totalOn {S : Set α} (hS : TotalOn cmp S) (h : StableSort cmp xs ys)
    (hxs : ∀ x ∈ xs, x ∈ S) {z : α} (hz : z ∈ S) :
    ys.filter (ties cmp z) = xs.filter (ties cmp z) := by
  by_cases hex : ∃ x ∈ xs, ties cmp z x = true
  · -- the class of `z` is the class of an entry of the list
    obtain ⟨x, hx, htie⟩ := hex
    have hclass : ∀ y ∈ xs, ties cmp z y = ties cmp x y :=
      fun y hy => hS.ties_congr hz (hxs x hx) (hxs y hy) htie
    rw [List.filter_congr hclass, ← h.stable x hx]
    exact List.filter_congr fun y hy => hclass y (h.perm.mem_iff.mp hy)
  · -- the class of `z` is empty on both sides
    have hnone : xs.filter (ties cmp z) = [] :=
      List.filter_eq_nil_iff.mpr fun y hy htie => hex ⟨y, hy, htie⟩
    have hnone' : ys.filter (ties cmp z) = [] :=
      List.filter_eq_nil_iff.mpr fun y hy htie => hex ⟨y, h.perm.mem_iff.mp hy, htie⟩
    rw [hnone, hnone']

/-- **Sorting twice is sorting once**: what arrives after a sort is sorted together with the
unsorted list. -/
theorem append (hS : TotalOn cmp {x | x ∈ xs ++ es}) (h : StableSort cmp xs ys)
    (h' : StableSort cmp (ys ++ es) zs) : StableSort cmp (xs ++ es) zs := by
  refine ⟨h'.perm.trans (h.perm.append_right es), h'.sorted, fun x hx => ?_⟩
  have hx' : x ∈ ys ++ es := (h.perm.append_right es).mem_iff.mpr hx
  -- the second sort keeps the classes of `ys ++ es`, the first those of `xs`
  rw [h'.stable x hx', List.filter_append, List.filter_append,
    h.stable_of_totalOn hS (fun y hy => List.mem_append_left es hy) hx]

/-- Dropping entries before sorting or after it is the same. -/
theorem filter (h : StableSort cmp xs ys) (p : α → Bool) :
    StableSort cmp (xs.filter p) (ys.filter p) := by
  refine ⟨h.perm.filter p, h.sorted.filter p, fun x hx => ?_⟩
  have hx' := (List.mem_filter.mp hx).1
  rw [List.filter_filter, List.filter_filter]
  simp only [Bool.and_comm (ties cmp x _)]
  rw [← List.filter_filter, ← List.filter_filter, h.stable x hx']

/-- Entries that are level with each other stay as the list shows them. -/
theorem filter_eq (h : StableSort cmp xs ys) {q : α → Bool}
    (hq : ∀ x ∈ xs, ∀ y ∈ xs, q x → q y → ties cmp x y) : ys.filter q = xs.filter q := by
  by_cases hex : ∃ x ∈ xs, q x
  · -- they lie in the class of any one of them
    obtain ⟨x, hx, hqx⟩ := hex
    have hclass : ∀ l : List α, (∀ y ∈ l, y ∈ xs) →
        l.filter q = (l.filter (ties cmp x)).filter q := by
      intro l hl
      rw [List.filter_filter]
      refine List.filter_congr fun y hy => ?_
      cases hqy : q y with
      | false => rfl
      | true => rw [hq x hx y (hl y hy) hqx hqy, Bool.and_true]
    rw [hclass ys fun y hy => h.perm.mem_iff.mp hy, hclass xs fun y hy => hy, h.stable x hx]
  · have hnone : ∀ x ∈ xs, ¬ q x := fun x hx hqx => hex ⟨x, hx, hqx⟩
    rw [List.filter_eq_nil_iff.mpr hnone,
      List.filter_eq_nil_iff.mpr fun y hy => hnone y (h.perm.mem_iff.mp hy)]

/-- Sorting commutes with a function through which the comparator reads. -/
theorem map {cmp : β → β → Except ε Int} {f : α → β}
    (h : StableSort (fun x y => cmp (f x) (f y)) xs ys) : StableSort cmp (xs.map f) (ys.map f) := by
  refine ⟨h.perm.map f, List.pairwise_map.mpr h.sorted, fun z hz => ?_⟩
  obtain ⟨x, hx, rfl⟩ := List.mem_map.mp hz
  rw [List.filter_map, List.filter_map]
  exact congrArg (List.map f) (h.stable x hx)

/-- The stable sort depends only on the classes of level entries. -/
theorem congr_list (hperm : xs.Perm xs')
    (hties : ∀ x ∈ xs, xs.filter (ties cmp x) = xs'.filter (ties cmp x))
    (h : StableSort cmp xs ys) : StableSort cmp xs' ys := by
  refine ⟨h.perm.trans hperm, h.sorted, fun x hx => ?_⟩
  have hx' := hperm.mem_iff.mpr hx
  rw [h.stable x hx', hties x hx']

/-- The stable sort depends only on how the comparator arranges the entries. -/
theorem congr_cmp (hprec : ∀ x ∈ xs, ∀ y ∈ xs, precedes cmp x y = precedes cmp' x y)
    (hties : ∀ x ∈ xs, ∀ y ∈ xs, ties cmp x y = ties cmp' x y)
    (h : StableSort cmp xs ys) : StableSort cmp' xs ys := by
  refine ⟨h.perm, ?_, fun x hx => ?_⟩
  · refine h.sorted.imp_of_mem fun {x y} hx hy hxy => ?_
    rw [← hprec x (h.perm.mem_iff.mp hx) y (h.perm.mem_iff.mp hy)]
    exact hxy
  · have hys : ∀ y ∈ ys, ties cmp' x y = ties cmp x y :=
      fun y hy => (hties x hx y (h.perm.mem_iff.mp hy)).symm
    rw [List.filter_congr hys, h.stable x hx]
    exact List.filter_congr fun y hy => hties x hx y hy

/-- The head of the stable sort precedes every entry, and is the first of its class. -/
theorem head_least (hS : TotalOn cmp {x | x ∈ xs}) (h : StableSort cmp xs ys) {y : α}
    (hy : ys.head? = some y) :
    y ∈ xs ∧ (∀ x ∈ xs, precedes cmp y x) ∧ xs.find? (ties cmp y) = some y := by
  obtain ⟨rest, rfl⟩ := List.head?_eq_some_iff.mp hy
  have hmem : y ∈ xs := h.perm.mem_iff.mp (by simp)
  have hself : ties cmp y y := hS.ties_refl hmem
  refine ⟨hmem, fun x hx => ?_, ?_⟩
  · rcases List.mem_cons.mp (h.perm.mem_iff.mpr hx) with rfl | hx
    · exact precedes_of_ties hself
    · exact (List.pairwise_cons.mp h.sorted).1 x hx
  · rw [← List.head?_filter, ← h.stable y hmem, List.filter_cons_of_pos hself]
    rfl

/-- The head of the stable sort is the first of the least entries. -/
theorem head?_eq_find? (hS : TotalOn cmp {x | x ∈ xs}) (h : StableSort cmp xs ys) :
    ys.head? = xs.find? fun x => xs.all (precedes cmp x) := by
  cases hhead : ys.head? with
  | none =>
    have hys : ys = [] := List.head?_eq_none_iff.mp hhead
    have hxs : xs = [] := (hys ▸ h.perm).nil_eq.symm
    rw [hxs]
    rfl
  | some y =>
    obtain ⟨hmem, hleast, hfirst⟩ := h.head_least hS hhead
    -- the least entries are those level with the head
    have hsame : ∀ x ∈ xs, xs.all (precedes cmp x) = ties cmp y x := by
      intro x hx
      rw [Bool.eq_iff_iff, List.all_eq_true, hS.ties_iff hmem hx]
      constructor
      · intro hall
        exact ⟨hleast x hx, hall y hmem⟩
      · intro htie z hz
        exact hS.trans x hx y hmem z hz htie.2 (hleast z hz)
    rw [← List.head?_filter, List.filter_congr hsame, List.head?_filter, hfirst]

end StableSort

end Sorting

end NameIndex
