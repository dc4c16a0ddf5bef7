import NameIndex.Proofs.OrderEdits
import NameIndex.Segment.Address

/-!
# Comparing addresses

Addresses are compared by segment, then by index, then by ordinal. The order of the segments is a
parameter of the comparison and may be any function at all, so what is known about it is a
hypothesis: `Order.TotalOn` for a total preorder on some segments, `Order.StrictOn` when no two
different ones are level. Either passes to addresses, because a comparison refined by a word stays
a total preorder (`Sorting.TotalOn.thenBy`).

An order is never asked about a segment and itself, so the hypotheses do not speak about the answer
it would give.

## Main definitions

* `Order.TotalOn`, `Order.StrictOn` — what an order is on a set of segments.
* `Order.AnswersOn`, `Order.Relates` — which segments an order, or a list, can compare.
* `Order.RanksAlike` — two orders arrange some segments in the same way.
-/

namespace NameIndex

open Sorting

/-! ## §1 Refining a comparator by a word -/

section ThenBy

variable {ε α : Type}

/-- Compares by `first`, and where that is level by the word `key`. -/
def thenBy (first : α → α → Except ε Int) (key : α → Int32) (x y : α) : Except ε Int := do
  let c ← first x y
  return if c = 0 then signOfCompare (key x) (key y) else c

theorem signOfCompare_le_zero (a b : Int32) : signOfCompare a b ≤ 0 ↔ a.toInt ≤ b.toInt := by
  simp only [signOfCompare, Int32.lt_iff_toInt_lt, ← Int32.toInt_inj]
  split_ifs <;> omega

theorem signOfCompare_eq_zero (a b : Int32) : signOfCompare a b = 0 ↔ a = b := by
  simp only [signOfCompare, Int32.lt_iff_toInt_lt, ← Int32.toInt_inj]
  split_ifs with hlt heq
  · simpa using hlt.ne
  · simp [heq]
  · simp [heq]

theorem signOfCompare_swap (a b : Int32) : signOfCompare b a = -signOfCompare a b := by
  simp only [signOfCompare, Int32.lt_iff_toInt_lt, ← Int32.toInt_inj]
  split_ifs <;> omega

variable {first : α → α → Except ε Int} {key : α → Int32} {S : Set α}

theorem thenBy_eq_ok_iff {x y : α} {c : Int} :
    thenBy first key x y = .ok c ↔
      ∃ d, first x y = .ok d ∧ c = if d = 0 then signOfCompare (key x) (key y) else d := by
  unfold thenBy
  rw [bind_eq_ok_iff]
  simp only [pure, Except.pure, Except.ok.injEq, eq_comm]

theorem exists_thenBy_iff {x y : α} :
    (∃ c, thenBy first key x y = .ok c) ↔ ∃ d, first x y = .ok d := by
  simp only [thenBy_eq_ok_iff]
  constructor
  · rintro ⟨-, d, hd, -⟩
    exact ⟨d, hd⟩
  · rintro ⟨d, hd⟩
    exact ⟨_, d, hd, rfl⟩

theorem precedes_thenBy (x y : α) :
    precedes (thenBy first key) x y =
      (precedes first x y && (!ties first x y || (key x).toInt ≤ (key y).toInt)) := by
  unfold precedes ties thenBy
  cases first x y with
  | error e => rfl
  | ok d =>
    simp only [bind, Except.bind, pure, Except.pure]
    by_cases hd : d = 0
    · simp [hd, signOfCompare_le_zero]
    · simp [hd]

theorem ties_thenBy (x y : α) :
    ties (thenBy first key) x y = (ties first x y && key x = key y) := by
  unfold ties thenBy
  cases first x y with
  | error e => rfl
  | ok d =>
    simp only [bind, Except.bind, pure, Except.pure]
    by_cases hd : d = 0
    · simp [hd, signOfCompare_eq_zero]
    · simp [hd]

/-- **Refining keeps a total preorder**: level entries are told apart by words, which are totally
ordered. -/
theorem Sorting.TotalOn.thenBy (h : TotalOn first S) (key : α → Int32) :
    TotalOn (thenBy first key) S where
  answers x hx y hy := by
    obtain ⟨d, hd⟩ := h.answers x hx y hy
    exact ⟨_, thenBy_eq_ok_iff.mpr ⟨d, hd, rfl⟩⟩
  antisymm x hx y hy c d hc hd := by
    -- `first` decides in both directions or in neither
    obtain ⟨c₁, hc₁, rfl⟩ := thenBy_eq_ok_iff.mp hc
    obtain ⟨d₁, hd₁, rfl⟩ := thenBy_eq_ok_iff.mp hd
    have hsign := h.antisymm x hx y hy c₁ d₁ hc₁ hd₁
    have hzero : d₁ = 0 ↔ c₁ = 0 := by
      rw [← Int.sign_eq_zero_iff_zero, hsign, Int.neg_eq_zero, Int.sign_eq_zero_iff_zero]
    by_cases hc0 : c₁ = 0
    · rw [if_pos hc0, if_pos (hzero.mpr hc0), signOfCompare_swap, Int.sign_neg]
    · rw [if_neg hc0, if_neg (hzero.not.mpr hc0), hsign]
  trans x hx y hy z hz hxy hyz := by
    rw [precedes_thenBy] at hxy hyz ⊢
    simp only [Bool.and_eq_true, Bool.or_eq_true, Bool.not_eq_true', decide_eq_true_eq]
      at hxy hyz ⊢
    have hxz := h.trans x hx y hy z hz hxy.1 hyz.1
    refine ⟨hxz, ?_⟩
    -- level ends make the middle level with both
    by_cases htie : ties first x z = true
    · right
      have hzx := ((h.ties_iff hx hz).mp htie).2
      have hyx := h.trans y hy z hz x hx hyz.1 hzx
      have hzy := h.trans z hz x hx y hy hzx hxy.1
      have htxy := (h.ties_iff hx hy).mpr ⟨hxy.1, hyx⟩
      have htyz := (h.ties_iff hy hz).mpr ⟨hyz.1, hzy⟩
      have hkxy : (key x).toInt ≤ (key y).toInt := by simpa [htxy] using hxy.2
      have hkyz : (key y).toInt ≤ (key z).toInt := by simpa [htyz] using hyz.2
      exact hkxy.trans hkyz
    · left
      simpa using htie

end ThenBy

/-! ## §2 Orders of segments -/

namespace Order

/-- Compares two segments; the order is asked about different ones only. -/
def compareDistinct (o : Order) (a b : SegmentId) : Except Fault Int :=
  if a = b then .ok 0 else o.compare a b

/-- The order is a total preorder on the segments. -/
def TotalOn (o : Order) (ids : Set SegmentId) : Prop :=
  Sorting.TotalOn o.compareDistinct ids

/-- The order can compare any two of the segments. -/
def AnswersOn (o : Order) (ids : Set SegmentId) : Prop :=
  ∀ a ∈ ids, ∀ b ∈ ids, ∃ n, o.compareDistinct a b = .ok n

/-- The order is a strict total order on the segments: different ones are never level. -/
structure StrictOn (o : Order) (ids : Set SegmentId) : Prop where
  total : o.TotalOn ids
  separates : ∀ a ∈ ids, ∀ b ∈ ids, a ≠ b → o.compare a b ≠ .ok 0

/-- The two orders rank every two of the segments in the same way. -/
def RanksAlike (o o' : Order) (ids : Set SegmentId) : Prop :=
  ∀ a ∈ ids, ∀ b ∈ ids, a ≠ b → ∀ c d, o.compare a b = .ok c → o'.compare a b = .ok d →
    c.sign = d.sign

theorem TotalOn.answersOn {o : Order} {ids : Set SegmentId} (h : o.TotalOn ids) : o.AnswersOn ids :=
  h.answers

theorem StrictOn.mono {o : Order} {ids ids' : Set SegmentId} (h : o.StrictOn ids')
    (hsub : ids ⊆ ids') : o.StrictOn ids where
  total := h.total.mono hsub
  separates a ha b hb := h.separates a (hsub ha) b (hsub hb)

theorem strictOn_empty (o : Order) : o.StrictOn ∅ where
  total := ⟨fun _ ha => ha.elim, fun _ ha => ha.elim, fun _ ha => ha.elim⟩
  separates _ ha := ha.elim

theorem StrictOn.eq_of_ties {o : Order} {ids : Set SegmentId} (h : o.StrictOn ids)
    {a b : SegmentId} (ha : a ∈ ids) (hb : b ∈ ids) (htie : ties o.compareDistinct a b) :
    a = b := by
  by_contra hne
  obtain ⟨c, hc⟩ := h.total.answers a ha b hb
  simp only [ties, hc, decide_eq_true_eq] at htie
  rw [htie, compareDistinct, if_neg hne] at hc
  exact h.separates a ha b hb hne hc

theorem RanksAlike.sign_eq {o o' : Order} {ids : Set SegmentId} (h : o.RanksAlike o' ids)
    {a b : SegmentId} (ha : a ∈ ids) (hb : b ∈ ids) {c d : Int}
    (hc : o.compareDistinct a b = .ok c) (hd : o'.compareDistinct a b = .ok d) :
    c.sign = d.sign := by
  unfold compareDistinct at hc hd
  split at hc
  · -- a segment is level with itself under either order
    next hab =>
    simp only [hab, if_true, Except.ok.injEq] at hc hd
    rw [← hc, ← hd]
  · next hab =>
    rw [if_neg hab] at hd
    exact h a ha b hb hab c d hc hd

/-- Segments on which two total preorders rank alike have the same precedence and the same
ties. -/
theorem RanksAlike.precedes_ties {o o' : Order} {ids : Set SegmentId} (h : o.RanksAlike o' ids)
    (ho : o.TotalOn ids) (ho' : o'.TotalOn ids) {a b : SegmentId} (ha : a ∈ ids) (hb : b ∈ ids) :
    precedes o.compareDistinct a b = precedes o'.compareDistinct a b ∧
      ties o.compareDistinct a b = ties o'.compareDistinct a b := by
  obtain ⟨c, hc⟩ := ho.answers a ha b hb
  obtain ⟨d, hd⟩ := ho'.answers a ha b hb
  have hsign := h.sign_eq ha hb hc hd
  have hle : c ≤ 0 ↔ d ≤ 0 := by
    rw [← Int.sign_nonpos_iff, hsign, Int.sign_nonpos_iff]
  have hzero : c = 0 ↔ d = 0 := by
    rw [← Int.sign_eq_zero_iff_zero, hsign, Int.sign_eq_zero_iff_zero]
  simp [precedes, ties, hc, hd, hle, hzero]

/-- A list can compare two segments exactly if it has both. -/
theorem exists_compare_listed_iff {list : ListOrder} {a b : SegmentId} :
    (∃ n, (listed list).compare a b = .ok n) ↔ a ∈ list.ids ∧ b ∈ list.ids := by
  constructor
  · rintro ⟨n, hn⟩
    have hn : list.compare a b = .ok n := hn
    by_cases ha : a ∈ list.ids
    · by_cases hb : b ∈ list.ids
      · exact ⟨ha, hb⟩
      · simp [ListOrder.compare_of_not_mem_right ha hb] at hn
    · simp [ListOrder.compare_of_not_mem ha] at hn
  · rintro ⟨ha, hb⟩
    exact ⟨_, ListOrder.compare_of_mem ha hb⟩

/-- The list knows how the two segments stand: they are one segment, or it has both. -/
def Relates (list : ListOrder) (a b : SegmentId) : Prop :=
  a = b ∨ a ∈ list.ids ∧ b ∈ list.ids

theorem exists_compareDistinct_listed_iff {list : ListOrder} {a b : SegmentId} :
    (∃ n, (listed list).compareDistinct a b = .ok n) ↔ Relates list a b := by
  unfold compareDistinct Relates
  split
  · next hab => exact iff_of_true ⟨0, rfl⟩ (Or.inl hab)
  · next hab => rw [exists_compare_listed_iff, or_iff_right hab]

theorem equivalence_relates (list : ListOrder) : Equivalence (Relates list) where
  refl a := Or.inl rfl
  symm := by
    rintro a b (rfl | ⟨ha, hb⟩)
    · exact Or.inl rfl
    · exact Or.inr ⟨hb, ha⟩
  trans := by
    rintro a b c (rfl | ⟨ha, hb⟩) (rfl | ⟨hb', hc⟩)
    · exact Or.inl rfl
    · exact Or.inr ⟨hb', hc⟩
    · exact Or.inr ⟨ha, hb⟩
    · exact Or.inr ⟨ha, hc⟩

/-- **A listed order is strict** on the segments it lists, because it lists none twice. -/
theorem strictOn_listed (list : ListOrder) : (listed list).StrictOn {id | id ∈ list.ids} where
  total := by
    apply list.totalOn_compare.congr
    intro a ha b hb
    unfold compareDistinct
    split
    · -- the list finds a segment level with itself, as the order that is not asked does
      next hab =>
      subst hab
      rw [ListOrder.compare_of_mem ha ha, Int.sub_self, Int.sign_zero]
    · rfl
  separates a ha b hb hne hzero := hne (ListOrder.separates ha hb hzero)

end Order

/-! ## §3 Addresses -/

namespace StatementAddress

theorem compare_eq_thenBy (o : Order) :
    compare o = thenBy (fun a b => o.compareDistinct a.segment b.segment) index := by
  funext a b
  unfold compare thenBy Order.compareDistinct
  by_cases hseg : a.segment = b.segment <;> simp [hseg]

/-- Two statements can be compared when their segments can. -/
theorem exists_compare_iff {o : Order} {a b : StatementAddress} :
    (∃ n, compare o a b = .ok n) ↔ ∃ n, o.compareDistinct a.segment b.segment = .ok n := by
  rw [compare_eq_thenBy, exists_thenBy_iff]

theorem totalOn {o : Order} {ids : Set SegmentId} (h : o.TotalOn ids) :
    Sorting.TotalOn (compare o) {a | a.segment ∈ ids} := by
  rw [compare_eq_thenBy]
  exact (Sorting.TotalOn.comap h segment).thenBy index

/-- Under a strict order only equal addresses are level. -/
theorem eq_of_ties {o : Order} {ids : Set SegmentId} (h : o.StrictOn ids) {a b : StatementAddress}
    (ha : a.segment ∈ ids) (hb : b.segment ∈ ids) (htie : ties (compare o) a b) : a = b := by
  rw [compare_eq_thenBy, ties_thenBy, Bool.and_eq_true, decide_eq_true_eq] at htie
  have hseg := h.eq_of_ties ha hb htie.1
  cases a
  cases b
  simp_all

/-- Orders that rank the segments alike arrange the statements alike. -/
theorem precedes_ties_congr {o o' : Order} {ids : Set SegmentId} (h : o.RanksAlike o' ids)
    (ho : o.TotalOn ids) (ho' : o'.TotalOn ids) {a b : StatementAddress}
    (ha : a.segment ∈ ids) (hb : b.segment ∈ ids) :
    precedes (compare o) a b = precedes (compare o') a b ∧
      ties (compare o) a b = ties (compare o') a b := by
  obtain ⟨hprec, hties⟩ := h.precedes_ties ho ho' ha hb
  rw [compare_eq_thenBy, compare_eq_thenBy, precedes_thenBy, precedes_thenBy, ties_thenBy,
    ties_thenBy]
  change (precedes o.compareDistinct a.segment b.segment &&
      (!ties o.compareDistinct a.segment b.segment || _)) = _ ∧
    (ties o.compareDistinct a.segment b.segment && _) = _
  rw [hprec, hties]
  exact ⟨rfl, rfl⟩

end StatementAddress

namespace TokenAddress

theorem compare_eq_thenBy (o : Order) :
    compare o = thenBy (fun a b => StatementAddress.compare o a.statement b.statement) ordinal :=
  rfl

theorem exists_compare_iff {o : Order} {a b : TokenAddress} :
    (∃ n, compare o a b = .ok n) ↔
      ∃ n, o.compareDistinct a.statement.segment b.statement.segment = .ok n := by
  rw [compare_eq_thenBy, exists_thenBy_iff]
  exact StatementAddress.exists_compare_iff

theorem totalOn {o : Order} {ids : Set SegmentId} (h : o.TotalOn ids) :
    Sorting.TotalOn (compare o) {a | a.statement.segment ∈ ids} :=
  ((StatementAddress.totalOn h).comap statement).thenBy ordinal

/-- Under a strict order only equal addresses are level. -/
theorem eq_of_ties {o : Order} {ids : Set SegmentId} (h : o.StrictOn ids) {a b : TokenAddress}
    (ha : a.statement.segment ∈ ids) (hb : b.statement.segment ∈ ids)
    (htie : ties (compare o) a b) : a = b := by
  rw [compare_eq_thenBy, ties_thenBy, Bool.and_eq_true, decide_eq_true_eq] at htie
  have hstatement := StatementAddress.eq_of_ties h ha hb htie.1
  cases a
  cases b
  simp_all

/-- Orders that rank the segments alike arrange the tokens alike. -/
theorem precedes_ties_congr {o o' : Order} {ids : Set SegmentId} (h : o.RanksAlike o' ids)
    (ho : o.TotalOn ids) (ho' : o'.TotalOn ids) {a b : TokenAddress}
    (ha : a.statement.segment ∈ ids) (hb : b.statement.segment ∈ ids) :
    precedes (compare o) a b = precedes (compare o') a b ∧
      ties (compare o) a b = ties (compare o') a b := by
  obtain ⟨hprec, hties⟩ := StatementAddress.precedes_ties_congr h ho ho' ha hb
  rw [compare_eq_thenBy, compare_eq_thenBy, precedes_thenBy, precedes_thenBy, ties_thenBy,
    ties_thenBy]
  change (precedes (StatementAddress.compare o) a.statement b.statement &&
      (!ties (StatementAddress.compare o) a.statement b.statement || _)) = _ ∧
    (ties (StatementAddress.compare o) a.statement b.statement && _) = _
  rw [hprec, hties]
  exact ⟨rfl, rfl⟩

end TokenAddress

end NameIndex
