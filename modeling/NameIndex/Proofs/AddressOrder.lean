import NameIndex.Proofs.Comparison

/-!
# The order of addresses

Addresses are in lexicographic order: the segments decide first, then the indices, then the
ordinals. This holds for every order of segments that is a total preorder as far as it is asked. It
is asked about different segments only, so its laws are laws about different segments
(`Order.ArrangesOn`), it may find different segments level, and it may answer with any magnitude;
where it decides, its own number is the answer.

What is known of a comparator that may fail is told here by its answers (`Sorting.Preorders`), with
the share of each answer in what follows from two of them: two answers that nothing comes later give
a third, and that one is zero only if both are.

## Architecture

1. A total preorder, by its answers.
2. A comparator refined by a word: when it is negative, when it is zero.
3. The laws of an order on different segments are those of a total preorder on all.
4. The two comparisons of addresses, and what they rank by.

## Main definitions

* `Sorting.Preorders` — the comparator is a total preorder on a set, told by its answers.
* `Order.ArrangesOn` — the laws of an order, on different segments.

## Main results

* `Order.arrangesOn_iff_totalOn` — what the order says about a segment and itself does not matter.
* `Order.addresses_lexicographic` — the order of addresses.
-/

namespace NameIndex

open Sorting

/-! ## §1 Total preorders by their answers -/

namespace Sorting

variable {ε α : Type} {cmp : α → α → Except ε Int} {S : Set α} {x y z : α} {c d e : Int}

/-- On `S` the comparator is a total preorder: it answers, everything is level with itself, swapped
arguments turn the sign of the answer around, and what follows from two answers is level only if
both of them are. -/
structure Preorders (cmp : α → α → Except ε Int) (S : Set α) : Prop where
  answers : ∀ x ∈ S, ∀ y ∈ S, ∃ c, cmp x y = .ok c
  level_self : ∀ x ∈ S, cmp x x = .ok 0
  antisymm : ∀ x ∈ S, ∀ y ∈ S, ∀ c d, cmp x y = .ok c → cmp y x = .ok d → d.sign = -c.sign
  trans : ∀ x ∈ S, ∀ y ∈ S, ∀ z ∈ S, ∀ c d e,
    cmp x y = .ok c → cmp y z = .ok d → cmp x z = .ok e → c ≤ 0 → d ≤ 0 →
      e ≤ 0 ∧ (e = 0 ↔ c = 0 ∧ d = 0)

theorem precedes_iff_of_ok (hc : cmp x y = .ok c) : precedes cmp x y ↔ c ≤ 0 := by
  simp [precedes, hc]

namespace TotalOn

theorem trans_answer (h : TotalOn cmp S) (hx : x ∈ S) (hy : y ∈ S) (hz : z ∈ S)
    (hc : cmp x y = .ok c) (hd : cmp y z = .ok d) (he : cmp x z = .ok e) (hc0 : c ≤ 0)
    (hd0 : d ≤ 0) : e ≤ 0 := by
  rw [← precedes_iff_of_ok hc] at hc0
  rw [← precedes_iff_of_ok hd] at hd0
  exact (precedes_iff_of_ok he).mp (h.trans x hx y hy z hz hc0 hd0)

/-- The answer the other way round. -/
theorem exists_swap (h : TotalOn cmp S) (hx : x ∈ S) (hy : y ∈ S) (hc : cmp x y = .ok c) :
    ∃ c', cmp y x = .ok c' ∧ (c' ≤ 0 ↔ 0 ≤ c) := by
  obtain ⟨c', hc'⟩ := h.answers y hy x hx
  have hsign := h.antisymm x hx y hy c c' hc hc'
  refine ⟨c', hc', ?_⟩
  rw [← Int.sign_nonpos_iff, hsign, ← Int.sign_nonneg_iff]
  omega

/-- A total preorder in which everything is level with itself, told by its answers. -/
theorem preorders (h : TotalOn cmp S) (hself : ∀ x ∈ S, cmp x x = .ok 0) : Preorders cmp S where
  answers := h.answers
  level_self := hself
  antisymm := h.antisymm
  trans x hx y hy z hz c d e hc hd he hc0 hd0 := by
    have he0 : e ≤ 0 := h.trans_answer hx hy hz hc hd he hc0 hd0
    obtain ⟨c', hc', hcc'⟩ := h.exists_swap hx hy hc
    obtain ⟨d', hd', hdd'⟩ := h.exists_swap hy hz hd
    obtain ⟨e', he', hee'⟩ := h.exists_swap hx hz he
    refine ⟨he0, ?_, ?_⟩
    · -- back from `z` to `x`, each of the two steps is undone through the other
      intro hlevel
      have he'0 : e' ≤ 0 := hee'.mpr (by omega)
      have hc'0 : c' ≤ 0 := h.trans_answer hy hz hx hd he' hc' hd0 he'0
      have hd'0 : d' ≤ 0 := h.trans_answer hz hx hy he' hc hd' he'0 hc0
      omega
    · rintro ⟨rfl, rfl⟩
      have he'0 : e' ≤ 0 :=
        h.trans_answer hz hy hx hd' hc' he' (hdd'.mpr (by omega)) (hcc'.mpr (by omega))
      omega

end TotalOn

end Sorting

/-! ## §2 Answers of a refined comparator -/

section ThenBy

variable {ε α : Type} {first : α → α → Except ε Int} {key : α → Int32} {x y : α} {c d : Int}

theorem signOfCompare_lt_zero (a b : Int32) : signOfCompare a b < 0 ↔ a < b := by
  unfold signOfCompare
  split_ifs with hlt heq
  · simp [hlt]
  · simp [hlt]
  · simp [hlt]

/-- **What a refined comparator answers**: the first comparator's own number if that decides, and
otherwise how the words compare. -/
theorem thenBy_answer (hc : thenBy first key x y = .ok c) (hd : first x y = .ok d) :
    (c < 0 ↔ d < 0 ∨ d = 0 ∧ key x < key y) ∧ (c = 0 ↔ d = 0 ∧ key x = key y) ∧
      (d ≠ 0 → c = d) := by
  obtain ⟨d', hd', rfl⟩ := thenBy_eq_ok_iff.mp hc
  obtain rfl : d = d' := Except.ok.inj (hd.symm.trans hd')
  by_cases hlevel : d = 0
  · simp [hlevel, signOfCompare_lt_zero, signOfCompare_eq_zero]
  · simp [hlevel]

theorem thenBy_self (hself : first x x = .ok 0) : thenBy first key x x = .ok 0 := by
  have hlevel : signOfCompare (key x) (key x) = 0 := (signOfCompare_eq_zero _ _).mpr rfl
  apply thenBy_eq_ok_iff.mpr
  exact ⟨0, hself, by simp [hlevel]⟩

end ThenBy

/-! ## §3 Laws on different segments -/

namespace Order

variable {o o' : Order} {ids : Set SegmentId}

/-- The order is a total preorder on the segments as far as it is asked: it compares any two
different ones, answers the other way round with the other sign, and is transitive. -/
structure ArrangesOn (o : Order) (ids : Set SegmentId) : Prop where
  answers : ∀ a ∈ ids, ∀ b ∈ ids, a ≠ b → ∃ n, o.compare a b = .ok n
  antisymm : ∀ a ∈ ids, ∀ b ∈ ids, a ≠ b → ∀ m n,
    o.compare a b = .ok m → o.compare b a = .ok n → n.sign = -m.sign
  trans : ∀ a ∈ ids, ∀ b ∈ ids, ∀ c ∈ ids, a ≠ b → b ≠ c → a ≠ c → ∀ l m n,
    o.compare a b = .ok l → o.compare b c = .ok m → o.compare a c = .ok n →
      l ≤ 0 → m ≤ 0 → n ≤ 0

theorem compareDistinct_self (o : Order) (a : SegmentId) : o.compareDistinct a a = .ok 0 :=
  if_pos rfl

theorem compareDistinct_of_ne {a b : SegmentId} (hne : a ≠ b) :
    o.compareDistinct a b = o.compare a b :=
  if_neg hne

theorem ArrangesOn.mono {ids' : Set SegmentId} (h : o.ArrangesOn ids') (hsub : ids ⊆ ids') :
    o.ArrangesOn ids where
  answers a ha b hb := h.answers a (hsub ha) b (hsub hb)
  antisymm a ha b hb := h.antisymm a (hsub ha) b (hsub hb)
  trans a ha b hb c hc := h.trans a (hsub ha) b (hsub hb) c (hsub hc)

theorem ArrangesOn.totalOn (h : o.ArrangesOn ids) : o.TotalOn ids where
  answers a ha b hb := by
    by_cases hab : a = b
    · exact ⟨0, hab ▸ o.compareDistinct_self a⟩
    · rw [compareDistinct_of_ne hab]
      exact h.answers a ha b hb hab
  antisymm a ha b hb m n hm hn := by
    by_cases hab : a = b
    · subst hab
      rw [compareDistinct_self, Except.ok.injEq] at hm hn
      rw [← hm, ← hn]
      rfl
    · rw [compareDistinct_of_ne hab] at hm
      rw [compareDistinct_of_ne (Ne.symm hab)] at hn
      exact h.antisymm a ha b hb hab m n hm hn
  trans a ha b hb c hc hab hbc := by
    -- two of the three segments may be one, and then one of the two answers is the third
    rcases eq_or_ne a b with rfl | hne
    · exact hbc
    rcases eq_or_ne b c with rfl | hne'
    · exact hab
    rcases eq_or_ne a c with rfl | hne''
    · exact (precedes_iff_of_ok (o.compareDistinct_self a)).mpr le_rfl
    obtain ⟨l, hl⟩ := h.answers a ha b hb hne
    obtain ⟨m, hm⟩ := h.answers b hb c hc hne'
    obtain ⟨n, hn⟩ := h.answers a ha c hc hne''
    have hl0 : l ≤ 0 := (precedes_iff_of_ok ((compareDistinct_of_ne hne).trans hl)).mp hab
    have hm0 : m ≤ 0 := (precedes_iff_of_ok ((compareDistinct_of_ne hne').trans hm)).mp hbc
    apply (precedes_iff_of_ok ((compareDistinct_of_ne hne'').trans hn)).mpr
    exact h.trans a ha b hb c hc hne hne' hne'' l m n hl hm hn hl0 hm0

/-- **Nothing depends on what an order says about a segment and itself.** -/
theorem arrangesOn_iff_totalOn : o.ArrangesOn ids ↔ o.TotalOn ids := by
  refine ⟨ArrangesOn.totalOn, fun h => ?_⟩
  constructor
  · intro a ha b hb hab
    rw [← compareDistinct_of_ne hab]
    exact h.answers a ha b hb
  · intro a ha b hb hab m n hm hn
    rw [← compareDistinct_of_ne hab] at hm
    rw [← compareDistinct_of_ne (Ne.symm hab)] at hn
    exact h.antisymm a ha b hb m n hm hn
  · intro a ha b hb c hc hab hbc hac l m n hl hm hn hl0 hm0
    rw [← compareDistinct_of_ne hab] at hl
    rw [← compareDistinct_of_ne hbc] at hm
    rw [← compareDistinct_of_ne hac] at hn
    exact Sorting.TotalOn.trans_answer h ha hb hc hl hm hn hl0 hm0

end Order

/-! ## §4 The two comparisons -/

namespace StatementAddress

variable {o o' : Order} {ids : Set SegmentId} {a b : StatementAddress} {n c : Int}

theorem compare_self (o : Order) (a : StatementAddress) : compare o a a = .ok 0 := by
  rw [compare_eq_thenBy]
  exact thenBy_self (o.compareDistinct_self a.segment)

theorem preorders (h : o.ArrangesOn ids) : Preorders (compare o) {a | a.segment ∈ ids} :=
  (totalOn h.totalOn).preorders fun a _ => compare_self o a

/-- By segment, then by index. -/
theorem compare_answer (hn : o.compareDistinct a.segment b.segment = .ok n)
    (hc : compare o a b = .ok c) :
    (c < 0 ↔ n < 0 ∨ n = 0 ∧ a.index < b.index) ∧ (c = 0 ↔ n = 0 ∧ a.index = b.index) ∧
      (n ≠ 0 → c = n) := by
  rw [compare_eq_thenBy] at hc
  exact thenBy_answer hc hn

theorem compare_congr
    (h : o'.compareDistinct a.segment b.segment = o.compareDistinct a.segment b.segment) :
    compare o' a b = compare o a b := by
  rw [compare_eq_thenBy, compare_eq_thenBy, thenBy, thenBy, h]

theorem compare_eq_zero_iff (h : o.StrictOn ids) (ha : a.segment ∈ ids) (hb : b.segment ∈ ids) :
    compare o a b = .ok 0 ↔ a = b := by
  constructor
  · intro hzero
    apply eq_of_ties h ha hb
    simp [ties, hzero]
  · rintro rfl
    exact compare_self o a

end StatementAddress

namespace TokenAddress

variable {o o' : Order} {ids : Set SegmentId} {a b : TokenAddress} {n c : Int}

theorem compare_self (o : Order) (a : TokenAddress) : compare o a a = .ok 0 := by
  rw [compare_eq_thenBy]
  exact thenBy_self (StatementAddress.compare_self o a.statement)

theorem preorders (h : o.ArrangesOn ids) : Preorders (compare o) {a | a.statement.segment ∈ ids} :=
  (totalOn h.totalOn).preorders fun a _ => compare_self o a

/-- By segment, then by index, then by ordinal. -/
theorem compare_answer
    (hn : o.compareDistinct a.statement.segment b.statement.segment = .ok n)
    (hc : compare o a b = .ok c) :
    (c < 0 ↔ n < 0 ∨ n = 0 ∧ (a.statement.index < b.statement.index ∨
        a.statement.index = b.statement.index ∧ a.ordinal < b.ordinal)) ∧
      (c = 0 ↔ n = 0 ∧ a.statement.index = b.statement.index ∧ a.ordinal = b.ordinal) ∧
      (n ≠ 0 → c = n) := by
  -- the statements decide in the middle, with the number `d`
  obtain ⟨d, hd⟩ := StatementAddress.exists_compare_iff.mpr ⟨n, hn⟩
  obtain ⟨hneg, hzero, hown⟩ := StatementAddress.compare_answer hn hd
  rw [compare_eq_thenBy] at hc
  obtain ⟨hneg', hzero', hown'⟩ := thenBy_answer hc hd
  refine ⟨?_, ?_, ?_⟩
  · rw [hneg', hneg, hzero, and_assoc, or_assoc, ← and_or_left]
  · rw [hzero', hzero, and_assoc]
  · intro hdecided
    rw [← hown hdecided]
    apply hown'
    rwa [hown hdecided]

theorem compare_congr
    (h : o'.compareDistinct a.statement.segment b.statement.segment =
      o.compareDistinct a.statement.segment b.statement.segment) :
    compare o' a b = compare o a b := by
  unfold compare
  rw [StatementAddress.compare_congr h]

theorem compare_eq_zero_iff (h : o.StrictOn ids) (ha : a.statement.segment ∈ ids)
    (hb : b.statement.segment ∈ ids) : compare o a b = .ok 0 ↔ a = b := by
  constructor
  · intro hzero
    apply eq_of_ties h ha hb
    simp [ties, hzero]
  · rintro rfl
    exact compare_self o a

end TokenAddress

namespace Order

/-- **Addresses are in lexicographic order.** Let the order be a total preorder on some segments, as
far as it is asked. Then comparing statements, and comparing tokens, is a total preorder on all
addresses in these segments. It ranks by segment, then by index, then by ordinal, and where the
segments decide it answers with the order's own number. What the order says about a segment and
itself is never asked for: an order that agrees on different segments compares all these addresses
alike. If no two different segments are level, only equal addresses are. -/
theorem addresses_lexicographic (o : Order) (ids : Set SegmentId) (h : o.ArrangesOn ids) :
    (Preorders (StatementAddress.compare o) {a | a.segment ∈ ids} ∧
      Preorders (TokenAddress.compare o) {a | a.statement.segment ∈ ids}) ∧
    (∀ (a b : StatementAddress) (n c : Int), o.compareDistinct a.segment b.segment = .ok n →
      StatementAddress.compare o a b = .ok c →
        (c < 0 ↔ n < 0 ∨ n = 0 ∧ a.index < b.index) ∧ (c = 0 ↔ n = 0 ∧ a.index = b.index) ∧
        (n ≠ 0 → c = n)) ∧
    (∀ (a b : TokenAddress) (n c : Int),
      o.compareDistinct a.statement.segment b.statement.segment = .ok n →
      TokenAddress.compare o a b = .ok c →
        (c < 0 ↔ n < 0 ∨ n = 0 ∧ (a.statement.index < b.statement.index ∨
          a.statement.index = b.statement.index ∧ a.ordinal < b.ordinal)) ∧
        (c = 0 ↔ n = 0 ∧ a.statement.index = b.statement.index ∧ a.ordinal = b.ordinal) ∧
        (n ≠ 0 → c = n)) ∧
    (∀ o' : Order, (∀ a ∈ ids, ∀ b ∈ ids, a ≠ b → o'.compare a b = o.compare a b) →
      (∀ a b : StatementAddress, a.segment ∈ ids → b.segment ∈ ids →
        StatementAddress.compare o' a b = StatementAddress.compare o a b) ∧
      ∀ a b : TokenAddress, a.statement.segment ∈ ids → b.statement.segment ∈ ids →
        TokenAddress.compare o' a b = TokenAddress.compare o a b) ∧
    ((∀ a ∈ ids, ∀ b ∈ ids, a ≠ b → o.compare a b ≠ .ok 0) →
      (∀ a b : StatementAddress, a.segment ∈ ids → b.segment ∈ ids →
        (StatementAddress.compare o a b = .ok 0 ↔ a = b)) ∧
      ∀ a b : TokenAddress, a.statement.segment ∈ ids → b.statement.segment ∈ ids →
        (TokenAddress.compare o a b = .ok 0 ↔ a = b)) := by
  refine ⟨⟨StatementAddress.preorders h, TokenAddress.preorders h⟩, ?statements, ?tokens, ?agreeing,
    ?strict⟩
  case statements =>
    intro a b n c hn hc
    exact StatementAddress.compare_answer hn hc
  case tokens =>
    intro a b n c hn hc
    exact TokenAddress.compare_answer hn hc
  case agreeing =>
    intro o' hagree
    have hdistinct : ∀ a ∈ ids, ∀ b ∈ ids, o'.compareDistinct a b = o.compareDistinct a b := by
      intro a ha b hb
      by_cases hab : a = b
      · rw [hab, compareDistinct_self, compareDistinct_self]
      · rw [compareDistinct_of_ne hab, compareDistinct_of_ne hab, hagree a ha b hb hab]
    exact ⟨fun a b ha hb => StatementAddress.compare_congr (hdistinct _ ha _ hb),
      fun a b ha hb => TokenAddress.compare_congr (hdistinct _ ha _ hb)⟩
  case strict =>
    intro hseparates
    have hstrict : o.StrictOn ids := ⟨h.totalOn, hseparates⟩
    exact ⟨fun a b ha hb => StatementAddress.compare_eq_zero_iff hstrict ha hb,
      fun a b ha hb => TokenAddress.compare_eq_zero_iff hstrict ha hb⟩

/-- Ranks segments by their tens, in steps of seven, so that 10 and 11 are level; about a segment and
itself it says that the first comes later. -/
def Sample.byTens : Order :=
  .compared "tens" fun a b =>
    if a = b then 9 else 7 * ((a.toNat / 10 : Nat) - (b.toNat / 10 : Nat) : Int)

theorem Sample.compare_byTens {a b : SegmentId} (hne : a ≠ b) :
    Sample.byTens.compare a b = .ok (7 * ((a.toNat / 10 : Nat) - (b.toNat / 10 : Nat) : Int)) :=
  congrArg Except.ok (if_neg hne)

theorem Sample.arrangesOn_byTens : Sample.byTens.ArrangesOn Set.univ where
  answers a _ b _ hne := ⟨_, Sample.compare_byTens hne⟩
  antisymm a _ b _ hne m n hm hn := by
    rw [Sample.compare_byTens hne, Except.ok.injEq] at hm
    rw [Sample.compare_byTens (Ne.symm hne), Except.ok.injEq] at hn
    rw [← Int.sign_neg, ← hm, ← hn]
    congr 1
    omega
  trans a _ b _ c _ hab hbc hac l m n hl hm hn hl0 hm0 := by
    rw [Sample.compare_byTens hab, Except.ok.injEq] at hl
    rw [Sample.compare_byTens hbc, Except.ok.injEq] at hm
    rw [Sample.compare_byTens hac, Except.ok.injEq] at hn
    omega

/-- Segments 10 and 11 are level, so the ordinal decides between the two tokens; between 10 and 20 the
answer is the order's own; and on 10 and 20 alone only equal tokens are level. -/
theorem addresses_lexicographic_byTens :
    Sample.byTens.ArrangesOn Set.univ ∧
    (∃ c, TokenAddress.compare Sample.byTens (.of 11 5 0) (.of 10 5 1) = .ok c ∧ c < 0) ∧
    TokenAddress.compare Sample.byTens (.of 10 5 1) (.of 20 0 0) = .ok (-7) ∧
    ∀ a b : TokenAddress, a.statement.segment ∈ ({10, 20} : Set SegmentId) →
      b.statement.segment ∈ ({10, 20} : Set SegmentId) →
        (TokenAddress.compare Sample.byTens a b = .ok 0 ↔ a = b) := by
  obtain ⟨⟨-, hpreorders⟩, -, htokens, -, -⟩ :=
    addresses_lexicographic Sample.byTens Set.univ Sample.arrangesOn_byTens
  refine ⟨Sample.arrangesOn_byTens, ?level, ?own, ?strict⟩
  case level =>
    obtain ⟨c, hc⟩ := hpreorders.answers (.of 11 5 0) trivial (.of 10 5 1) trivial
    obtain ⟨hneg, -, -⟩ := htokens (.of 11 5 0) (.of 10 5 1) 0 c rfl hc
    exact ⟨c, hc, hneg.mpr (by decide)⟩
  case own =>
    obtain ⟨c, hc⟩ := hpreorders.answers (.of 10 5 1) trivial (.of 20 0 0) trivial
    obtain ⟨-, -, hown⟩ := htokens (.of 10 5 1) (.of 20 0 0) (-7) c rfl hc
    rw [hc, hown (by decide)]
  case strict =>
    have harranges : Sample.byTens.ArrangesOn {10, 20} :=
      Sample.arrangesOn_byTens.mono (Set.subset_univ _)
    obtain ⟨-, -, -, -, hstrict⟩ := addresses_lexicographic Sample.byTens {10, 20} harranges
    apply (hstrict ?_).2
    rintro a (rfl | rfl) b (rfl | rfl) hne
    · exact absurd rfl hne
    · decide
    · decide
    · exact absurd rfl hne

end Order

end NameIndex
