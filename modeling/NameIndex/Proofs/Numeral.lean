import Mathlib.Data.Nat.Digits.Defs
import NameIndex.Text.Hex
import NameIndex.Text.Numeral

/-!
# Numerals read back

What is written for a number is read as that number: decimal numerals by every reader of decimal
digits in this library, and a fixed count of hexadecimal digits, in either letter case, for numbers
that fit the count.

## Main results

* `Numeral.nat?_repr`, `Numeral.int?_repr` — decimal numerals.
* `Hex.number?_fixed` — hexadecimal digits of a fixed count.
-/

namespace NameIndex.Text

/-! ## §1 Decimal digits -/

namespace Numeral

theorem isDigit_iff {c : Char} : c.isDigit = true ↔ '0' ≤ c ∧ c ≤ '9' := by
  simp only [Char.isDigit, Bool.and_eq_true, decide_eq_true_eq, ge_iff_le]
  rfl

theorem digit?_of_isDigit {c : Char} (h : c.isDigit = true) :
    digit? c = some (c.toNat - '0'.toNat) :=
  if_pos (isDigit_iff.mp h)

/-- A reader of digits that knows the decimal ones reads them as they count. -/
theorem inBase?_of_isDigit {digit : Char → Option Nat} {ds : List Char}
    (hdigit : ∀ c, c.isDigit = true → digit c = some (c.toNat - '0'.toNat))
    (hds : ∀ c ∈ ds, c.isDigit = true) :
    inBase? 10 digit ds = some (Nat.ofDigitChars 10 ds 0) := by
  -- the digits read so far are a parameter of the fold
  have hfold : ∀ n, ds.foldlM (fun n c => do
      let d ← digit c
      if d < 10 then some (10 * n + d) else none) n = some (Nat.ofDigitChars 10 ds n) := by
    induction ds with
    | nil => simp [Nat.ofDigitChars_nil]
    | cons c ds ih =>
      intro n
      obtain ⟨hc, hrest⟩ := List.forall_mem_cons.mp hds
      have hlt : c.toNat - '0'.toNat < 10 := by
        have hle : c.toNat ≤ '9'.toNat := (isDigit_iff.mp hc).2
        have hnine : '9'.toNat = 57 := rfl
        have hzero : '0'.toNat = 48 := rfl
        omega
      rw [List.foldlM_cons, hdigit c hc, Nat.ofDigitChars_cons]
      show (if c.toNat - '0'.toNat < 10 then some _ else none) >>= _ = _
      rw [if_pos hlt]
      exact ih hrest _
  exact hfold 0

/-- The digits of a number: decimal, at least one, and no zero in front of others. -/
structure IsDigits (ds : List Char) : Prop where
  nonempty : ds ≠ []
  digits : ∀ c ∈ ds, c.isDigit = true
  lead : ∀ rest, ds = '0' :: rest → rest = []

theorem isDigits_toDigits (n : Nat) : IsDigits (Nat.toDigits 10 n) := by
  refine ⟨Nat.toDigits_ne_nil, fun c hc => ?_, ?_⟩
  · exact Nat.isDigit_of_mem_toDigits (by decide) (by decide) hc
  -- the first digit is that of a number with fewer digits
  induction n using Nat.strongRecOn with
  | ind n ih =>
    intro rest hrest
    rw [Nat.toDigits_eq_if (by decide)] at hrest
    split at hrest
    · simp only [List.cons.injEq] at hrest
      exact hrest.2.symm
    · next hlarge =>
      cases hfront : Nat.toDigits 10 (n / 10) with
      | nil => exact absurd hfront Nat.toDigits_ne_nil
      | cons c front =>
        rw [hfront, List.cons_append, List.cons.injEq] at hrest
        obtain ⟨rfl, -⟩ := hrest
        have hnil := ih (n / 10) (by omega) front hfront
        have hvalue := Nat.ofDigitChars_ten_toDigits (n := n / 10)
        rw [hfront, hnil] at hvalue
        have hzero : n / 10 = 0 := hvalue.symm
        omega

theorem toList_repr (n : Nat) : n.repr.toList = Nat.toDigits 10 n := by
  rw [Nat.repr_eq_ofList_toDigits, String.toList_ofList]

theorem toList_repr_int (n : Int) :
    n.repr.toList = if 0 ≤ n then Nat.toDigits 10 n.toNat else '-' :: Nat.toDigits 10 (-n).toNat := by
  rw [Int.repr_eq_if]
  split
  · exact toList_repr _
  · rw [String.toList_append, toList_repr]
    rfl

/-- The numeral of an integer: digits, after a minus or not. -/
theorem exists_isDigits_repr (n : Int) :
    ∃ ds, IsDigits ds ∧ (n.repr.toList = ds ∨ n.repr.toList = '-' :: ds) := by
  rw [toList_repr_int]
  split
  · exact ⟨_, isDigits_toDigits _, .inl rfl⟩
  · exact ⟨_, isDigits_toDigits _, .inr rfl⟩

theorem IsDigits.not_sign {ds : List Char} (h : IsDigits ds) (rest : List Char) :
    ds ≠ '-' :: rest ∧ ds ≠ '+' :: rest := by
  constructor
  · rintro rfl
    exact absurd (h.digits '-' List.mem_cons_self) (by decide)
  · rintro rfl
    exact absurd (h.digits '+' List.mem_cons_self) (by decide)

theorem nat?_toDigits (n : Nat) : nat? (Nat.toDigits 10 n) = some n := by
  have hds := isDigits_toDigits n
  rw [nat?, if_neg (by simp),
    inBase?_of_isDigit (fun _ => digit?_of_isDigit) hds.digits, Nat.ofDigitChars_ten_toDigits]

theorem nat?_repr (n : Nat) : nat? n.repr.toList = some n := by
  rw [toList_repr, nat?_toDigits]

theorem int?_repr (n : Int) : int? n.repr.toList = some n := by
  rw [toList_repr_int]
  split
  · next hn =>
    have hsign := (isDigits_toDigits n.toNat).not_sign
    unfold int?
    split
    · next rest heq => exact absurd heq (hsign rest).1
    · next rest heq => exact absurd heq (hsign rest).2
    · simp [nat?_toDigits, Int.toNat_of_nonneg hn]
  · next hn =>
    have hneg : 0 ≤ -n := by omega
    simp [int?, nat?_toDigits, Int.toNat_of_nonneg hneg]

/-! ## §2 Words -/

theorem word32?_toNat (n : UInt32) : word32? (n.toNat : Int) = some n := by
  have hlt := n.toNat_lt
  rw [word32?, if_pos (by omega)]
  simp

theorem int32?_toInt (n : Int32) : int32? n.toInt = some n := by
  have hlow := n.minValue_le_toInt
  have hhigh := n.toInt_le
  rw [int32?, if_pos ?_, Int32.ofInt_toInt]
  constructor
  · exact hlow
  · exact hhigh

theorem fitsInt64_of_bounds {n : Int} (hlow : -2147483648 ≤ n) (hhigh : n < 4294967296) :
    fitsInt64 n = true := by
  simp only [fitsInt64, Bool.and_eq_true, decide_eq_true_eq]
  omega

end Numeral

/-! ## §3 Hexadecimal digits -/

namespace Hex

theorem digit?_lowerDigit : ∀ d < 16, digit? (lowerDigit d) = some d := by decide

theorem digit?_upperDigit : ∀ d < 16, digit? (upperDigit d) = some d := by decide

theorem length_fixed (digit : Nat → Char) (width n : Nat) : (fixed digit width n).length = width := by
  induction width generalizing n with
  | zero => rfl
  | succ width ih => simp [fixed, ih]

/-- **Fixed counts of digits** write every number that fits them, whatever letters the digits are. -/
theorem number?_fixed {digit : Nat → Char} (hdigit : ∀ d < 16, digit? (digit d) = some d)
    (width n : Nat) (hn : n < 16 ^ width) : number? (fixed digit width n) = some n := by
  unfold number?
  induction width generalizing n with
  | zero =>
    have hzero : n = 0 := by omega
    simp [fixed, hzero]
  | succ width ih =>
    -- all digits but the last write the quotient
    have hquotient : n / 16 < 16 ^ width := Nat.div_lt_of_lt_mul (by rwa [← Nat.pow_succ'])
    rw [fixed, List.foldlM_append, ih (n / 16) hquotient]
    simp [hdigit (n % 16) (Nat.mod_lt _ (by decide)), Nat.div_add_mod]

theorem take?_fixed {digit : Nat → Char} (hdigit : ∀ d < 16, digit? (digit d) = some d)
    (width n : Nat) (hn : n < 16 ^ width) (rest : List Char) :
    take? width (fixed digit width n ++ rest) = some (n, rest) := by
  have hlength := length_fixed digit width n
  rw [take?, if_neg (by simp [hlength]), List.take_left' hlength, List.drop_left' hlength,
    number?_fixed hdigit width n hn]
  rfl

theorem char?_toNat (c : Char) : char? c.toNat = some c := by
  have hvalid : c.toNat.isValidChar := c.valid
  rw [char?, if_pos hvalid, Char.ofNat_toNat]

end Hex

end NameIndex.Text
