import Mathlib.Algebra.Order.Ring.Nat
import Mathlib.Data.Char

/-!
# The order of texts is the order of their bytes

Texts are compared character by character, and files are listed byte by byte. In UTF-8 the two are
the same. A character is written with a first byte and up to three more, which hold six bits each. A
higher code with as many bytes is higher in the first byte in which the two differ, and a code that
takes more bytes has a higher first byte. So whatever follows two different characters, their bytes
decide (`Text.utf8EncodeChar_append_lt`).

## Main result

* `Text.lt_iff_bytes_lt` — a text comes before another one iff its bytes do.
-/

namespace NameIndex.Text

/-- The bytes of a text. -/
def bytes (text : String) : List UInt8 := text.toUTF8.data.toList

theorem bytes_eq_flatMap (text : String) :
    bytes text = text.toList.flatMap String.utf8EncodeChar := by
  unfold bytes
  rw [String.toUTF8_eq_toByteArray, ← String.utf8Encode_toList, List.utf8Encode]
  simp

/-! ## §1 The bytes of one character -/

/-- The number of bytes after the first one that a code takes. -/
def tails (n : Nat) : Nat :=
  if n < 0x80 then 0 else if n < 0x800 then 1 else if n < 0x10000 then 2 else 3

/-- The number that the first byte counts from when so many others follow. -/
def lead : Nat → Nat
  | 0 => 0
  | 1 => 0xC0
  | 2 => 0xE0
  | _ => 0xF0

/-- The bytes of a code, with `k` bytes of six bits after the first one. -/
def codeBytes (lead : Nat) : Nat → Nat → List UInt8
  | 0, n => [UInt8.ofNat (n + lead)]
  | k + 1, n => codeBytes lead k (n / 64) ++ [UInt8.ofNat (n % 64 + 128)]

/-- The first byte of a code. -/
def firstByte (n : Nat) : Nat := n / 64 ^ tails n + lead (tails n)

theorem toNat_lt (c : Char) : c.toNat < 0x110000 := by
  rcases c.valid with h | ⟨-, h⟩
  · exact lt_trans h (by decide)
  · exact h

theorem utf8EncodeChar_eq_codeBytes (c : Char) :
    String.utf8EncodeChar c = codeBytes (lead (tails c.toNat)) (tails c.toNat) c.toNat := by
  have hcode := toNat_lt c
  unfold String.utf8EncodeChar
  simp only [show c.val.toNat = c.toNat from rfl, ← Nat.lt_succ_iff]
  generalize c.toNat = n at hcode ⊢
  unfold tails
  -- the first byte has what the six bits of the others leave over, which is short enough
  split_ifs with hone htwo hthree
  · rfl
  · rw [Nat.mod_eq_of_lt (by omega : n / 64 < 32)]
    rfl
  · rw [show n / 4096 = n / 64 / 64 by omega, Nat.mod_eq_of_lt (by omega : n / 64 / 64 < 16)]
    rfl
  · rw [show n / 4096 = n / 64 / 64 by omega, show n / 262144 = n / 64 / 64 / 64 by omega,
      Nat.mod_eq_of_lt (by omega : n / 64 / 64 / 64 < 8)]
    rfl

theorem ofNat_lt_ofNat {a b : Nat} (h : a < b) (hb : b < 256) : UInt8.ofNat a < UInt8.ofNat b := by
  rw [UInt8.lt_iff_toNat_lt, UInt8.toNat_ofNat', UInt8.toNat_ofNat']
  omega

/-- Codes with as many bytes: the last byte counts when the others are the same. -/
theorem codeBytes_append_lt {lead k n m : Nat} (h : n < m) (hm : m / 64 ^ k + lead < 256)
    (x y : List UInt8) : codeBytes lead k n ++ x < codeBytes lead k m ++ y := by
  induction k generalizing n m x y with
  | zero =>
    rw [pow_zero, Nat.div_one] at hm
    exact List.cons_lt_cons_iff.mpr (.inl (ofNat_lt_ofNat (by omega) hm))
  | succ k ih =>
    rw [codeBytes, codeBytes, List.append_assoc, List.append_assoc]
    rcases Nat.lt_or_eq_of_le (Nat.div_le_div_right h.le : n / 64 ≤ m / 64) with hlt | heq
    · exact ih hlt (by rwa [Nat.div_div_eq_div_mul, ← pow_succ']) _ _
    · rw [heq]
      exact List.append_left_lt
        (List.cons_lt_cons_iff.mpr (.inl (ofNat_lt_ofNat (by omega) (by omega))))

theorem exists_codeBytes (lead k n : Nat) :
    ∃ rest, codeBytes lead k n = UInt8.ofNat (n / 64 ^ k + lead) :: rest := by
  induction k generalizing n with
  | zero => exact ⟨[], by simp [codeBytes]⟩
  | succ k ih =>
    obtain ⟨rest, hrest⟩ := ih (n / 64)
    rw [Nat.div_div_eq_div_mul, ← pow_succ'] at hrest
    exact ⟨rest ++ [UInt8.ofNat (n % 64 + 128)], by rw [codeBytes, hrest]; rfl⟩

theorem firstByte_lt {n : Nat} (h : n < 0x110000) : firstByte n < 256 := by
  unfold firstByte tails
  split_ifs <;> simp [lead] <;> omega

/-- Of two codes the higher one has a higher first byte, unless they take as many bytes. -/
theorem tails_eq_or_firstByte_lt {n m : Nat} (h : n < m) (hm : m < 0x110000) :
    tails n = tails m ∨ firstByte n < firstByte m := by
  unfold firstByte tails
  split_ifs <;> simp [lead] <;> omega

/-- **Different characters decide**, whatever follows them. -/
theorem utf8EncodeChar_append_lt {c d : Char} (h : c < d) (x y : List UInt8) :
    String.utf8EncodeChar c ++ x < String.utf8EncodeChar d ++ y := by
  have hcode : c.toNat < d.toNat := h
  have hbyte := firstByte_lt (toNat_lt d)
  rw [utf8EncodeChar_eq_codeBytes, utf8EncodeChar_eq_codeBytes]
  rcases tails_eq_or_firstByte_lt hcode (toNat_lt d) with htails | hfirst
  · rw [htails]
    exact codeBytes_append_lt hcode hbyte x y
  · obtain ⟨rest, hc⟩ := exists_codeBytes (lead (tails c.toNat)) (tails c.toNat) c.toNat
    obtain ⟨rest', hd⟩ := exists_codeBytes (lead (tails d.toNat)) (tails d.toNat) d.toNat
    rw [hc, hd]
    exact List.cons_lt_cons_iff.mpr (.inl (ofNat_lt_ofNat hfirst hbyte))

/-! ## §2 Texts -/

theorem append_lt_append_left_iff (front x y : List UInt8) : front ++ x < front ++ y ↔ x < y := by
  induction front with
  | nil => rfl
  | cons b front ih => simp [ih]

theorem flatMap_utf8EncodeChar_lt_iff (l m : List Char) :
    l.flatMap String.utf8EncodeChar < m.flatMap String.utf8EncodeChar ↔ l < m := by
  induction l generalizing m with
  | nil =>
    cases m with
    | nil => simp
    | cons d m =>
      obtain ⟨rest, hd⟩ := exists_codeBytes (lead (tails d.toNat)) (tails d.toNat) d.toNat
      simp [utf8EncodeChar_eq_codeBytes d, hd]
  | cons c l ih =>
    cases m with
    | nil => simp
    | cons d m =>
      rw [List.flatMap_cons, List.flatMap_cons, List.cons_lt_cons_iff]
      rcases lt_trichotomy c d with hlt | rfl | hgt
      · exact iff_of_true (utf8EncodeChar_append_lt hlt _ _) (.inl hlt)
      · rw [append_lt_append_left_iff, ih]
        simp
      · apply iff_of_false
        · exact List.lt_asymm (utf8EncodeChar_append_lt hgt _ _)
        · rintro (hlt | ⟨rfl, -⟩)
          · exact lt_asymm hlt hgt
          · exact lt_irrefl _ hgt

/-- **The order of texts is the order of their bytes.** -/
theorem lt_iff_bytes_lt {a b : String} : a < b ↔ bytes a < bytes b := by
  rw [bytes_eq_flatMap, bytes_eq_flatMap, flatMap_utf8EncodeChar_lt_iff, String.lt_iff]

end NameIndex.Text
