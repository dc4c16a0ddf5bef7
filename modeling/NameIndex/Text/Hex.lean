/-!
# Hexadecimal digits

Numbers written with a fixed count of hexadecimal digits, most significant first, and read back.
Both letter cases occur in the formats of this library: quoted text and JSON write lower case,
YAML writes upper case, and every reader takes both.
-/

namespace NameIndex.Text.Hex

/-! ## §1 Writing -/

/-- The digit of a number below sixteen, letters in lower case. -/
def lowerDigit (d : Nat) : Char :=
  if d < 10 then Char.ofNat ('0'.toNat + d) else Char.ofNat ('a'.toNat + (d - 10))

/-- The digit of a number below sixteen, letters in upper case. -/
def upperDigit (d : Nat) : Char :=
  if d < 10 then Char.ofNat ('0'.toNat + d) else Char.ofNat ('A'.toNat + (d - 10))

/-- The last `width` digits of `n`, most significant first. -/
def fixed (digit : Nat → Char) : Nat → Nat → List Char
  | 0, _ => []
  | width + 1, n => fixed digit width (n / 16) ++ [digit (n % 16)]

/-! ## §2 Reading -/

/-- The value of a digit in either letter case. -/
def digit? (c : Char) : Option Nat :=
  if '0' ≤ c ∧ c ≤ '9' then some (c.toNat - '0'.toNat)
  else if 'a' ≤ c ∧ c ≤ 'f' then some (c.toNat - 'a'.toNat + 10)
  else if 'A' ≤ c ∧ c ≤ 'F' then some (c.toNat - 'A'.toNat + 10)
  else none

/-- The number written by `digits`, which must all be hexadecimal digits. -/
def number? (digits : List Char) : Option Nat :=
  digits.foldlM (fun n c => (digit? c).map (16 * n + ·)) 0

/-- The number written by the first `width` characters, and the text after them. -/
def take? (width : Nat) (text : List Char) : Option (Nat × List Char) :=
  if text.length < width then none
  else (number? (text.take width)).map fun n => (n, text.drop width)

/-- The character with the given code point; none for surrogates and for numbers beyond the last
code point. -/
def char? (n : Nat) : Option Char :=
  if n.isValidChar then some (Char.ofNat n) else none

end NameIndex.Text.Hex
