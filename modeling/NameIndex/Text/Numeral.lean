/-!
# Decimal numerals

Numbers as digits. Writing is `Nat.repr` and `Int.repr`; this module reads, and keeps numbers
inside the words that hold them.
-/

namespace NameIndex.Text.Numeral

/-- The value of a decimal digit. -/
def digit? (c : Char) : Option Nat :=
  if '0' ≤ c ∧ c ≤ '9' then some (c.toNat - '0'.toNat) else none

/-- The number that the digits write in a base, which must all be digits below the base. -/
def inBase? (base : Nat) (digit : Char → Option Nat) (digits : List Char) : Option Nat :=
  digits.foldlM
    (fun n c => do
      let d ← digit c
      if d < base then some (base * n + d) else none)
    0

/-- The number written by one or more decimal digits. -/
def nat? (text : List Char) : Option Nat :=
  if text.isEmpty then none else inBase? 10 digit? text

/-- The number written by decimal digits after at most one sign. -/
def int? : List Char → Option Int
  | '-' :: digits => (nat? digits).map fun n => -(n : Int)
  | '+' :: digits => (nat? digits).map fun n => (n : Int)
  | digits => (nat? digits).map fun n => (n : Int)

/-- The number as an unsigned 32-bit word, if it fits. -/
def word32? (n : Int) : Option UInt32 :=
  if 0 ≤ n ∧ n < 4294967296 then some (UInt32.ofNat n.toNat) else none

/-- The number as a signed 32-bit word, if it fits. -/
def int32? (n : Int) : Option Int32 :=
  if -2147483648 ≤ n ∧ n ≤ 2147483647 then some (Int32.ofInt n) else none

/-- The number fits a signed word of 64 bits. -/
def fitsInt64 (n : Int) : Bool := -9223372036854775808 ≤ n && n ≤ 9223372036854775807

end NameIndex.Text.Numeral
