/-!
# Double precision numbers

A finite double precision number is an integer multiple of 2^-1074 whose leading 53 bits say all:
the number of such units and a sign determine it. So decimals are rounded, and numbers added and
multiplied, by exact arithmetic on integers followed by one rounding to 53 bits.

## Main definitions

* `Binary64.nearest?` — the nearest number to a quotient, ties to the even neighbour.
* `Binary64.ofDecimal?` — the nearest number to a decimal.
* `Binary64.shortest` — the fewest decimal digits that are nearest to no other number.
-/

namespace NameIndex

/-- A finite double precision number. -/
structure Binary64 where
  /-- The sign, which zero has too. -/
  negative : Bool
  /-- The distance from zero in units of 2^-1074. -/
  units : Nat
  deriving Repr, DecidableEq

namespace Binary64

/-! ## §1 Rounding -/

/-- One as a number of units. -/
def one : Nat := 1 <<< 1074

/-- The first number of units that is too large. -/
def bound : Nat := 1 <<< 2098

/-- One followed by `k` decimal zeros. -/
def tenTo (k : Nat) : Nat := Nat.pow 10 k

/-- The integer nearest to a quotient, the even one of two. -/
def roundDiv (num den : Nat) : Nat :=
  let q := num / den
  let r := num % den
  if 2 * r < den then q
  else if den < 2 * r then q + 1
  else if q % 2 = 0 then q else q + 1

/-- The number of binary digits. -/
def bitLength (n : Nat) : Nat := if n = 0 then 0 else n.log2 + 1

/-- The exponent of the last of the 53 bits of a number of units. -/
def shift (units : Nat) : Nat := bitLength units - 53

/-- The units of the number nearest to `num / den` units; none if that is too large. -/
def nearest? (num den : Nat) : Option Nat :=
  let k := shift (num / den)
  let units := roundDiv num (den <<< k) <<< k
  if units < bound then some units else none

/-- The number nearest to `coefficient * 10 ^ exponent`; none if that is too large. Decimals far
beyond either end of the range are not computed. -/
def ofDecimal? (negative : Bool) (coefficient : Nat) (exponent : Int) : Option Binary64 :=
  let size : Int := (Nat.toDigits 10 coefficient).length + exponent
  if coefficient = 0 || size < -400 then some ⟨negative, 0⟩
  else if 400 < size then none
  else
    let units? :=
      if 0 ≤ exponent then nearest? (coefficient * tenTo exponent.toNat * one) 1
      else nearest? (coefficient * one) (tenTo (-exponent).toNat)
    units?.map (⟨negative, ·⟩)

/-! ## §2 Values -/

/-- The signed number of units. -/
def value (x : Binary64) : Int := if x.negative then -(x.units : Int) else x.units

/-- The number of a signed quotient of units; none if it is too large. -/
def ofQuotient? (num : Int) (den : Nat) : Option Binary64 :=
  (nearest? num.natAbs den).map (⟨num < 0, ·⟩)

/-- The nearest number to an integer. -/
def ofInt? (n : Int) : Option Binary64 := ofQuotient? (n * one) 1

/-- The integer part: the number cut toward zero. -/
def truncate (x : Binary64) : Int :=
  if x.negative then -((x.units / one : Nat) : Int) else (x.units / one : Nat)

/-- The greatest integer that is not above the number. -/
def floor (x : Binary64) : Int := x.value / (one : Int)

/-- The number with the other sign. -/
def neg (x : Binary64) : Binary64 := { x with negative := !x.negative }

/-- Either zero. -/
def isZero (x : Binary64) : Bool := x.units == 0

/-! ## §3 Shortest decimals -/

/-- Decimal digits with the exponent of the first one: `d.ddd * 10 ^ exponent`. -/
structure Decimal where
  digits : List Char
  exponent : Int
  deriving Repr, DecidableEq

/-- The decimal exponent of the leading digit of a number of units above zero. -/
def leading (units : Nat) : Int :=
  ((Nat.toDigits 10 (units * tenTo 400 / one)).length : Int) - 401

/-- Decides whether `n * 10 ^ p`, compared exactly, is nearest to no other number than `units`:
it lies between the midpoints to the neighbours, which count when the last bit is even. -/
def isNearest (units n : Nat) (p : Int) : Bool :=
  let k := shift units
  let m := units >>> k
  -- quarters of the last place, so that the lower midpoint of a power of two is an integer
  let low := 4 * units - (if m = 1 <<< 52 ∧ 0 < k then 1 <<< k else 2 <<< k)
  let high := 4 * units + (2 <<< k)
  let (num, den) :=
    if 0 ≤ p then (4 * n * tenTo p.toNat * one, 1) else (4 * n * one, tenTo (-p).toNat)
  if m % 2 = 0 then low * den ≤ num && num ≤ high * den
  else low * den < num && num < high * den

/-- The integer part of `units / 10 ^ p`, both in ones, and twice the remainder against the
divisor: whether the next integer is nearer. -/
def gridBelow (units : Nat) (p : Int) : Nat × Bool :=
  let (num, den) :=
    if 0 ≤ p then (units, tenTo p.toNat * one) else (units * tenTo (-p).toNat, one)
  (num / den, den < 2 * (num % den))

/-- Looks for digits with `count` places, then with more, for at most `tries` counts. -/
def search (units : Nat) (lead : Int) (count : Nat) : Nat → Nat × Int
  | 0 => (0, 0)
  | tries + 1 =>
    let p := lead - count + 1
    let (below, upper) := gridBelow units p
    let (first, second) := if upper then (below + 1, below) else (below, below + 1)
    if isNearest units first p then (first, p)
    else if isNearest units second p then (second, p)
    else search units lead (count + 1) tries

/-- Digits without trailing zeros. -/
def trimZeros (digits : List Char) : List Char :=
  (digits.reverse.dropWhile (· = '0')).reverse

/-- The fewest digits that are nearest to the number, closest digits first. -/
def shortest (x : Binary64) : Decimal :=
  if x.units = 0 then ⟨['0'], 0⟩
  else
    let (n, p) := search x.units (leading x.units) 1 17
    let digits := Nat.toDigits 10 n
    ⟨trimZeros digits, p + digits.length - 1⟩

end Binary64

end NameIndex
