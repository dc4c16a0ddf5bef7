import NameIndex.Number.Binary64
import NameIndex.Text.Hex
import NameIndex.Yaml.Timestamp

/-!
# What plain scalars mean

A plain scalar can mean more than its text: nothing, a truth value, a number, a timestamp. The
words for these are fixed; numbers may have underscores between their digits. A number that no
double precision number comes near to is only text.
-/

namespace NameIndex.Yaml

open NameIndex.Text

/-- What a plain scalar means. -/
inductive Meaning where
  | null
  | bool
  | int (n : Int)
  | float (x : Binary64)
  /-- An infinity, or no number at all. -/
  | unbounded
  | timestamp
  | text
  deriving Repr, DecidableEq

namespace Scalar

/-! ## §1 Words -/

/-- The words with a meaning. -/
def word? : String → Option Meaning
  | "" | "~" | "null" | "Null" | "NULL" => some .null
  | "true" | "True" | "TRUE" | "false" | "False" | "FALSE" => some .bool
  | ".nan" | ".NaN" | ".NAN" | ".inf" | ".Inf" | ".INF" | "+.inf" | "+.Inf" | "+.INF"
  | "-.inf" | "-.Inf" | "-.INF" => some .unbounded
  | _ => none

/-- The words that once were truth values, and that some readers still take for such. -/
def isOldBool (text : String) : Bool :=
  text ∈ ["y", "Y", "yes", "Yes", "YES", "on", "On", "ON",
    "n", "N", "no", "No", "NO", "off", "Off", "OFF"]

/-! ## §2 Integers -/

/-- The digits of a number in a base; at least one. -/
def digits? (base : Nat) (digits : List Char) : Option Nat :=
  if digits.isEmpty then none else Numeral.inBase? base Hex.digit? digits

/-- A number without sign: the base is given by what it starts with. -/
def natural? : List Char → Option Nat
  | '0' :: 'x' :: rest | '0' :: 'X' :: rest => digits? 16 rest
  | '0' :: 'o' :: rest | '0' :: 'O' :: rest => digits? 8 rest
  | '0' :: 'b' :: rest | '0' :: 'B' :: rest => digits? 2 rest
  | '0' :: d :: rest => digits? 8 (d :: rest)
  | text => digits? 10 text

/-- A number with at most one sign, inside 64 bits. -/
def signed? (natural? : List Char → Option Nat) (text : List Char) : Option Int := do
  let (n : Int) ← match text with
    | '-' :: rest => (natural? rest).map fun n => -(n : Int)
    | '+' :: rest => (natural? rest).map fun n => (n : Int)
    | _ => (natural? text).map fun n => (n : Int)
  if Text.Numeral.fitsInt64 n then some n else none

/-- An unsigned number inside 64 bits. -/
def unsigned? (text : List Char) : Option Int := do
  let n ← natural? text
  if n < UInt64.size then some n else none

/-- An integer whose sign follows the mark of its base. -/
def marked? : List Char → Option Int
  | '0' :: 'b' :: rest => signed? (digits? 2) rest
  | '0' :: 'o' :: rest => signed? (digits? 8) rest
  | _ => none

/-! ## §3 Fractions -/

/-- A decimal: its sign, its digits as one number, and the power of ten that it is to be
multiplied by. -/
structure DecimalText where
  negative : Bool
  coefficient : Nat
  exponent : Int

/-- The exponent at the end of a decimal, which may be left out. -/
def exponent? : List Char → Option Int
  | [] => some 0
  | e :: rest => if e = 'e' ∨ e = 'E' then Numeral.int? rest else none

/-- The decimal that a text writes. Digits stand on one side of the point or on both; digits on the
left may stand alone. -/
def decimal? (text : List Char) : Option DecimalText := do
  let (negative, text) := match text with
    | '-' :: rest => (true, rest)
    | '+' :: rest => (false, rest)
    | _ => (false, text)
  let whole := text.takeWhile Char.isDigit
  let (part, rest) := match text.dropWhile Char.isDigit with
    | '.' :: rest => (rest.takeWhile Char.isDigit, rest.dropWhile Char.isDigit)
    | rest => ([], rest)
  let coefficient ← Numeral.nat? (whole ++ part)
  return ⟨negative, coefficient, (← exponent? rest) - part.length⟩

/-- The double precision number that a text writes. -/
def float? (text : List Char) : Option Binary64 := do
  let d ← decimal? text
  Binary64.ofDecimal? d.negative d.coefficient d.exponent

/-- Underscores stand between digits only; what came before is a digit or not. -/
def underscoresDivide (afterDigit : Bool) : List Char → Bool
  | [] => true
  | '_' :: d :: rest => afterDigit && d.isDigit && underscoresDivide true rest
  | '_' :: [] => false
  | c :: rest => underscoresDivide c.isDigit rest

/-- The text without its underscores. -/
def withoutUnderscores (text : List Char) : List Char := text.filter (· ≠ '_')

/-! ## §4 All together -/

/-- What a scalar means that starts with a digit or sign. -/
def numeric (text : List Char) : Meaning :=
  if Timestamp.isTimestamp text then .timestamp
  else
    let bare := withoutUnderscores text
    match (signed? natural? bare).or (unsigned? bare) with
    | some n => .int n
    | none =>
      match float? bare with
      | some x => .float x
      | none => ((marked? bare).map Meaning.int).getD .text

/-- What a scalar means that starts with a point. -/
def fractional (text : List Char) : Meaning :=
  if underscoresDivide false text then
    ((float? (withoutUnderscores text)).map Meaning.float).getD .text
  else .text

/-- What a plain scalar means. -/
def meaning (text : String) : Meaning :=
  match word? text with
  | some m => m
  | none =>
    match text.toList with
    | [] => .null
    | c :: rest =>
      if c.isDigit || c = '+' || c = '-' then numeric (c :: rest)
      else if c = '.' then fractional (c :: rest)
      else .text

/-- A part of a number in base sixty: digits after a colon, below sixty. -/
def isSixtieth (digits : List Char) : Bool :=
  match digits with
  | [d] => d.isDigit
  | [c, d] => '0' ≤ c && c ≤ '5' && d.isDigit
  | _ => false

/-- The pieces of a text between colons. -/
def colonPieces : List Char → List (List Char)
  | [] => [[]]
  | c :: rest =>
    if c = ':' then [] :: colonPieces rest
    else match colonPieces rest with
      | piece :: more => (c :: piece) :: more
      | [] => [[c]]

/-- The text is a number in base sixty, such as `1:30`, which some readers take for such. -/
def isBaseSixty (text : String) : Bool :=
  let unsigned := match text.toList with
    | '-' :: rest => rest
    | '+' :: rest => rest
    | chars => chars
  let whole := unsigned.takeWhile (· ≠ '.')
  let part := (unsigned.dropWhile (· ≠ '.')).drop 1
  let isDigitOrBar (c : Char) : Bool := c.isDigit || c == '_'
  part.all isDigitOrBar &&
    match colonPieces whole with
    | (d :: first) :: second :: more =>
      d.isDigit && first.all isDigitOrBar && (second :: more).all isSixtieth
    | _ => false

/-- The text keeps its meaning as text when it is written plainly. -/
def staysText (text : String) : Bool :=
  meaning text == .text && !isBaseSixty text && !isOldBool text

end Scalar

end NameIndex.Yaml
