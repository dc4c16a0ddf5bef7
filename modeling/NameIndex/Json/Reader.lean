import NameIndex.Json.Basic
import NameIndex.Text.Hex

/-!
# Reading JSON

One value, surrounded by nothing but blanks. Strings hold no raw control characters; an escape
for half of a surrogate pair that has no other half stands for the replacement character. Arrays
and objects nest ten thousand deep and no deeper.

Every reader takes the text that is left and gives back what it read and the text after it; `none`
says that the text is malformed.

## Main definitions

* `Json.parse?` — the value of a whole text.
-/

namespace NameIndex.Json

open NameIndex.Text

/-! ## §1 Blanks and words -/

/-- A character that may surround values. -/
def isBlank (c : Char) : Bool := c == ' ' || c == '\t' || c == '\r' || c == '\n'

/-- The text after its leading blanks. -/
def skipBlanks (text : List Char) : List Char := text.dropWhile isBlank

/-- The text after a word that it starts with. -/
def word? : List Char → List Char → Option (List Char)
  | [], text => some text
  | c :: word, d :: text => if c = d then word? word text else none
  | _ :: _, [] => none

/-! ## §2 Strings -/

/-- A piece of a string: a character, or a 16-bit unit given by an escape. -/
inductive Piece where
  | char (c : Char)
  | unit (n : Nat)
  deriving Repr, DecidableEq

/-- The character that a one-letter escape stands for. -/
def escaped? : Char → Option Char
  | '"' => some '"'
  | '\\' => some '\\'
  | '/' => some '/'
  | 'b' => some '\x08'
  | 'f' => some '\x0c'
  | 'n' => some '\n'
  | 'r' => some '\r'
  | 't' => some '\t'
  | _ => none

/-- The pieces up to the closing quote, and the text after it. -/
def pieces? : List Char → Option (List Piece × List Char)
  | [] => none
  | '"' :: rest => some ([], rest)
  | '\\' :: 'u' :: a :: b :: c :: d :: rest => do
    let n ← Hex.number? [a, b, c, d]
    let (more, rest) ← pieces? rest
    return (.unit n :: more, rest)
  | '\\' :: e :: rest => do
    let c ← escaped? e
    let (more, rest) ← pieces? rest
    return (.char c :: more, rest)
  | c :: rest => do
    if c.toNat < 0x20 || c == '\\' then none
    let (more, rest) ← pieces? rest
    return (.char c :: more, rest)

/-- The replacement character. -/
def replacement : Char := '\uFFFD'

/-- The unit starts a surrogate pair. -/
def isHigh (n : Nat) : Bool := 0xD800 ≤ n && n < 0xDC00

/-- The unit ends a surrogate pair. -/
def isLow (n : Nat) : Bool := 0xDC00 ≤ n && n < 0xE000

/-- The characters of the pieces: surrogate pairs become one character, half pairs the replacement
character. -/
def assemble : List Piece → List Char
  | [] => []
  | .char c :: rest => c :: assemble rest
  | [.unit n] => [(Hex.char? n).getD replacement]
  | .unit n :: .char c :: rest => (Hex.char? n).getD replacement :: c :: assemble rest
  | .unit n :: .unit m :: rest =>
    if isHigh n && isLow m then
      Char.ofNat (0x10000 + (n - 0xD800) * 0x400 + (m - 0xDC00)) :: assemble rest
    else (Hex.char? n).getD replacement :: assemble (.unit m :: rest)

/-- The string after its opening quote. -/
def string? (text : List Char) : Option (String × List Char) :=
  (pieces? text).map fun (pieces, rest) => (String.ofList (assemble pieces), rest)

/-! ## §3 Numbers -/

/-- A decimal digit. -/
def isDigit (c : Char) : Bool := '0' ≤ c && c ≤ '9'

/-- One or more digits. -/
def digits? (text : List Char) : Option (List Char × List Char) :=
  let digits := text.takeWhile isDigit
  if digits.isEmpty then none else some (digits, text.dropWhile isDigit)

/-- The digits before the point: a zero alone, or no leading zero. -/
def integer? : List Char → Option (List Char × List Char)
  | '0' :: rest => some (['0'], rest)
  | text => digits? text

/-- The point with its digits, if there is one. -/
def fraction? : List Char → Option (List Char × List Char)
  | '.' :: rest => (digits? rest).map fun (ds, rest) => ('.' :: ds, rest)
  | text => some ([], text)

/-- The sign of an exponent, if it has one. -/
def exponentSign : List Char → List Char × List Char
  | '+' :: rest => (['+'], rest)
  | '-' :: rest => (['-'], rest)
  | text => ([], text)

/-- The exponent, if there is one. -/
def exponent? : List Char → Option (List Char × List Char)
  | c :: rest =>
    if c = 'e' ∨ c = 'E' then
      let (sign, rest) := exponentSign rest
      (digits? rest).map fun (ds, rest) => (c :: sign ++ ds, rest)
    else some ([], c :: rest)
  | [] => some ([], [])

/-- A number without its sign. -/
def unsigned? (text : List Char) : Option (List Char × List Char) := do
  let (whole, rest) ← integer? text
  let (fraction, rest) ← fraction? rest
  let (exponent, rest) ← exponent? rest
  return (whole ++ fraction ++ exponent, rest)

/-- A number, as it is written. -/
def number? : List Char → Option (String × List Char)
  | '-' :: rest => (unsigned? rest).map fun (ds, rest) => (String.ofList ('-' :: ds), rest)
  | text => (unsigned? text).map fun (ds, rest) => (String.ofList ds, rest)

/-! ## §4 Arrays and objects -/

/-- A reader of one value. -/
abbrev Reader (α : Type) : Type := List Char → Option (α × List Char)

/-- Values between commas up to a closing character; `limit` bounds their number. -/
def sequence? {α : Type} (item : Reader α) (close : Char) : Nat → Reader (List α)
  | 0, _ => none
  | limit + 1, text => do
    let (first, rest) ← item text
    match skipBlanks rest with
    | c :: rest =>
      if c = close then return ([first], rest)
      else if c = ',' then
        let (more, rest) ← sequence? item close limit rest
        return (first :: more, rest)
      else none
    | [] => none

/-- The values of an array or object after its opening character: none at all, or a sequence. -/
def group? {α : Type} (item : Reader α) (close : Char) (limit : Nat) : Reader (List α) :=
  fun text =>
    match skipBlanks text with
    | c :: rest => if c = close then some ([], rest) else sequence? item close limit (c :: rest)
    | [] => none

/-- A member of an object. -/
def member? {α : Type} (value : Reader α) : Reader (String × α) := fun text => do
  match skipBlanks text with
  | '"' :: rest =>
    let (name, rest) ← string? rest
    match skipBlanks rest with
    | ':' :: rest =>
      let (v, rest) ← value rest
      return ((name, v), rest)
    | _ => none
  | _ => none

/-! ## §5 Values -/

/-- A value that is neither array nor object. -/
def scalar? : Reader Json
  | 'n' :: rest => (word? "ull".toList rest).map (Json.null, ·)
  | 't' :: rest => (word? "rue".toList rest).map (Json.bool true, ·)
  | 'f' :: rest => (word? "alse".toList rest).map (Json.bool false, ·)
  | '"' :: rest => (string? rest).map fun (s, rest) => (Json.string s, rest)
  | text => (number? text).map fun (s, rest) => (Json.number s, rest)

/-- A value of at most the given depth; `limit` bounds the number of elements of one array. -/
def value? (limit : Nat) : Nat → Reader Json
  | 0 => fun text =>
    match skipBlanks text with
    | '[' :: _ => none
    | '\x7b' :: _ => none
    | text => scalar? text
  | depth + 1 => fun text =>
    match skipBlanks text with
    | '[' :: rest =>
      (group? (value? limit depth) ']' limit rest).map fun (items, rest) => (.array items, rest)
    | '\x7b' :: rest =>
      (group? (member? (value? limit depth)) '\x7d' limit rest).map fun (members, rest) =>
        (.object members, rest)
    | text => scalar? text

/-- How deep arrays and objects may nest. -/
def maxDepth : Nat := 10000

/-- The value that the whole text writes. -/
def parse? (text : List Char) : Option Json := do
  let (v, rest) ← value? text.length maxDepth text
  if (skipBlanks rest).isEmpty then some v else none

end NameIndex.Json
