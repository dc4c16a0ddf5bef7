import NameIndex.Number.Binary64
import NameIndex.Text.Hex
import NameIndex.Text.Numeral
import NameIndex.Text.Printable

/-!
# Tokens of a manifest

A manifest is a small script. Its text is a sequence of lines; inside brackets, and after a
backslash, a line goes on over its end. Every statement starts at the margin.

A text that cannot be cut into tokens is malformed: an indented statement, a string that does not
end, an escape or a number in no known form, a closing bracket too much, a stray character.

## Main definitions

* `Token.scan?` — the tokens of a text.
-/

namespace NameIndex.Manifest

open NameIndex.Text

/-- A token. -/
inductive Token where
  | name (name : String)
  | keyword (word : String)
  | int (n : Int)
  | float (x : Binary64)
  | string (text : String)
  | sign (sign : String)
  /-- The end of a statement's line. -/
  | newline
  deriving Repr, DecidableEq

namespace Token

/-! ## §1 Characters and words -/

/-- A newline for each of the ways to end a line. -/
def unifyBreaks : List Char → List Char
  | [] => []
  | '\r' :: '\n' :: rest => '\n' :: unifyBreaks rest
  | '\r' :: rest => '\n' :: unifyBreaks rest
  | c :: rest => c :: unifyBreaks rest

/-- A character that a name can start with. -/
def startsName (c : Char) : Bool :=
  c.isAlpha || c == '_' || (0x80 ≤ c.toNat && Text.isPrintable c)

/-- A character that a name can go on with. -/
def continuesName (c : Char) : Bool := startsName c || c.isDigit

/-- The words with a meaning of their own. -/
def isKeyword (word : String) : Bool :=
  word ∈ ["and", "break", "continue", "def", "elif", "else", "for", "if", "in", "lambda", "load",
    "not", "or", "pass", "return", "while"]

/-- The words that may not be used at all. -/
def isReserved (word : String) : Bool :=
  word ∈ ["as", "class", "del", "except", "finally", "from", "global", "import", "is", "nonlocal",
    "raise", "try", "with", "yield"]

/-- The token of a word. -/
def ofWord? (word : String) : Option Token :=
  if isReserved word then none
  else if isKeyword word then some (.keyword word)
  else some (.name word)

/-- The signs, longer ones first. -/
def signs : List String :=
  ["//=", "<<=", ">>=", "==", "!=", "<=", ">=", "//", "<<", ">>", "**", "+=", "-=", "*=", "/=",
    "%=", "&=", "|=", "^=", "+", "-", "*", "/", "%", "&", "|", "^", "~", "=", "<", ">", "(", ")",
    "[", "]", "\x7b", "\x7d", ",", ":", ";", "."]

/-- The sign that a text starts with, and the text after it. -/
def sign? (text : List Char) : Option (String × List Char) :=
  (signs.find? fun s => s.toList.isPrefixOf text).map fun s => (s, text.drop s.length)

/-- The sign opens a bracket. -/
def opens (sign : String) : Bool := sign ∈ ["(", "[", "\x7b"]

/-- The sign closes a bracket. -/
def closes (sign : String) : Bool := sign ∈ [")", "]", "\x7d"]

/-! ## §2 Numbers -/

/-- An integer after the mark of its base. -/
def marked? (base : Nat) (text : List Char) : Option (Token × List Char) := do
  let isDigit (c : Char) : Bool := (Hex.digit? c).any (· < base)
  let digits := text.takeWhile isDigit
  if digits.isEmpty then none
  let n ← Numeral.inBase? base Hex.digit? digits
  return (.int n, text.dropWhile isDigit)

/-- The exponent of a number, if one follows: its value and the text after it. -/
def exponent? : List Char → Option (Option Int × List Char)
  | e :: rest =>
    if e = 'e' ∨ e = 'E' then do
      let (factor, digits) := match rest with
        | '-' :: rest => (-1, rest)
        | '+' :: rest => (1, rest)
        | _ => ((1 : Int), rest)
      let n ← Numeral.nat? (digits.takeWhile Char.isDigit)
      return (some (factor * n), digits.dropWhile Char.isDigit)
    else some (none, e :: rest)
  | [] => some (none, [])

/-- A decimal number: with a point or an exponent it is a fraction. A whole number does not start
with a zero unless it is zero. -/
def decimal? (text : List Char) : Option (Token × List Char) := do
  let whole := text.takeWhile Char.isDigit
  let (part, rest) := match text.dropWhile Char.isDigit with
    | '.' :: rest => (some (rest.takeWhile Char.isDigit), rest.dropWhile Char.isDigit)
    | rest => (none, rest)
  let (exponent, rest) ← exponent? rest
  let n ← Numeral.nat? (whole ++ part.getD [])
  if part.isSome || exponent.isSome then
    let x ← Binary64.ofDecimal? false n (exponent.getD 0 - (part.getD []).length)
    return (.float x, rest)
  else if whole.head? = some '0' ∧ n ≠ 0 then none
  else return (.int n, rest)

/-- The number that a text starts with. -/
def number? : List Char → Option (Token × List Char)
  | '0' :: 'x' :: rest | '0' :: 'X' :: rest => marked? 16 rest
  | '0' :: 'o' :: rest | '0' :: 'O' :: rest => marked? 8 rest
  | '0' :: 'b' :: rest | '0' :: 'B' :: rest => marked? 2 rest
  | text => decimal? text

/-! ## §3 Strings -/

/-- The character that a one-letter escape stands for. -/
def escaped? : Char → Option Char
  | 'a' => some '\x07'
  | 'b' => some '\x08'
  | 'f' => some '\x0c'
  | 'n' => some '\n'
  | 'r' => some '\r'
  | 't' => some '\t'
  | 'v' => some '\x0b'
  | '\\' => some '\\'
  | '\'' => some '\''
  | '"' => some '"'
  | _ => none

/-- A digit of an octal escape. -/
def isOctal (c : Char) : Bool := '0' ≤ c && c ≤ '7'

/-- The character of a code point below the first one outside ASCII. -/
def ascii? (n : Nat) : Option Char := if n < 0x80 then some (Char.ofNat n) else none

/-- The characters that an escape stands for, from the text after the backslash on, and the text
after the escape. A backslash before a line end stands for nothing. -/
def escape? : List Char → Option (List Char × List Char)
  | [] => none
  | '\n' :: rest => some ([], rest)
  | 'x' :: rest => do
    let (n, rest) ← Hex.take? 2 rest
    return ([← ascii? n], rest)
  | 'u' :: rest => do
    let (n, rest) ← Hex.take? 4 rest
    return ([← Hex.char? n], rest)
  | 'U' :: rest => do
    let (n, rest) ← Hex.take? 8 rest
    return ([← Hex.char? n], rest)
  | c :: rest =>
    if isOctal c then do
      let digits := ((c :: rest).take 3).takeWhile isOctal
      let n ← Numeral.inBase? 8 Numeral.digit? digits
      return ([← ascii? n], (c :: rest).drop digits.length)
    else (escaped? c).map fun d => ([d], rest)

/-- The rest of a string up to its end, which `ends` finds. A string that is not `long` may not go
over the end of a line; in a `raw` one backslashes stand for themselves. -/
def stringRest? (raw long : Bool) (ends : List Char → Option (List Char)) :
    Nat → List Char → Option (List Char × List Char)
  | 0, _ => none
  | fuel + 1, text =>
    match ends text with
    | some rest => some ([], rest)
    | none =>
      match text with
      | [] => none
      | '\\' :: rest =>
        if raw then
          match rest with
          | [] => none
          | c :: rest => do
            let (more, rest) ← stringRest? raw long ends fuel rest
            return ('\\' :: c :: more, rest)
        else do
          let (chars, rest) ← escape? rest
          let (more, rest) ← stringRest? raw long ends fuel rest
          return (chars ++ more, rest)
      | c :: rest =>
        if c = '\n' && !long then none
        else do
          let (more, rest) ← stringRest? raw long ends fuel rest
          return (c :: more, rest)

/-- The text after one quote. -/
def endsShort (quote : Char) : List Char → Option (List Char)
  | c :: rest => if c = quote then some rest else none
  | [] => none

/-- The text after three quotes. -/
def endsLong (quote : Char) : List Char → Option (List Char)
  | a :: b :: c :: rest => if a = quote ∧ b = quote ∧ c = quote then some rest else none
  | _ => none

/-- A string, from its first quote on. -/
def string? (raw : Bool) (text : List Char) : Option (Token × List Char) :=
  match text with
  | quote :: rest => do
    let (chars, rest) ←
      match endsLong quote text with
      | some rest => stringRest? raw true (endsLong quote) (rest.length + 1) rest
      | none => stringRest? raw false (endsShort quote) (rest.length + 1) rest
    return (.string (String.ofList chars), rest)
  | [] => none

/-! ## §4 Texts -/

/-- The text starts with a quote. -/
def startsQuote : List Char → Bool
  | c :: _ => c == '"' || c == '\''
  | [] => false

/-- The token that a text starts with, and the text after it. -/
def next? (text : List Char) : Option (Token × List Char) :=
  match text with
  | [] => none
  | c :: rest =>
    if c == 'r' && startsQuote rest then string? true rest
    else if startsQuote text then string? false text
    else if startsName c then do
      let token ← ofWord? (String.ofList (text.takeWhile continuesName))
      return (token, text.dropWhile continuesName)
    else if c.isDigit || (c == '.' && rest.head?.any Char.isDigit) then number? text
    else (sign? text).map fun (s, rest) => (.sign s, rest)

/-- The tokens of a text that is inside `depth` brackets. At the start of a line outside brackets,
blank lines and comments are skipped and anything else has to stand at the margin. -/
def scanFrom? : Nat → Nat → Bool → List Char → Option (List Token)
  | 0, _, _, _ => none
  | fuel + 1, depth, start, text =>
    match text with
    | [] => some (if start then [] else [.newline])
    | c :: rest =>
      if start then
        let after := text.dropWhile fun c => c == ' ' || c == '\t'
        match after with
        | [] => some []
        | '\n' :: later => scanFrom? fuel depth true later
        | '#' :: _ => scanFrom? fuel depth true ((after.dropWhile (· ≠ '\n')).drop 1)
        | _ => if after.length = text.length then scanFrom? fuel depth false text else none
      else if c = ' ' || c = '\t' then scanFrom? fuel depth false rest
      else if c = '\n' then
        if depth = 0 then (scanFrom? fuel 0 true rest).map (.newline :: ·)
        else scanFrom? fuel depth false rest
      else if c = '#' then scanFrom? fuel depth false (text.dropWhile (· ≠ '\n'))
      else if c = '\\' then
        match rest with
        | '\n' :: later => scanFrom? fuel depth false later
        | _ => none
      else do
        let (token, later) ← next? text
        let depth ← match token with
          | .sign s =>
            if opens s then some (depth + 1)
            else if closes s then if depth = 0 then none else some (depth - 1)
            else some depth
          | _ => some depth
        return token :: (← scanFrom? fuel depth false later)

/-- The tokens of a text; `none` if it cannot be cut into tokens. -/
def scan? (text : List Char) : Option (List Token) :=
  let text := unifyBreaks text
  scanFrom? (2 * text.length + 2) 0 true text

end Token

end NameIndex.Manifest
