import NameIndex.Text.Hex
import NameIndex.Yaml.Line
import NameIndex.Yaml.Scalar

/-!
# How a text is written

The four styles of scalars that are written, and the choice among them. A text with a newline is
written literally where that is possible. Otherwise it is written plainly if it then stays a text
and nothing in it disturbs; in single quotes if it only disturbs there; and in double quotes, which
can express every text.

## Main definitions

* `Style.choose` — the style of a text.
* `presented` — the text in its style, at an indentation.
-/

namespace NameIndex.Yaml

open NameIndex.Text

/-- How a scalar is written. -/
inductive Style where
  | plain
  | single
  | double
  | literal
  deriving Repr, DecidableEq

/-! ## §1 Obstacles -/

/-- A character that is shown as it is. -/
def isShown (c : Char) : Bool :=
  c == '\n' || (0x20 ≤ c.toNat && c.toNat ≤ 0x7E) || (0xA0 ≤ c.toNat && c.toNat ≤ 0xD7FF)
    || (0xE000 ≤ c.toNat && c.toNat ≤ 0xFFFD && c.toNat != 0xFEFF)

/-- A character, other than a tab, that has to be escaped. -/
def isSpecial (c : Char) : Bool := c != '\t' && !isShown c

/-- Two neighbours of which the first is one thing and the second another. -/
def hasNeighbours (p q : Char → Bool) : List Char → Bool
  | a :: b :: rest => (p a && q b) || hasNeighbours p q (b :: rest)
  | _ => false

/-- A space. -/
def isSpace (c : Char) : Bool := c == ' '

/-- The text starts with one of the lines that divide documents. -/
def startsLikeMarker : List Char → Bool
  | '-' :: '-' :: '-' :: _ => true
  | '.' :: '.' :: '.' :: _ => true
  | _ => false

/-- A character that starts something else than a plain scalar. -/
def isOpener (c : Char) : Bool :=
  c ∈ ['#', ',', '[', ']', '\x7b', '\x7d', '&', '*', '!', '|', '>', '\'', '"', '%', '@', '\x60']

/-- The first character would be read as the start of something else. -/
def startsDisturbing (flow : Bool) : List Char → Bool
  | [] => true
  | c :: rest =>
    if c == '-' then startsBlank rest
    else if c == '?' || c == ':' then flow || startsBlank rest
    else isOpener c

/-- A later character, after `previous`, would be read as the end of the scalar. -/
def goesOnDisturbing (flow : Bool) (previous : Char) : List Char → Bool
  | [] => false
  | c :: rest =>
    (c == ':' && (flow || startsBlank rest))
      || (c == '#' && (isBlank previous || isBreak previous || previous == '\x00'))
      || (flow && (c == ',' || c == '?' || c == '[' || c == ']' || c == '\x7b' || c == '\x7d'))
      || goesOnDisturbing flow c rest

/-- The text starts or ends with a character of a kind. -/
def isEdged (p : Char → Bool) (text : List Char) : Bool :=
  text.head?.any p || text.getLast?.any p

/-! ## §2 The choice -/

/-- The text can be read back when it is written in single quotes. -/
def fitsSingle (text : List Char) : Bool :=
  !text.any isSpecial && !text.contains '\t'
    && !hasNeighbours isBreak isSpace text && !hasNeighbours isSpace isBreak text

/-- The text can be read back when it is written plainly, inside brackets or outside. -/
def fitsPlain (flow : Bool) (text : List Char) : Bool :=
  fitsSingle text && !text.any isBreak && !isEdged isSpace text && !startsLikeMarker text
    && !startsDisturbing flow text
    && match text with
      | c :: rest => !goesOnDisturbing flow c rest
      | [] => true

/-- The text can be read back when it is written literally. -/
def fitsLiteral (text : List Char) : Bool :=
  !text.any isSpecial && !hasNeighbours isSpace isBreak text && !text.getLast?.any isSpace

/-- The style of a text, inside brackets or outside. -/
def Style.choose (flow : Bool) (text : String) : Style :=
  let chars := text.toList
  if chars.contains '\n' then if !flow && fitsLiteral chars then .literal else .double
  else if !Scalar.staysText text then .double
  else if fitsPlain flow chars then .plain
  else if fitsSingle chars then .single
  else .double

/-! ## §3 The styles -/

/-- A text in single quotes: quotes are doubled, and what follows a break is indented. -/
def writeSingle (indent : Nat) (afterBreak : Bool) : List Char → List Char
  | [] => ['\'']
  | c :: rest =>
    if isBreak c then c :: writeSingle indent true rest
    else
      (if afterBreak then List.replicate indent ' ' else [])
        ++ (if c = '\'' then ['\'', '\''] else [c]) ++ writeSingle indent false rest

/-- The letter of a one-letter escape. -/
def escapeLetter? (c : Char) : Option Char :=
  [('\x00', '0'), ('\x07', 'a'), ('\x08', 'b'), ('\t', 't'), ('\n', 'n'), ('\x0b', 'v'),
    ('\x0c', 'f'), ('\r', 'r'), ('\x1b', 'e'), ('"', '"'), ('\\', '\\'), ('\x85', 'N'),
    ('\u2028', 'L'), ('\u2029', 'P')].lookup c

/-- A character in double quotes. -/
def writeDoubleChar (c : Char) : List Char :=
  if isShown c && !isBreak c && c != '"' && c != '\\' then [c]
  else match escapeLetter? c with
    | some letter => ['\\', letter]
    | none =>
      if c.toNat ≤ 0xFF then '\\' :: 'x' :: Hex.fixed Hex.upperDigit 2 c.toNat
      else if c.toNat ≤ 0xFFFF then '\\' :: 'u' :: Hex.fixed Hex.upperDigit 4 c.toNat
      else '\\' :: 'U' :: Hex.fixed Hex.upperDigit 8 c.toNat

/-- The depth by which collections and literal scalars are set in. -/
def step : Nat := 4

/-- The header of a literal scalar: the depth if its first line does not show it, and what becomes
of the breaks at its end. -/
def literalHeader (text : List Char) : List Char :=
  let depth := if text.head?.any fun c => c == ' ' || isBreak c then step.repr.toList else []
  let sign := match text.reverse with
    | last :: before =>
      if !isBreak last then ['-']
      else match before with
        | c :: _ => if isBreak c then ['+'] else []
        | [] => ['+']
    | [] => ['-']
  '|' :: (depth ++ sign)

/-- The lines of a literal scalar. -/
def writeLiteral (indent : Nat) (afterBreak : Bool) : List Char → List Char
  | [] => []
  | c :: rest =>
    if isBreak c then c :: writeLiteral indent true rest
    else
      (if afterBreak then List.replicate indent ' ' else []) ++ c :: writeLiteral indent false rest

/-- A literal scalar. A break at its front is the one that ends the header. -/
def literalText (indent : Nat) (text : List Char) : List Char :=
  literalHeader text ++ (if text.head?.any isBreak then [] else ['\n'])
    ++ writeLiteral indent true text

/-- A text in its style; lines after the first are set in to `indent`. -/
def presented (flow : Bool) (indent : Nat) (text : String) : List Char :=
  let chars := text.toList
  match Style.choose flow text with
  | .plain => chars
  | .single => '\'' :: writeSingle indent false chars
  | .double => '"' :: (chars.flatMap writeDoubleChar ++ ['"'])
  | .literal => literalText indent chars

end NameIndex.Yaml
