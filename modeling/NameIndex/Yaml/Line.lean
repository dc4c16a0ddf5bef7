/-!
# Lines

A YAML text is a list of lines. A line is its leading spaces, which are its indentation, the rest,
and the break that ends it. Breaks that YAML counts as the same are one character here.

Some characters may not stand in a YAML text at all; `isAllowed` says which may.
-/

namespace NameIndex.Yaml

/-! ## §1 Characters -/

/-- A character that may stand in a text. -/
def isAllowed (c : Char) : Bool :=
  c == '\t' || c == '\n' || c == '\r' || (0x20 ≤ c.toNat && c.toNat ≤ 0x7E) || c == '\x85'
    || (0xA0 ≤ c.toNat && c.toNat ≤ 0xD7FF) || (0xE000 ≤ c.toNat && c.toNat ≤ 0xFFFD)
    || 0x10000 ≤ c.toNat

/-- A space or a tab. -/
def isBlank (c : Char) : Bool := c == ' ' || c == '\t'

/-- A character that ends a line. -/
def isBreak (c : Char) : Bool :=
  c == '\n' || c == '\r' || c == '\x85' || c == '\u2028' || c == '\u2029'

/-- The break as it counts: the two separators stand for themselves, all others for a newline. -/
def breakChar (c : Char) : Char := if c == '\u2028' || c == '\u2029' then c else '\n'

/-- The text is at its end, or goes on with a blank. -/
def startsBlank : List Char → Bool
  | [] => true
  | c :: _ => isBlank c

/-- The text after its leading blanks. -/
def skipBlanks (text : List Char) : List Char := text.dropWhile isBlank

/-- Nothing, or a comment: what may stand at the end of a line. -/
def isVoid : List Char → Bool
  | [] => true
  | '#' :: _ => true
  | _ => false

/-! ## §2 Lines -/

/-- A line: its indentation, its text, and the break after it. The last line has none. -/
structure Line where
  indent : Nat
  text : List Char
  ending : Option Char
  deriving Repr, DecidableEq

namespace Line

/-- A line from its characters. -/
def ofChars (chars : List Char) (ending : Option Char) : Line :=
  ⟨(chars.takeWhile (· = ' ')).length, chars.dropWhile (· = ' '), ending⟩

/-- Nothing but spaces, or a comment. -/
def isIdle (l : Line) : Bool := isVoid l.text

/-- The first character after the indentation is a tab. -/
def startsWithTab (l : Line) : Bool := l.text.head? == some '\t'

/-- The line is `-` with something or nothing after a blank: an entry of a sequence. -/
def isEntry (l : Line) : Bool :=
  match l.text with
  | '-' :: rest => startsBlank rest
  | _ => false

/-- The line starts with three characters and a blank at the margin: it separates documents. -/
def isMarkerOf (c : Char) (l : Line) : Bool :=
  l.indent == 0 && match l.text with
    | a :: b :: d :: rest => a == c && b == c && d == c && startsBlank rest
    | _ => false

/-- The line starts a document. -/
def isStart (l : Line) : Bool := l.isMarkerOf '-'

/-- The line ends a document. -/
def isEnd (l : Line) : Bool := l.isMarkerOf '.'

end Line

/-- The pieces between breaks, each with the break after it. -/
def pieces : List Char → List (List Char × Option Char)
  | [] => [([], none)]
  | '\r' :: '\n' :: rest => ([], some '\n') :: pieces rest
  | c :: rest =>
    if isBreak c then ([], some (breakChar c)) :: pieces rest
    else match pieces rest with
      | (piece, ending) :: more => (c :: piece, ending) :: more
      | [] => [([c], none)]

/-- The lines of a text. -/
def lines (text : List Char) : List Line := (pieces text).map fun (p, e) => .ofChars p e

/-- The lines from the first one on that says something. -/
def dropIdle (ls : List Line) : List Line := ls.dropWhile Line.isIdle

/-- A bound for the steps that reading the lines can take. -/
def weight (ls : List Line) : Nat := ls.foldl (fun n l => n + l.text.length + 2) 4 * 4

end NameIndex.Yaml
