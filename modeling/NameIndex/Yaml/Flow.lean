import NameIndex.Text.Hex
import NameIndex.Yaml.Line
import NameIndex.Yaml.Node

/-!
# Scalars and flow collections

What can stand inside a line and go on over the following ones: quoted scalars, plain scalars
inside brackets, and collections in brackets. Readers move a cursor through the lines; `none` says
that the text is malformed.

Where a scalar goes on over a line break, blanks around the break are dropped and the break is
**folded**: one break becomes a space, and of several the first one goes.

## Main definitions

* `quoted?` — the rest of a quoted scalar.
* `flowNode?` — a quoted scalar, a plain scalar or a collection in brackets.
-/

namespace NameIndex.Yaml

open NameIndex.Text

/-! ## §1 The cursor -/

/-- A place in the text: what is left of the line, its break, and the lines below. -/
structure Cursor where
  here : List Char
  ending : Option Char
  below : List Line
  deriving Repr, DecidableEq

/-- The first place at or after the beginning of the lines where something stands, skipping
comments. -/
def firstToken : List Line → Option Cursor
  | [] => none
  | l :: below =>
    let here := skipBlanks l.text
    if isVoid here then firstToken below else some ⟨here, l.ending, below⟩

/-- The next place where something stands, skipping blanks, comments and line breaks. -/
def Cursor.token? (c : Cursor) : Option Cursor :=
  let here := skipBlanks c.here
  if isVoid here then firstToken c.below else some { c with here }

/-- Passes blank lines and gathers their breaks, up to a line on which something stands. -/
def gatherBreaks (breaks : List Char) : List Line → Option (List Char × Cursor)
  | [] => none
  | l :: below =>
    let here := skipBlanks l.text
    if here.isEmpty then gatherBreaks (breaks ++ l.ending.toList) below
    else some (breaks, ⟨here, l.ending, below⟩)

/-- What a break and the breaks after it stand for inside a scalar. -/
def fold (ending : Option Char) (more : List Char) : List Char :=
  match ending with
  | some '\n' => if more.isEmpty then [' '] else more
  | some c => c :: more
  | none => more

/-! ## §2 Quoted scalars -/

/-- The character that a one-letter escape stands for. -/
def escaped? : Char → Option Char
  | '0' => some '\x00'
  | 'a' => some '\x07'
  | 'b' => some '\x08'
  | 't' => some '\t'
  | '\t' => some '\t'
  | 'n' => some '\n'
  | 'v' => some '\x0b'
  | 'f' => some '\x0c'
  | 'r' => some '\r'
  | 'e' => some '\x1b'
  | ' ' => some ' '
  | '"' => some '"'
  | '\'' => some '\''
  | '\\' => some '\\'
  | 'N' => some '\x85'
  | '_' => some '\xa0'
  | 'L' => some '\u2028'
  | 'P' => some '\u2029'
  | _ => none

/-- The number of hexadecimal digits that a numeric escape takes. -/
def escapeWidth? : Char → Option Nat
  | 'x' => some 2
  | 'u' => some 4
  | 'U' => some 8
  | _ => none

/-- The character after a backslash, and the text after its escape. -/
def escape? : List Char → Option (Char × List Char)
  | [] => none
  | e :: rest =>
    match escapeWidth? e with
    | some width => do
      let (n, rest) ← Hex.take? width rest
      return (← Hex.char? n, rest)
    | none => (escaped? e).map (·, rest)

/-- The rest of a scalar between the quotes `quote`, after `pending` blanks that count only if the
line goes on. In double quotes a backslash escapes; in single quotes a quote is written twice. -/
def quoted? (quote : Char) : Nat → List Char → Cursor → Option (List Char × Cursor)
  | 0, _, _ => none
  | fuel + 1, pending, c =>
    match c.here with
    | [] => do
      let (breaks, next) ← gatherBreaks [] c.below
      let (text, after) ← quoted? quote fuel [] next
      return (fold c.ending breaks ++ text, after)
    | '\\' :: rest =>
      if quote = '"' then
        if rest.isEmpty then do
          let (breaks, next) ← gatherBreaks [] c.below
          let (text, after) ← quoted? quote fuel [] next
          return (pending ++ breaks ++ text, after)
        else do
          let (char, rest) ← escape? rest
          let (text, after) ← quoted? quote fuel [] { c with here := rest }
          return (pending ++ char :: text, after)
      else do
        let (text, after) ← quoted? quote fuel [] { c with here := rest }
        return (pending ++ '\\' :: text, after)
    | d :: rest =>
      if d = quote then
        match quote, rest with
        | '\'', '\'' :: rest => do
          let (text, after) ← quoted? quote fuel [] { c with here := rest }
          return (pending ++ '\'' :: text, after)
        | _, _ => some (pending, { c with here := rest })
      else if isBlank d then quoted? quote fuel (pending ++ [d]) { c with here := rest }
      else do
        let (text, after) ← quoted? quote fuel [] { c with here := rest }
        return (pending ++ d :: text, after)

/-! ## §3 Plain scalars -/

/-- A character that ends a plain scalar inside brackets. -/
def isFlowIndicator (c : Char) : Bool :=
  c == ',' || c == '?' || c == '[' || c == ']' || c == '\x7b' || c == '\x7d'

/-- A character that no plain scalar starts with. -/
def isIndicator (c : Char) : Bool :=
  isFlowIndicator c || c == '-' || c == ':' || c == '#' || c == '&' || c == '*' || c == '!'
    || c == '|' || c == '>' || c == '\'' || c == '"' || c == '%' || c == '@' || c == '\x60'

/-- A plain scalar can start here. A dash, and outside brackets a question mark or colon, may
start one if no blank follows. -/
def startsPlain (flow : Bool) : List Char → Bool
  | [] => false
  | c :: rest =>
    if c == '-' then !startsBlank rest
    else if !flow && (c == '?' || c == ':') then !startsBlank rest
    else !isBlank c && !isIndicator c

/-- The part of a line that belongs to a plain scalar, after `pending` blanks, and what follows
it: the end of the line, a comment, a colon before a blank, or an indicator of a bracket. -/
def plainRun (flow : Bool) (pending : List Char) : List Char → List Char × List Char
  | [] => ([], [])
  | c :: rest =>
    if isBlank c then plainRun flow (pending ++ [c]) rest
    else if (c == '#' && !pending.isEmpty) || (c == ':' && startsBlank rest)
        || (flow && isFlowIndicator c) then ([], c :: rest)
    else
      let (text, after) := plainRun flow [] rest
      (pending ++ c :: text, after)

/-- A plain scalar inside brackets, which goes on over line breaks. -/
def plainFlow? : Nat → Cursor → Option (List Char × Cursor)
  | 0, _ => none
  | fuel + 1, c =>
    let (text, after) := plainRun true [] c.here
    if !after.isEmpty then some (text, { c with here := after })
    else match gatherBreaks [] c.below with
      | none => some (text, { c with here := [] })
      | some (breaks, next) =>
        if isVoid next.here then some (text, next)
        else do
          let (more, last) ← plainFlow? fuel next
          if more.isEmpty then return (text, last)
          return (text ++ fold c.ending breaks ++ more, last)

/-! ## §4 Collections in brackets -/

/-- After an entry: a comma, or the end of the collection. -/
def separator? (close : Char) (c : Cursor) : Option (Bool × Cursor) := do
  let c ← c.token?
  match c.here with
  | d :: rest =>
    if d = close then some (true, { c with here := rest })
    else if d = ',' then some (false, { c with here := rest })
    else none
  | [] => none

/-- The cursor is at the end of an entry that has no node of its own. -/
def atSeparator (close : Char) (c : Cursor) : Bool :=
  match c.here with
  | d :: _ => d == close || d == ','
  | [] => false

mutual

/-- A node inside brackets, or a node that starts with a bracket or quote. -/
def flowNode? : Nat → Cursor → Option (Node × Cursor)
  | 0, _ => none
  | fuel + 1, c =>
    match c.here with
    | '[' :: rest => do
      let (items, after) ← flowItems? fuel { c with here := rest }
      return (.sequence items, after)
    | '\x7b' :: rest => do
      let (pairs, after) ← flowPairs? fuel { c with here := rest }
      return (.mapping pairs, after)
    | '"' :: rest => do
      let (text, after) ← quoted? '"' fuel [] { c with here := rest }
      return (.scalar false (String.ofList text), after)
    | '\'' :: rest => do
      let (text, after) ← quoted? '\'' fuel [] { c with here := rest }
      return (.scalar false (String.ofList text), after)
    | text =>
      if startsPlain true text then do
        let (text, after) ← plainFlow? fuel c
        return (.scalar true (String.ofList text), after)
      else none

/-- The value after a colon inside brackets; nothing before a comma or the end. -/
def flowValue? : Nat → Char → Cursor → Option (Node × Cursor)
  | 0, _, _ => none
  | fuel + 1, close, c => do
    let c ← c.token?
    if atSeparator close c then return (.nothing, c) else flowNode? fuel c

/-- The entries of a sequence in brackets, up to its end. An entry with a colon is a mapping of
one pair. -/
def flowItems? : Nat → Cursor → Option (List Node × Cursor)
  | 0, _ => none
  | fuel + 1, c => do
    let c ← c.token?
    match c.here with
    | ']' :: rest => return ([], { c with here := rest })
    | _ =>
      let (first, c) ← flowNode? fuel c
      let c ← c.token?
      let (item, c) ← (match c.here with
        | ':' :: rest => do
          let (v, c) ← flowValue? fuel ']' { c with here := rest }
          return (Node.mapping [(first, v)], c)
        | _ => return (first, c))
      let (done, c) ← separator? ']' c
      if done then return ([item], c)
      let (more, c) ← flowItems? fuel c
      return (item :: more, c)

/-- The pairs of a mapping in braces, up to its end. -/
def flowPairs? : Nat → Cursor → Option (List (Node × Node) × Cursor)
  | 0, _ => none
  | fuel + 1, c => do
    let c ← c.token?
    match c.here with
    | '\x7d' :: rest => return ([], { c with here := rest })
    | _ =>
      let (key, c) ← flowNode? fuel c
      let c ← c.token?
      let (v, c) ← (match c.here with
        | ':' :: rest => flowValue? fuel '\x7d' { c with here := rest }
        | _ => return (Node.nothing, c))
      let (done, c) ← separator? '\x7d' c
      if done then return ([(key, v)], c)
      let (more, c) ← flowPairs? fuel c
      return ((key, v) :: more, c)

end

end NameIndex.Yaml
