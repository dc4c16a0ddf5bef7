/-!
# Path patterns

A **pattern** describes names of files. `*` stands for any run of characters inside one element of
a path and `?` for any one of them; `[…]` is a class of characters, `{…,…}` a choice of patterns,
and a backslash takes the next character as it is. `**` as a whole element stands for any number of
elements; in other places it is nothing but two stars.

A pattern is malformed if a class or a choice does not end, if a choice ends that has not begun, if
a class is empty, or if nothing follows a backslash.

## Main definitions

* `Pattern.parse?` — reading a pattern.
* `Pattern.expand` — the simple patterns that the choices stand for.
-/

namespace NameIndex

/-- A part of a pattern that stands for characters. -/
inductive Glyph where
  /-- A character for itself. -/
  | char (c : Char)
  /-- A character after a backslash. -/
  | escaped (c : Char)
  /-- The division of elements. -/
  | slash
  /-- Any one character of an element. -/
  | anyOne
  /-- Any run of characters of an element. -/
  | anyRun
  /-- One character of a class, or one outside of it; the class is given by ranges. -/
  | oneOf (negated : Bool) (ranges : List (Char × Char))
  deriving Repr, DecidableEq

/-- A part of a pattern. -/
inductive PatternPart where
  | glyph (glyph : Glyph)
  /-- Alternatives, each of them a pattern. -/
  | choice (alternatives : List (List PatternPart))
  deriving Repr

/-- A pattern. -/
structure Pattern where
  parts : List PatternPart
  deriving Repr

namespace Pattern

/-! ## §1 Reading -/

/-- The ranges of a class up to its end, after a character `last` that may start a range. A dash
before the end, or with nothing before it, is a character like any other. -/
def classRanges? (last : Option Char) : List Char → Option (List (Char × Char) × List Char)
  | [] => none
  | ']' :: rest => some ([], rest)
  | '-' :: '\\' :: hi :: rest =>
    match last with
    | some lo => (classRanges? none rest).map fun (ranges, rest) => ((lo, hi) :: ranges, rest)
    | none =>
      (classRanges? (some hi) rest).map fun (ranges, rest) =>
        (('-', '-') :: (hi, hi) :: ranges, rest)
  | '-' :: hi :: rest =>
    if hi = ']' then some ([('-', '-')], rest)
    else match last with
      | some lo => (classRanges? none rest).map fun (ranges, rest) => ((lo, hi) :: ranges, rest)
      | none =>
        (classRanges? (some '-') (hi :: rest)).map fun (ranges, rest) =>
          (('-', '-') :: ranges, rest)
  | '\\' :: c :: rest =>
    (classRanges? (some c) rest).map fun (ranges, rest) => ((c, c) :: ranges, rest)
  | c :: rest =>
    (classRanges? (some c) rest).map fun (ranges, rest) => ((c, c) :: ranges, rest)

/-- A class, from the text after its bracket on; it may not be empty. -/
def class? (text : List Char) : Option (Glyph × List Char) :=
  let (negated, text) := match text with
    | '^' :: rest => (true, rest)
    | '!' :: rest => (true, rest)
    | _ => (false, text)
  if text.head? = some ']' then none
  else (classRanges? none text).map fun (ranges, rest) => (.oneOf negated ranges, rest)

/-- The glyph that a text starts with; braces start none. -/
def glyph? : List Char → Option (Glyph × List Char)
  | [] => none
  | '\\' :: c :: rest => some (.escaped c, rest)
  | '\\' :: [] => none
  | '[' :: rest => class? rest
  | '*' :: rest => some (.anyRun, rest)
  | '?' :: rest => some (.anyOne, rest)
  | '/' :: rest => some (.slash, rest)
  | c :: rest => if c = '\x7b' ∨ c = '\x7d' then none else some (.char c, rest)

mutual

/-- Parts up to the end of the text, or inside a choice up to the end of the alternative. -/
def parts? : Nat → Bool → List Char → Option (List PatternPart × List Char)
  | 0, _, _ => none
  | fuel + 1, inside, text =>
    match text with
    | [] => if inside then none else some ([], [])
    | '\x7b' :: rest => do
      let (alternatives, rest) ← alternatives? fuel rest
      let (parts, rest) ← parts? fuel inside rest
      return (.choice alternatives :: parts, rest)
    | c :: rest =>
      if inside && (c == ',' || c == '\x7d') then some ([], c :: rest)
      else do
        let (glyph, rest) ← glyph? (c :: rest)
        let (parts, rest) ← parts? fuel inside rest
        return (.glyph glyph :: parts, rest)

/-- The alternatives of a choice up to its end. -/
def alternatives? : Nat → List Char → Option (List (List PatternPart) × List Char)
  | 0, _ => none
  | fuel + 1, text => do
    let (first, rest) ← parts? fuel true text
    match rest with
    | ',' :: rest =>
      let (more, rest) ← alternatives? fuel rest
      return (first :: more, rest)
    | _ => return ([first], rest.drop 1)

end

/-- Reads a pattern; `none` if it is malformed. -/
def parse? (text : String) : Option Pattern :=
  (parts? (2 * text.length + 2) false text.toList).map fun (parts, _) => ⟨parts⟩

/-! ## §2 Simple patterns -/

mutual

/-- The simple patterns that parts stand for: every combination of alternatives. An alternative
without text at the end of a choice counts only if `vacant` says so. -/
def expandParts (vacant : Bool) : List PatternPart → List (List Glyph)
  | [] => [[]]
  | .glyph g :: rest => (expandParts vacant rest).map (g :: ·)
  | .choice alternatives :: rest =>
    (expandAlternatives vacant alternatives).flatMap fun first =>
      (expandParts vacant rest).map (first ++ ·)

/-- The simple patterns that alternatives stand for. -/
def expandAlternatives (vacant : Bool) : List (List PatternPart) → List (List Glyph)
  | [] => []
  | [[]] => if vacant then [[]] else []
  | parts :: rest => expandParts vacant parts ++ expandAlternatives vacant rest

end

/-- The simple patterns that a pattern stands for. -/
def expand (vacant : Bool) (p : Pattern) : List (List Glyph) := expandParts vacant p.parts

end Pattern

end NameIndex
