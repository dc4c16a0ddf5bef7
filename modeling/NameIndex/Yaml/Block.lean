import NameIndex.Yaml.Flow

/-!
# Block collections and documents

Structure by indentation. The entries of a sequence and the keys of a mapping stand at one
indentation; what belongs to an entry stands further in, but for one exception: a sequence may
stand at the indentation of the key that it belongs to. The remainder of a line after `- ` counts
as a line of its own, further in.

Tabs never count as indentation, and a node that is followed by anything but a comment on its
line is malformed.

## Main definitions

* `block?` — a node given by lines.
* `parse?` — the first document of a text.
-/

namespace NameIndex.Yaml

/-! ## §1 Scalars on one or more lines -/

/-- How a plain scalar goes on after the end of a line. -/
inductive Continuation where
  /-- A tab stands where indentation is expected. -/
  | malformed
  /-- The scalar is at its end; the lines after it. -/
  | ended (rest : List Line)
  /-- The breaks of the blank lines passed, and the place where the scalar goes on. -/
  | further (breaks : List Char) (next : Cursor)

/-- Looks for the next line of a plain scalar whose lines are indented by at least `k`. -/
def continuation (k : Nat) (breaks : List Char) : List Line → Continuation
  | [] => .ended []
  | l :: below =>
    if l.startsWithTab && l.indent < k then .malformed
    else
      let here := skipBlanks l.text
      if here.isEmpty then continuation k (breaks ++ l.ending.toList) below
      else if l.indent < k || isVoid here then .ended (l :: below)
      else .further breaks ⟨here, l.ending, below⟩

/-- A plain scalar outside brackets. A key may not follow on its lines. -/
def plainBlock? : Nat → Nat → Cursor → Option (List Char × Cursor)
  | 0, _, _ => none
  | fuel + 1, k, c =>
    match plainRun false [] c.here with
    | (_, ':' :: _) => none
    | (text, _ :: _) => some (text, { c with here := [] })
    | (text, []) =>
      match continuation k [] c.below with
      | .malformed => none
      | .ended rest => some (text, ⟨[], none, rest⟩)
      | .further breaks next => do
        let (more, after) ← plainBlock? fuel k next
        return (text ++ fold c.ending breaks ++ more, after)

/-- What becomes of the breaks at the end of a literal scalar. -/
inductive Chomping where
  /-- One break is kept. -/
  | clip
  /-- No break is kept. -/
  | strip
  /-- Every break is kept. -/
  | keep
  deriving Repr, DecidableEq

/-- A sign of chomping. -/
def chomping? : Char → Option Chomping
  | '-' => some .strip
  | '+' => some .keep
  | _ => none

/-- A stated depth of indentation. -/
def depth? (c : Char) : Option Nat :=
  if '1' ≤ c ∧ c ≤ '9' then some (c.toNat - '0'.toNat) else none

/-- The header of a literal scalar, after its mark: a depth and a sign in either order. -/
def literalHeader? (text : List Char) : Option (Option Nat × Chomping) :=
  let (depth, sign, rest) :=
    match text with
    | a :: b :: rest =>
      match depth? a, chomping? b, chomping? a, depth? b with
      | some d, some s, _, _ => (some d, some s, rest)
      | _, _, some s, some d => (some d, some s, rest)
      | some d, none, _, _ => (some d, none, b :: rest)
      | _, _, some s, none => (none, some s, b :: rest)
      | _, _, _, _ => (none, none, text)
    | [a] => (depth? a, chomping? a, if (depth? a).isSome || (chomping? a).isSome then [] else text)
    | [] => (none, none, [])
  if isVoid (skipBlanks rest) then some (depth, sign.getD .clip) else none

/-- The depth of a literal scalar whose lines must be indented by at least `k`: that of its first
line with content, or of a blank line before it if that is deeper. A tab there is malformed. -/
def literalDepth? (k : Nat) (deepest : Nat) : List Line → Option Nat
  | [] => some (max (max deepest k) 1)
  | l :: below =>
    let deepest := max deepest l.indent
    if l.text.isEmpty && l.ending.isSome then literalDepth? k deepest below
    else if l.startsWithTab then none
    else some (max (max deepest k) 1)

/-- The content of a literal scalar of the given depth: text so far, the break that ended its last
line, the breaks of the blank lines after it, and the lines that follow the scalar. A tab where
indentation is expected is malformed. -/
def literalLines? (depth : Nat) (text : List Char) (last breaks : List Char) :
    List Line → Option (List Char × List Char × List Char × List Line)
  | [] => some (text, last, breaks, [])
  | l :: below =>
    if l.text.isEmpty && l.indent ≤ depth then
      if l.ending.isSome then literalLines? depth text last (breaks ++ l.ending.toList) below
      else some (text, last, breaks, [])
    else if l.indent < depth then
      if l.startsWithTab then none else some (text, last, breaks, l :: below)
    else
      let content := List.replicate (l.indent - depth) ' ' ++ l.text
      literalLines? depth (text ++ last ++ breaks ++ content) l.ending.toList [] below

/-- The breaks that a literal scalar keeps at its end. -/
def Chomping.kept (last breaks : List Char) : Chomping → List Char
  | .clip => last
  | .strip => []
  | .keep => last ++ breaks

/-- A literal scalar, from the text after its mark on. -/
def literal? (k : Nat) (c : Cursor) : Option (List Char × Cursor) := do
  let (stated, chomping) ← literalHeader? c.here
  let depth ← match stated with
    | some d => some (k - 1 + d)
    | none => literalDepth? k 0 c.below
  let (text, last, breaks, rest) ← literalLines? depth [] [] [] c.below
  return (text ++ chomping.kept last breaks, ⟨[], none, rest⟩)

/-! ## §2 Nodes -/

/-- A node that starts in the middle of a line; lines that it goes on over must be indented by at
least `k`. -/
def inline? (fuel k : Nat) (c : Cursor) : Option (Node × Cursor) :=
  match c.here with
  | '|' :: header => do
    let (text, after) ← literal? k { c with here := header }
    return (.scalar false (String.ofList text), after)
  | d :: _ =>
    if d = '[' || d = '\x7b' || d = '"' || d = '\'' then flowNode? fuel c
    else if startsPlain false c.here then do
      let (text, after) ← plainBlock? fuel k c
      return (.scalar true (String.ofList text), after)
    else none
  | [] => none

/-- Nothing may follow a node on its line; the lines below. -/
def Cursor.closed? (c : Cursor) : Option (List Line) :=
  if isVoid (skipBlanks c.here) then some c.below else none

/-- The key that a line starts with, and the text after its colon. A key takes no more than one
line. -/
def key? (fuel : Nat) (text : List Char) : Option (Node × List Char) :=
  match text with
  | [] => none
  | d :: _ =>
    if d = '[' || d = '\x7b' || d = '"' || d = '\'' then do
      let (node, after) ← flowNode? fuel ⟨text, none, []⟩
      match skipBlanks after.here with
      | ':' :: rest => if startsBlank rest then some (node, rest) else none
      | _ => none
    else if startsPlain false text then
      match plainRun false [] text with
      | (run, ':' :: rest) => some (.scalar true (String.ofList run), rest)
      | _ => none
    else none

/-- The lines go on at an indentation. -/
def continuesAt (n : Nat) (ls : List Line) : Bool :=
  match dropIdle ls with
  | l :: _ => l.indent == n
  | [] => false

mutual

/-- The node that the lines start with; lines that it goes on over must be indented by at least
`k`. -/
def block? : Nat → Nat → List Line → Option (Node × List Line)
  | 0, _, _ => none
  | _, _, [] => some (.nothing, [])
  | fuel + 1, k, l :: below =>
    if l.startsWithTab then none
    else if l.isEntry then do
      let (items, rest) ← entries? fuel l.indent (l :: below)
      if continuesAt l.indent rest then none else return (.sequence items, rest)
    else if (key? fuel l.text).isSome then do
      let (pairs, rest) ← pairs? fuel l.indent (l :: below)
      return (.mapping pairs, rest)
    else do
      let (node, after) ← inline? fuel k ⟨l.text, l.ending, below⟩
      return (node, ← after.closed?)

/-- What stands on the lines below an entry or key at indentation `n`. -/
def nested? : Nat → Nat → List Line → Option (Node × List Line)
  | 0, _, _ => none
  | fuel + 1, n, ls =>
    match dropIdle ls with
    | l :: below =>
      if n < l.indent then block? fuel (n + 1) (l :: below) else some (.nothing, l :: below)
    | [] => some (.nothing, [])

/-- The entries of a sequence at indentation `n`. -/
def entries? : Nat → Nat → List Line → Option (List Node × List Line)
  | 0, _, _ => none
  | fuel + 1, n, ls =>
    match dropIdle ls with
    | [] => some ([], [])
    | l :: below =>
      if n < l.indent then none
      else if l.indent < n || !l.isEntry then some ([], l :: below)
      else do
        let inner : Line := .ofChars (List.replicate (n + 1) ' ' ++ l.text.drop 1) l.ending
        let (item, rest) ←
          if inner.isIdle then nested? fuel n below else block? fuel (n + 1) (inner :: below)
        let (more, rest) ← entries? fuel n rest
        return (item :: more, rest)

/-- The pairs of a mapping at indentation `n`. -/
def pairs? : Nat → Nat → List Line → Option (List (Node × Node) × List Line)
  | 0, _, _ => none
  | fuel + 1, n, ls =>
    match dropIdle ls with
    | [] => some ([], [])
    | l :: below =>
      if n < l.indent then none
      else if l.indent < n then some ([], l :: below)
      else do
        let (key, text) ← key? fuel l.text
        let (v, rest) ← value? fuel n ⟨skipBlanks text, l.ending, below⟩
        let (more, rest) ← pairs? fuel n rest
        return ((key, v) :: more, rest)

/-- The value of a key at indentation `n`. -/
def value? : Nat → Nat → Cursor → Option (Node × List Line)
  | 0, _, _ => none
  | fuel + 1, n, c =>
    if !isVoid c.here then do
      let (node, after) ← inline? fuel (n + 1) c
      return (node, ← after.closed?)
    else match dropIdle c.below with
      | l :: below =>
        if l.indent = n && l.isEntry then do
          let (items, rest) ← entries? fuel n (l :: below)
          return (.sequence items, rest)
        else nested? fuel n (l :: below)
      | [] => some (.nothing, [])

end

/-! ## §3 Documents -/

/-- Something can start at a place: not every character starts something, and a quoted scalar has
to end. -/
def Cursor.startsToken (fuel : Nat) (c : Cursor) : Bool :=
  match c.here with
  | d :: rest =>
    if d = '"' || d = '\'' then (quoted? d fuel [] { c with here := rest }).isSome
    else !(d == '@' || d == '\x60' || d == '%')
  | [] => true

/-- Text that is not read may stand here: it starts with something that can start, and not with a
tab where a line starts. -/
def Cursor.mayBeIgnored (fuel : Nat) (c : Cursor) : Bool :=
  let here := skipBlanks c.here
  if !isVoid here then Cursor.startsToken fuel { c with here }
  else match dropIdle c.below with
    | [] => true
    | l :: below => !l.startsWithTab && Cursor.startsToken fuel ⟨l.text, l.ending, below⟩

/-- The node at the root of a document. -/
def root? (fuel : Nat) (ls : List Line) : Option (Node × Cursor) :=
  match dropIdle ls with
  | [] => some (.nothing, ⟨[], none, []⟩)
  | l :: below =>
    if l.startsWithTab then none
    else if l.isEntry || (key? fuel l.text).isSome then
      (block? fuel 0 (l :: below)).map fun (node, rest) => (node, ⟨[], none, rest⟩)
    else inline? fuel 0 ⟨l.text, l.ending, below⟩

/-- The lines of a document, up to the line that separates it from the next. -/
def documentLines (ls : List Line) : List Line := ls.takeWhile fun l => !l.isStart && !l.isEnd

/-- The place after the line that ends a document; the end of the text if there is none. -/
def afterDocument (ls : List Line) : Cursor :=
  match ls.dropWhile fun l => !l.isStart && !l.isEnd with
  | [] => ⟨[], none, []⟩
  | l :: below => ⟨l.text.drop 3, l.ending, below⟩

/-- The root of a document and the place after it. A document may start after a line `---`, on
which a node without keys may stand; a line `...` has to end one. -/
def firstRoot? (fuel : Nat) (ls : List Line) : Option (Node × Cursor) :=
  match ls with
  | [] => some (.nothing, ⟨[], none, []⟩)
  | l :: below =>
    if l.isEnd then none
    else if l.isStart then
      let here := skipBlanks (l.text.drop 3)
      let below := documentLines below
      if isVoid here then root? fuel below else inline? fuel 0 ⟨here, l.ending, below⟩
    else root? fuel (l :: documentLines below)

/-- The node of the first document. What follows its root, and the document after it, are not
read. -/
def firstDocument? (ls : List Line) : Option Node := do
  let fuel := weight ls
  let ls := dropIdle ls
  let (node, rest) ← firstRoot? fuel ls
  if rest.mayBeIgnored fuel && (afterDocument (ls.drop 1)).mayBeIgnored fuel then some node
  else none

/-- The text without a byte-order mark at its front. -/
def withoutMark : List Char → List Char
  | '\uFEFF' :: rest => rest
  | text => text

/-- The first document of a text; `none` if the text is malformed. -/
def parse? (text : List Char) : Option Node :=
  let text := withoutMark text
  if text.all isAllowed then firstDocument? (lines text) else none

end NameIndex.Yaml
