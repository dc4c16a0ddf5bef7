import NameIndex.Manifest.Expr
import NameIndex.Manifest.Token

/-!
# Reading a manifest

From tokens to statements. Operators bind in ten levels, from `or` to the multiplications;
comparisons do not chain, and signs bind closer than any operator between two operands. `none` says
that the tokens make up no manifest.

Functions and control flow are no part of a manifest, so their keywords are malformed where a
statement or operand is expected.

## Main definitions

* `parse?` — the statements of a text.
-/

namespace NameIndex.Manifest

/-! ## §1 Operators -/

/-- The level of the operator `not`. -/
def notLevel : Nat := 2

/-- The level of comparisons. -/
def comparisonLevel : Nat := 3

/-- The level above all operators between two operands. -/
def operandLevel : Nat := 10

/-- The operator that a sign stands for between two operands, and its level. -/
def signOperator? : String → Option (BinaryOp × Nat)
  | "==" => some (.eq, comparisonLevel)
  | "!=" => some (.ne, comparisonLevel)
  | "<" => some (.lt, comparisonLevel)
  | ">" => some (.gt, comparisonLevel)
  | "<=" => some (.le, comparisonLevel)
  | ">=" => some (.ge, comparisonLevel)
  | "|" => some (.bitOr, 4)
  | "^" => some (.bitXor, 5)
  | "&" => some (.bitAnd, 6)
  | "<<" => some (.shiftLeft, 7)
  | ">>" => some (.shiftRight, 7)
  | "-" => some (.sub, 8)
  | "+" => some (.add, 8)
  | "*" => some (.mul, 9)
  | "%" => some (.mod, 9)
  | "/" => some (.div, 9)
  | "//" => some (.floorDiv, 9)
  | _ => none

/-- The operator that tokens start with, its level, and the tokens after it. -/
def operator? : List Token → Option (BinaryOp × Nat × List Token)
  | .keyword "or" :: rest => some (.or, 0, rest)
  | .keyword "and" :: rest => some (.and, 1, rest)
  | .keyword "in" :: rest => some (.isIn, comparisonLevel, rest)
  | .keyword "not" :: .keyword "in" :: rest => some (.notIn, comparisonLevel, rest)
  | .sign s :: rest => (signOperator? s).map fun (op, level) => (op, level, rest)
  | _ => none

/-- The operator that a sign stands for before its operand. -/
def unaryOperator? : String → Option UnaryOp
  | "-" => some .neg
  | "+" => some .pos
  | "~" => some .invert
  | _ => none

/-- The tokens after a sign. -/
def expect? (sign : String) : List Token → Option (List Token)
  | .sign s :: rest => if s = sign then some rest else none
  | _ => none

/-- The tokens end a list of expressions. -/
def endsList : List Token → Bool
  | [] => true
  | .newline :: _ => true
  | .sign s :: _ => s ∈ ["=", ")", "]", "\x7d", ";"]
  | _ => false

/-! ## §2 Targets -/

mutual

/-- The target that an expression stands for. -/
def Expr.toTarget? : Expr → Option Target
  | .name n => some (.name n)
  | .list items => (toTargets? items).map .several
  | .tuple items => (toTargets? items).map .several
  | _ => none

/-- The targets that expressions stand for. -/
def toTargets? : List Expr → Option (List Target)
  | [] => some []
  | e :: rest => do return (← e.toTarget?) :: (← toTargets? rest)

end

/-! ## §3 Expressions -/

/-- An argument of a call: its name, if it is given by name, and its value. -/
abbrev Argument : Type := Option String × Expr

/-- The call with these arguments; none may be given by place after one given by name. -/
def Expr.ofCall? (function : Expr) (arguments : List Argument) : Option Expr :=
  let positional := arguments.takeWhile (·.1.isNone)
  let named := arguments.dropWhile (·.1.isNone)
  if named.all (·.1.isSome) then
    some (.call function (positional.map (·.2)) (named.filterMap fun (n, e) => n.map (·, e)))
  else none

mutual

/-- An expression that is no bare tuple. -/
def test? : Nat → List Token → Option (Expr × List Token)
  | 0, _ => none
  | fuel + 1, ts => do
    let (x, ts) ← level? fuel 0 ts
    match ts with
    | .keyword "if" :: ts =>
      let (condition, ts) ← level? fuel 0 ts
      match ts with
      | .keyword "else" :: ts =>
        let (no, ts) ← test? fuel ts
        return (.conditional condition x no, ts)
      | _ => none
    | _ => return (x, ts)

/-- An expression of operators that bind at a level or closer. -/
def level? : Nat → Nat → List Token → Option (Expr × List Token)
  | 0, _, _ => none
  | fuel + 1, level, ts =>
    if operandLevel ≤ level then operand? fuel ts
    else
      match level == notLevel, ts with
      | true, .keyword "not" :: ts => do
        let (x, ts) ← level? fuel level ts
        return (.unary .not x, ts)
      | _, ts => do
        let (x, ts) ← level? fuel (level + 1) ts
        chain? fuel level true x ts

/-- What operators of a level make of a left operand; comparisons do not chain. -/
def chain? : Nat → Nat → Bool → Expr → List Token → Option (Expr × List Token)
  | 0, _, _, _, _ => none
  | fuel + 1, level, first, x, ts =>
    match operator? ts with
    | some (op, opLevel, rest) =>
      if opLevel < level then some (x, ts)
      else if !first && opLevel == comparisonLevel then none
      else do
        let (y, rest) ← level? fuel (opLevel + 1) rest
        chain? fuel level false (.binary op x y) rest
    | none => some (x, ts)

/-- An operand with what is attached to it. -/
def operand? : Nat → List Token → Option (Expr × List Token)
  | 0, _ => none
  | fuel + 1, ts => do
    let (x, ts) ← primary? fuel ts
    suffixes? fuel x ts

/-- The fields, indices and calls attached to an operand. -/
def suffixes? : Nat → Expr → List Token → Option (Expr × List Token)
  | 0, _, _ => none
  | fuel + 1, x, ts =>
    match ts with
    | .sign "." :: .name n :: ts => suffixes? fuel (.field x n) ts
    | .sign "." :: _ => none
    | .sign "[" :: ts => do
      let (key, ts) ← bare? fuel ts
      suffixes? fuel (.index x key) (← expect? "]" ts)
    | .sign "(" :: ts => do
      let (arguments, ts) ← arguments? fuel true ts
      suffixes? fuel (← Expr.ofCall? x arguments) ts
    | _ => some (x, ts)

/-- An operand without what is attached to it. -/
def primary? : Nat → List Token → Option (Expr × List Token)
  | 0, _ => none
  | fuel + 1, ts =>
    match ts with
    | .name n :: ts => some (.name n, ts)
    | .int n :: ts => some (.int n, ts)
    | .float x :: ts => some (.float x, ts)
    | .string s :: ts => some (.string s, ts)
    | .sign "[" :: ts => listRest? fuel ts
    | .sign "\x7b" :: ts => do
      let (entries, ts) ← entries? fuel ts
      return (.dict entries, ts)
    | .sign "(" :: .sign ")" :: ts => some (.tuple [], ts)
    | .sign "(" :: ts => do
      let (x, ts) ← bare? fuel ts
      return (x, ← expect? ")" ts)
    | .sign s :: ts => do
      let op ← unaryOperator? s
      let (x, ts) ← operand? fuel ts
      return (.unary op x, ts)
    | _ => none

/-- A list after its bracket: a comprehension, or items. -/
def listRest? : Nat → List Token → Option (Expr × List Token)
  | 0, _ => none
  | fuel + 1, ts =>
    match ts with
    | .sign "]" :: ts => some (.list [], ts)
    | _ => do
      let (first, ts) ← test? fuel ts
      match ts with
      | .keyword "for" :: _ =>
        let (clauses, ts) ← clauses? fuel ts
        return (.comprehension first clauses, ← expect? "]" ts)
      | _ =>
        let (more, ts, _) ← items? fuel ts
        return (.list (first :: more), ← expect? "]" ts)

/-- Further items after commas; whether a comma stands at their end. -/
def items? : Nat → List Token → Option (List Expr × List Token × Bool)
  | 0, _ => none
  | fuel + 1, ts =>
    match ts with
    | .sign "," :: ts =>
      if endsList ts then some ([], ts, true)
      else do
        let (x, ts) ← test? fuel ts
        let (more, ts, trailing) ← items? fuel ts
        return (x :: more, ts, trailing)
    | _ => some ([], ts, false)

/-- An expression in brackets: a tuple without brackets of its own is one too. -/
def bare? : Nat → List Token → Option (Expr × List Token)
  | 0, _ => none
  | fuel + 1, ts => do
    let (first, ts) ← test? fuel ts
    let (more, ts, trailing) ← items? fuel ts
    return (if more.isEmpty && !trailing then first else .tuple (first :: more), ts)

/-- The entries of a dictionary up to its end. -/
def entries? : Nat → List Token → Option (List (Expr × Expr) × List Token)
  | 0, _ => none
  | fuel + 1, ts =>
    match ts with
    | .sign "\x7d" :: ts => some ([], ts)
    | _ => do
      let (key, ts) ← test? fuel ts
      let (v, ts) ← test? fuel (← expect? ":" ts)
      match ts with
      | .sign "," :: ts =>
        let (more, ts) ← entries? fuel ts
        return ((key, v) :: more, ts)
      | _ => return ([(key, v)], ← expect? "\x7d" ts)

/-- The arguments of a call up to its end. -/
def arguments? : Nat → Bool → List Token → Option (List Argument × List Token)
  | 0, _, _ => none
  | fuel + 1, first, ts =>
    match ts with
    | .sign ")" :: ts => some ([], ts)
    | _ => do
      let ts ← if first then some ts else expect? "," ts
      match ts with
      | .sign ")" :: ts => if first then none else return ([], ts)
      | .name n :: .sign "=" :: ts =>
        let (x, ts) ← test? fuel ts
        let (more, ts) ← arguments? fuel false ts
        return ((some n, x) :: more, ts)
      | _ =>
        let (x, ts) ← test? fuel ts
        let (more, ts) ← arguments? fuel false ts
        return ((none, x) :: more, ts)

/-- The clauses of a comprehension. -/
def clauses? : Nat → List Token → Option (List Clause × List Token)
  | 0, _ => none
  | fuel + 1, ts =>
    match ts with
    | .keyword "for" :: ts => do
      let (target, ts) ← loopTarget? fuel ts
      match ts with
      | .keyword "in" :: ts =>
        let (items, ts) ← level? fuel 0 ts
        let (more, ts) ← clauses? fuel ts
        return (.each target items :: more, ts)
      | _ => none
    | .keyword "if" :: ts => do
      let (condition, ts) ← level? fuel 0 ts
      let (more, ts) ← clauses? fuel ts
      return (.filter condition :: more, ts)
    | _ => some ([], ts)

/-- What a clause binds: one operand, or several after commas. -/
def loopTarget? : Nat → List Token → Option (Target × List Token)
  | 0, _ => none
  | fuel + 1, ts => do
    let (first, ts) ← operand? fuel ts
    let (more, ts, several) ← loopTargets? fuel ts
    let target ← if several then (Expr.tuple (first :: more)).toTarget? else first.toTarget?
    return (target, ts)

/-- Further targets after commas; whether there is a comma at all. -/
def loopTargets? : Nat → List Token → Option (List Expr × List Token × Bool)
  | 0, _ => none
  | fuel + 1, ts =>
    match ts with
    | .sign "," :: .keyword "in" :: ts => some ([], .keyword "in" :: ts, true)
    | .sign "," :: ts => do
      let (x, ts) ← operand? fuel ts
      let (more, ts, _) ← loopTargets? fuel ts
      return (x :: more, ts, true)
    | _ => some ([], ts, false)

end

/-! ## §4 Statements -/

/-- An expression without brackets around it: a tuple may not end in a comma. -/
def unbracketed? (fuel : Nat) (ts : List Token) : Option (Expr × List Token) := do
  let (first, ts) ← test? fuel ts
  let (more, ts, trailing) ← items? fuel ts
  if trailing then none
  else return (if more.isEmpty then first else .tuple (first :: more), ts)

/-- An entry of the list of names that are taken from a file: the name here, and the name there. -/
def loadEntry? : List Token → Option (String × String × List Token)
  | .sign "," :: .string s :: ts => some (s, s, ts)
  | .sign "," :: .name n :: .sign "=" :: .string s :: ts => some (n, s, ts)
  | _ => none

/-- The names that are taken from a file, up to the end of the list. Names that start with an
underscore are private to their file. -/
def loadNames? : Nat → List Token → Option (List String × List Token)
  | 0, _ => none
  | fuel + 1, ts =>
    match ts with
    | .sign ")" :: ts => some ([], ts)
    | .sign "," :: .sign ")" :: ts => some ([], ts)
    | ts => do
      let (here, there, ts) ← loadEntry? ts
      if there.toList.head? = some '_' then none
      let (more, ts) ← loadNames? fuel ts
      return (here :: more, ts)

/-- A statement. -/
def statement? (fuel : Nat) (ts : List Token) : Option (Statement × List Token) :=
  match ts with
  | .keyword "pass" :: ts => some (.pass, ts)
  | .keyword "load" :: .sign "(" :: .string file :: ts => do
    let (names, ts) ← loadNames? fuel ts
    if names.isEmpty then none else return (.load file names, ts)
  | _ => do
    let (x, ts) ← unbracketed? fuel ts
    match ts with
    | .sign "=" :: ts =>
      let target ← x.toTarget?
      let (v, ts) ← unbracketed? fuel ts
      return (.assign target v, ts)
    | .sign s :: ts =>
      if s ∈ ["+=", "-=", "*=", "/=", "//=", "%=", "&=", "|=", "^=", "<<=", ">>="] then
        match x with
        | .name n =>
          let (v, ts) ← unbracketed? fuel ts
          return (.amend n v, ts)
        | _ => none
      else return (.evaluate x, .sign s :: ts)
    | _ => return (.evaluate x, ts)

/-- The statements of the tokens. Statements on one line are divided by semicolons, of which one
may stand at its end. -/
def statements? (exprFuel : Nat) : Nat → List Token → Option (List Statement)
  | 0, _ => none
  | fuel + 1, ts =>
    match ts with
    | [] => some []
    | _ => do
      let (s, ts) ← statement? exprFuel ts
      match ts with
      | .newline :: ts => return s :: (← statements? exprFuel fuel ts)
      | .sign ";" :: .newline :: ts => return s :: (← statements? exprFuel fuel ts)
      | .sign ";" :: t :: ts => return s :: (← statements? exprFuel fuel (t :: ts))
      | _ => none

/-- The statements of a text; `none` if it is malformed. -/
def parse? (text : List Char) : Option (List Statement) := do
  let ts ← Token.scan? text
  statements? (16 * ts.length + 32) (ts.length + 1) ts

end NameIndex.Manifest
