import NameIndex.Manifest.Error
import NameIndex.Manifest.Expr

/-!
# Names of a manifest

Which names a manifest may use. A name is assigned at most once in the whole file; a name is known
if it is assigned somewhere in the file, bound by a clause around it, or predefined. The file is
checked as a whole before anything in it is evaluated.
-/

namespace NameIndex.Manifest

/-- The predefined names and their values. -/
def predefined? : String → Option Value
  | "None" => some .none
  | "True" => some (.bool true)
  | "False" => some (.bool false)
  | "print" => some (.builtin .print)
  | "fail" => some (.builtin .fail)
  | "glob" => some (.builtin .glob)
  | _ => none

mutual

/-- The names that a target binds. -/
def Target.names : Target → List String
  | .name n => [n]
  | .several targets => targetNames targets

/-- The names that targets bind. -/
def targetNames : List Target → List String
  | [] => []
  | t :: rest => t.names ++ targetNames rest

end

namespace Statement

/-- The names that a statement assigns. -/
def assigned : Statement → List String
  | .assign target _ => target.names
  | .amend name _ => [name]
  | .load _ names => names
  | .evaluate _ => []
  | .pass => []

end Statement

namespace Scope

/-- The first name that stands to its left already. -/
def repeated? (seen : List String) : List String → Option String
  | [] => none
  | n :: rest => if n ∈ seen then some n else repeated? (n :: seen) rest

/-- A name is known. -/
def checkName (known : List String) (n : String) : Except ScriptError Unit :=
  if n ∈ known || (predefined? n).isSome then .ok () else .error (.undefined n)

mutual

/-- Every name in an expression is known. -/
def checkExpr (known : List String) : Expr → Except ScriptError Unit
  | .name n => checkName known n
  | .int _ => .ok ()
  | .float _ => .ok ()
  | .string _ => .ok ()
  | .list items => checkExprs known items
  | .tuple items => checkExprs known items
  | .dict entries => checkEntries known entries
  | .unary _ x => checkExpr known x
  | .binary _ x y => do
    checkExpr known x
    checkExpr known y
  | .conditional condition yes no => do
    checkExpr known condition
    checkExpr known yes
    checkExpr known no
  | .index container key => do
    checkExpr known container
    checkExpr known key
  | .field container _ => checkExpr known container
  | .call function positional named => do
    checkExpr known function
    checkExprs known positional
    match repeated? [] (named.map (·.1)) with
    | some n => throw (.repeatedArgument n)
    | none => checkNamed known named
  | .comprehension body clauses => do
    let inner ← checkClauses known true clauses
    checkExpr inner body

/-- Every name in the expressions is known. -/
def checkExprs (known : List String) : List Expr → Except ScriptError Unit
  | [] => .ok ()
  | x :: rest => do
    checkExpr known x
    checkExprs known rest

/-- Every name in the entries is known. -/
def checkEntries (known : List String) : List (Expr × Expr) → Except ScriptError Unit
  | [] => .ok ()
  | (k, v) :: rest => do
    checkExpr known k
    checkExpr known v
    checkEntries known rest

/-- Every name in the arguments is known. -/
def checkNamed (known : List String) : List (String × Expr) → Except ScriptError Unit
  | [] => .ok ()
  | (_, v) :: rest => do
    checkExpr known v
    checkNamed known rest

/-- Every name in the clauses is known; the names that are known after them. What the first clause
goes through stands outside the comprehension. -/
def checkClauses (known : List String) (first : Bool) :
    List Clause → Except ScriptError (List String)
  | [] => .ok known
  | .each target items :: rest => do
    let inner := target.names ++ known
    checkExpr (if first then known else inner) items
    checkClauses inner false rest
  | .filter condition :: rest => do
    checkExpr known condition
    checkClauses known false rest

end

/-- Every name in a statement is known. -/
def checkStatement (known : List String) : Statement → Except ScriptError Unit
  | .evaluate e => checkExpr known e
  | .assign _ e => checkExpr known e
  | .amend _ e => checkExpr known e
  | .load _ _ => .ok ()
  | .pass => .ok ()

/-- The names of a file are assigned once and known where they are used; the assigned ones. -/
def check (file : List Statement) : Except ScriptError (List String) := do
  let names := file.flatMap Statement.assigned
  match repeated? [] names with
  | some n => throw (.reassigned n)
  | none =>
    file.forM (checkStatement names)
    return names

end Scope

end NameIndex.Manifest
