import NameIndex.Manifest.Operation
import NameIndex.Manifest.Parser
import NameIndex.Manifest.Scope
import NameIndex.Text.Distance

/-!
# Evaluating a manifest

Statements are evaluated one after the other; expressions from left to right. What is printed is
collected, and stays when the evaluation fails later on. How files are selected is given from
outside.

## Main definitions

* `eval` — the value of an expression.
* `evaluate` — what a text prints, and the values of its names.
-/

namespace NameIndex.Manifest

/-! ## §1 The setting -/

/-- How files are selected: by patterns and exclusions. -/
abbrev Selector : Type := List String → List String → Except PatternError (List String)

/-- An evaluation that may fail and that prints. -/
abbrev Run : Type → Type := ExceptT ScriptError (StateM (List String))

/-- What names stand for. -/
structure Env where
  selector : Selector
  /-- The names that the file assigns somewhere. -/
  assigned : List String
  /-- The names assigned so far. -/
  globals : List (String × Value)
  /-- The names bound by clauses, innermost first. -/
  locals : List (String × Value)

/-- The value of a name: bound by a clause, assigned in the file, or predefined. -/
def Env.value (env : Env) (name : String) : Outcome Value :=
  match env.locals.lookup name with
  | some v => .ok v
  | none =>
    if name ∈ env.assigned then (env.globals.lookup name).elim (.error (.unassigned name)) .ok
    else (predefined? name).elim (.error (.unassigned name)) .ok

/-- Prints a line. -/
def printLine (line : String) : Run Unit := modify (· ++ [line])

/-! ## §2 Targets -/

mutual

/-- What a target binds its names to; several targets take a sequence of as many items apart. -/
def Target.bind : Target → Value → Outcome (List (String × Value))
  | .name n, v => .ok [(n, v)]
  | .several targets, v => do bindAll targets (← Operation.items v)

/-- What targets bind their names to. -/
def bindAll : List Target → List Value → Outcome (List (String × Value))
  | [], [] => .ok []
  | t :: targets, v :: values => do return (← t.bind v) ++ (← bindAll targets values)
  | _, _ => .error .unevenTargets

end

/-! ## §3 Functions -/

/-- The separator that a call names, which is a space by default. -/
def separator : List (String × Value) → Outcome String
  | [] => .ok " "
  | [("sep", .string s)] => .ok s
  | _ => .error .badArgument

/-- The texts of values, joined. -/
def message (positional : List Value) (named : List (String × Value)) : Outcome String := do
  return String.intercalate (← separator named) (positional.map Value.text)

/-- The parameters of a selection. -/
structure GlobArguments where
  patterns : Option Value
  excludes : Option Value

namespace GlobArguments

/-- The names of the parameters. -/
def includeName : String := "include"

/-- The names of the parameters. -/
def excludeName : String := "exclude"

/-- A value that has to be a list. -/
def listOnly (parameter : String) (byName : Bool) (v : Value) : Except GlobError Value :=
  match v with
  | .list items => .ok (.list items)
  | v => .error (.notList parameter byName v.typeName)

/-- The parameters that are given by their place. -/
def ofPositional (positional : List Value) : Except GlobError GlobArguments :=
  match positional with
  | [] => .ok ⟨none, none⟩
  | [p] => do return ⟨← listOnly includeName false p, none⟩
  | [p, x] => do return ⟨← listOnly includeName false p, ← listOnly excludeName false x⟩
  | _ => .error (.tooManyArguments positional.length 2)

/-- Takes a parameter that is given by its name. -/
def addNamed (a : GlobArguments) (argument : String × Value) : Except GlobError GlobArguments :=
  let (name, v) := argument
  if name = includeName then
    if a.patterns.isSome then .error (.repeatedArgument name)
    else do return { a with patterns := ← listOnly name true v }
  else if name = excludeName then
    if a.excludes.isSome then .error (.repeatedArgument name)
    else do return { a with excludes := ← listOnly name true v }
  else .error (.unknownArgument name (Text.Distance.nearest? name [includeName]))

end GlobArguments

/-- The strings of a parameter. -/
def parameterStrings (name : String) (v : Value) : Except GlobError (List String) :=
  match v.strings name with
  | .ok strings => .ok strings
  | .error cause => .error (.notStrings cause)

/-- Selects files, as the arguments of a call say. -/
def selectFiles (selector : Selector) (positional : List Value) (named : List (String × Value)) :
    Except GlobError Value := do
  let arguments ← named.foldlM GlobArguments.addNamed (← GlobArguments.ofPositional positional)
  match arguments.patterns with
  | none => throw (.missingArgument GlobArguments.includeName)
  | some patterns =>
    let patterns ← parameterStrings GlobArguments.includeName patterns
    let excludes ← parameterStrings GlobArguments.excludeName (arguments.excludes.getD (.list []))
    match selector patterns excludes with
    | .ok names => return .list (names.map .string)
    | .error cause => throw (.badPattern cause)

/-- Calls a function. -/
def call (selector : Selector) (function : Value) (positional : List Value)
    (named : List (String × Value)) : Run Value := do
  match function with
  | .builtin .print =>
    printLine (← message positional named)
    return .none
  | .builtin .fail => throw (.stopped (← message positional named))
  | .builtin .glob =>
    match selectFiles selector positional named with
    | .ok v => return v
    | .error cause => throw (.glob cause)
  | _ => throw .notCallable

/-! ## §4 Expressions -/

/-- Adds an entry to a dictionary, which has every key once. -/
def addEntry (entries : List (Value × Value)) (k v : Value) : Outcome (List (Value × Value)) :=
  if !k.isHashable || entries.any (fun e => k.equals e.1) then .error .badKey
  else .ok (entries ++ [(k, v)])

mutual

/-- The value of an expression. -/
def eval (env : Env) : Expr → Run Value
  | .name n => env.value n
  | .int n => return .int n
  | .float x => return .float x
  | .string s => return .string s
  | .list items => return .list (← evalItems env items)
  | .tuple items => return .tuple (← evalItems env items)
  | .dict entries => return .dict (← evalEntries env [] entries)
  | .unary op x => do Operation.unary op (← eval env x)
  | .binary .or x y => do
    let left ← eval env x
    if left.isTrue then return left else eval env y
  | .binary .and x y => do
    let left ← eval env x
    if left.isTrue then eval env y else return left
  | .binary op x y => do
    let left ← eval env x
    let right ← eval env y
    Operation.binary op left right
  | .conditional condition yes no => do
    if (← eval env condition).isTrue then eval env yes else eval env no
  | .index container key => do
    let c ← eval env container
    let k ← eval env key
    Operation.index c k
  | .field container n => do
    let _ ← eval env container
    throw (.noField n)
  | .call function positional named => do
    let f ← eval env function
    let positional ← evalItems env positional
    let named ← evalNamed env named
    call env.selector f positional named
  | .comprehension body clauses => do
    return .list (← evalClauses env (fun env => do return [← eval env body]) clauses)

/-- The values of expressions. -/
def evalItems (env : Env) : List Expr → Run (List Value)
  | [] => return []
  | x :: rest => do
    let v ← eval env x
    return v :: (← evalItems env rest)

/-- The entries of a dictionary, after those that are there. -/
def evalEntries (env : Env) (done : List (Value × Value)) :
    List (Expr × Expr) → Run (List (Value × Value))
  | [] => return done
  | (k, v) :: rest => do
    let key ← eval env k
    let v ← eval env v
    evalEntries env (← addEntry done key v) rest

/-- The values of arguments that are given by name. -/
def evalNamed (env : Env) : List (String × Expr) → Run (List (String × Value))
  | [] => return []
  | (n, x) :: rest => do
    let v ← eval env x
    return (n, v) :: (← evalNamed env rest)

/-- All that `body` gives under the clauses, in sequence. -/
def evalClauses (env : Env) (body : Env → Run (List Value)) : List Clause → Run (List Value)
  | [] => body env
  | .each target items :: rest => do
    let items ← Operation.items (← eval env items)
    items.foldlM
      (fun done item => do
        let bound ← target.bind item
        return done ++ (← evalClauses { env with locals := bound ++ env.locals } body rest))
      []
  | .filter condition :: rest => do
    if (← eval env condition).isTrue then evalClauses env body rest else return []

end

/-! ## §5 Files -/

/-- The setting after a statement. -/
def evalStatement (env : Env) : Statement → Run Env
  | .evaluate e => do
    let _ ← eval env e
    return env
  | .assign target e => do
    let bound ← target.bind (← eval env e)
    return { env with globals := env.globals ++ bound }
  | .amend name _ => throw (.unassigned name)
  | .load file _ => throw (.noLoading file)
  | .pass => return env

/-- What evaluating a manifest gives. -/
structure Evaluation where
  /-- The lines printed, also before a failure. -/
  printed : List String
  /-- The values of the assigned names. -/
  globals : Except ScriptError (List (String × Value))

/-- Evaluates the text of a manifest; `none` stands for a content that is no text. -/
def evaluate (selector : Selector) (text : Option (List Char)) : Evaluation :=
  match text.bind parse? with
  | none => ⟨[], .error .malformed⟩
  | some file =>
    match Scope.check file with
    | .error e => ⟨[], .error e⟩
    | .ok assigned =>
      let (outcome, printed) := (file.foldlM evalStatement ⟨selector, assigned, [], []⟩).run []
      ⟨printed, outcome.map (·.globals)⟩

end NameIndex.Manifest
