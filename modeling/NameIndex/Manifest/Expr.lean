import NameIndex.Number.Binary64

/-!
# Expressions and statements of a manifest
-/

namespace NameIndex.Manifest

/-- An operator between two operands. -/
inductive BinaryOp where
  | or | and
  | eq | ne | lt | gt | le | ge | isIn | notIn
  | bitOr | bitXor | bitAnd | shiftLeft | shiftRight
  | sub | add
  | mul | mod | div | floorDiv
  deriving Repr, DecidableEq

/-- An operator before its operand. -/
inductive UnaryOp where
  | not | neg | pos | invert
  deriving Repr, DecidableEq

/-- What a value is assigned to: a name, or several targets that take a sequence apart. -/
inductive Target where
  | name (name : String)
  | several (targets : List Target)
  deriving Repr

mutual

/-- An expression. -/
inductive Expr where
  | name (name : String)
  | int (n : Int)
  | float (x : Binary64)
  | string (text : String)
  | list (items : List Expr)
  | tuple (items : List Expr)
  | dict (entries : List (Expr × Expr))
  | unary (op : UnaryOp) (operand : Expr)
  | binary (op : BinaryOp) (left right : Expr)
  | conditional (condition yes no : Expr)
  | index (container key : Expr)
  /-- The field of a value; no value here has any. -/
  | field (container : Expr) (name : String)
  | call (function : Expr) (positional : List Expr) (named : List (String × Expr))
  /-- A list of what `body` gives, under clauses that bind names and filter. -/
  | comprehension (body : Expr) (clauses : List Clause)
  deriving Repr

/-- A clause of a comprehension. -/
inductive Clause where
  | each (target : Target) (items : Expr)
  | filter (condition : Expr)
  deriving Repr

end

/-- A statement. -/
inductive Statement where
  | evaluate (e : Expr)
  | assign (target : Target) (e : Expr)
  /-- Changes the value of a name by an operator. -/
  | amend (name : String) (e : Expr)
  /-- Takes names from another file. -/
  | load (file : String) (names : List String)
  | pass
  deriving Repr

end NameIndex.Manifest
