import NameIndex.Manifest.Error
import NameIndex.Manifest.Expr

/-!
# Operators

What operators make of values. Numbers are added, subtracted, multiplied and divided, with a
fraction as soon as one operand is one; strings, lists and tuples are joined by `+` and repeated by
`*`. Everything else that has no meaning here is a failure.
-/

namespace NameIndex.Manifest

/-- The result of an operation. -/
abbrev Outcome : Type → Type := Except ScriptError

namespace Operation

/-! ## §1 Numbers -/

/-- A number as a fraction; none for other values. -/
def fraction? : Value → Option (Outcome Binary64)
  | .int n => some ((Binary64.ofInt? n).elim (.error .tooLarge) .ok)
  | .float x => some (.ok x)
  | _ => none

/-- The fraction nearest to a quotient of units. -/
def rounded (num : Int) (den : Nat) : Outcome Value :=
  ((Binary64.ofQuotient? num den).map Value.float).elim (.error .tooLarge) .ok

/-- The nearest fraction to a quotient of two fractions. -/
def quotient (x y : Binary64) : Outcome Binary64 :=
  if y.isZero then .error .divisionByZero
  else
    let num := x.value * Binary64.one * (if y.negative then -1 else 1)
    (Binary64.ofQuotient? num y.units).elim (.error .tooLarge) .ok

/-- An operation on fractions. -/
def onFractions (op : BinaryOp) (x y : Binary64) : Outcome Value :=
  match op with
  | .add => rounded (x.value + y.value) 1
  | .sub => rounded (x.value - y.value) 1
  | .mul => rounded (x.value * y.value) Binary64.one
  | .div => do return .float (← quotient x y)
  | .floorDiv => do rounded ((← quotient x y).floor * Binary64.one) 1
  | .mod => if y.isZero then .error .divisionByZero else rounded (x.value.fmod y.value) 1
  | _ => .error .operands

/-- An operation on integers. -/
def onIntegers (op : BinaryOp) (m n : Int) : Outcome Value :=
  match op with
  | .add => .ok (.int (m + n))
  | .sub => .ok (.int (m - n))
  | .mul => .ok (.int (m * n))
  | .floorDiv => if n = 0 then .error .divisionByZero else .ok (.int (m.fdiv n))
  | .mod => if n = 0 then .error .divisionByZero else .ok (.int (m.fmod n))
  | .div =>
    match Binary64.ofInt? m, Binary64.ofInt? n with
    | some x, some y => onFractions .div x y
    | _, _ => .error .tooLarge
  | _ => .error .operands

/-! ## §2 Sequences -/

/-- The size from which on a repeated sequence is too large. -/
def sizeLimit : Nat := 1 <<< 30

/-- A list repeated. -/
def repeated {α : Type} (items : List α) (n : Int) : Outcome (List α) :=
  if n ≤ 0 || items.isEmpty then .ok []
  else if sizeLimit ≤ items.length * n.toNat then .error .tooLarge
  else .ok (List.replicate n.toNat items).flatten

/-- A sequence repeated; none for other values. -/
def times? (n : Int) : Value → Option (Outcome Value)
  | .string s => some do return .string (String.ofList (← repeated s.toList n))
  | .list items => some do return .list (← repeated items n)
  | .tuple items => some do return .tuple (← repeated items n)
  | _ => none

/-! ## §3 Operators between two operands -/

/-- An operation on numbers of which one may be a fraction. -/
def onNumbers (op : BinaryOp) (left right : Value) : Outcome Value :=
  match fraction? left, fraction? right with
  | some x, some y => do onFractions op (← x) (← y)
  | _, _ => .error .operands

/-- Addition, multiplication and the like. -/
def arithmetic (op : BinaryOp) (left right : Value) : Outcome Value :=
  match op, left, right with
  | _, .int m, .int n => onIntegers op m n
  | .add, .string a, .string b => .ok (.string (a ++ b))
  | .add, .list a, .list b => .ok (.list (a ++ b))
  | .add, .tuple a, .tuple b => .ok (.tuple (a ++ b))
  | .mul, .int n, v => (times? n v).getD (onNumbers op left right)
  | .mul, v, .int n => (times? n v).getD (onNumbers op left right)
  | _, _, _ => onNumbers op left right

/-- The text occurs in another one. -/
def occurs (part : List Char) : List Char → Bool
  | [] => part.isEmpty
  | c :: rest => part.isPrefixOf (c :: rest) || occurs part rest

/-- A value is in another one: an item, a key, or a part of a string. -/
def isIn (v container : Value) : Outcome Bool :=
  match container, v with
  | .list items, v => .ok (items.any v.equals)
  | .tuple items, v => .ok (items.any v.equals)
  | .dict entries, v =>
    if v.isHashable then .ok (entries.any fun e => v.equals e.1) else .error .badKey
  | .string s, .string part => .ok (occurs part.toList s.toList)
  | _, _ => .error .operands

/-- The order of two values, tested. -/
def ordered (test : Ordering → Bool) (left right : Value) : Outcome Value :=
  match left.compare? right with
  | some o => .ok (.bool (test o))
  | none => .error .operands

/-- The value of an operator between two operands that are both evaluated. -/
def binary (op : BinaryOp) (left right : Value) : Outcome Value :=
  match op with
  | .eq => .ok (.bool (left.equals right))
  | .ne => .ok (.bool (!left.equals right))
  | .lt => ordered (· == .lt) left right
  | .gt => ordered (· == .gt) left right
  | .le => ordered (· != .gt) left right
  | .ge => ordered (· != .lt) left right
  | .isIn => do return .bool (← isIn left right)
  | .notIn => do return .bool (!(← isIn left right))
  | .or => .ok (if left.isTrue then left else right)
  | .and => .ok (if left.isTrue then right else left)
  | op => arithmetic op left right

/-- The value of an operator before its operand. -/
def unary (op : UnaryOp) (v : Value) : Outcome Value :=
  match op, v with
  | .not, v => .ok (.bool (!v.isTrue))
  | .neg, .int n => .ok (.int (-n))
  | .neg, .float x => .ok (.float x.neg)
  | .pos, .int n => .ok (.int n)
  | .pos, .float x => .ok (.float x)
  | .invert, .int n => .ok (.int (-n - 1))
  | _, _ => .error .operands

/-! ## §4 Parts of values -/

/-- The place that an index stands for; from the end if it is negative. -/
def place? (size : Nat) (index : Int) : Option Nat :=
  let i := if index < 0 then index + size else index
  if 0 ≤ i ∧ i < size then some i.toNat else none

/-- The item of a sequence at an index. -/
def itemAt {α : Type} (items : List α) (key : Value) : Outcome α :=
  match key with
  | .int n =>
    match (place? items.length n).bind (items[·]?) with
    | some item => .ok item
    | none => .error .outOfRange
  | _ => .error .operands

/-- A byte of a string as a string; a byte that is no character by itself is not shown. -/
def byteText (b : UInt8) : String :=
  if b < 0x80 then String.singleton (Char.ofNat b.toNat) else "\uFFFD"

/-- The part of a value under a key. -/
def index (container key : Value) : Outcome Value :=
  match container with
  | .list items => itemAt items key
  | .tuple items => itemAt items key
  | .string s => do return .string (byteText (← itemAt s.toUTF8.toList key))
  | .dict entries =>
    if !key.isHashable then .error .badKey
    else match entries.find? fun e => key.equals e.1 with
      | some e => .ok e.2
      | none => .error .badKey
  | _ => .error .operands

/-- The items of a value that can be gone through; of a dictionary, its keys. -/
def items : Value → Outcome (List Value)
  | .list items => .ok items
  | .tuple items => .ok items
  | .dict entries => .ok (entries.map (·.1))
  | _ => .error .notIterable

end Operation

end NameIndex.Manifest
