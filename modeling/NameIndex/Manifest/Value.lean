import NameIndex.Number.Binary64
import NameIndex.Text.Quoted

/-!
# Values of a manifest

What expressions give. Values have a type, which messages name, a truth value, and a text; strings
inside other values are shown quoted. Values of different types are never equal, except that an
integer equals the fraction of the same size.

## Main definitions

* `Value.typeName`, `Value.isTrue`, `Value.text`.
* `Value.equals`, `Value.compare?` — equality and order.
* `Value.strings` — a list of strings, nested lists taken apart.
-/

namespace NameIndex.Manifest

/-- The functions that a manifest can call. -/
inductive Builtin where
  | print
  | fail
  | glob
  deriving Repr, DecidableEq

/-- The name of a function. -/
def Builtin.name : Builtin → String
  | .print => "print"
  | .fail => "fail"
  | .glob => "glob"

/-- A value. -/
inductive Value where
  | none
  | bool (b : Bool)
  | int (n : Int)
  | float (x : Binary64)
  | string (text : String)
  | list (items : List Value)
  | tuple (items : List Value)
  | dict (entries : List (Value × Value))
  | builtin (function : Builtin)
  /-- A value of a type that no expression here gives, such as a range or a set. Nothing is known of
  it but the name of its type. -/
  | other (type : String)
  deriving Repr

namespace Value

/-! ## §1 Types and truth -/

/-- The name of the type of a value. -/
def typeName : Value → String
  | .none => "NoneType"
  | .bool _ => "bool"
  | .int _ => "int"
  | .float _ => "float"
  | .string _ => "string"
  | .list _ => "list"
  | .tuple _ => "tuple"
  | .dict _ => "dict"
  | .builtin _ => "builtin_function_or_method"
  | .other type => type

/-- Whether a value counts as true: nothing, zero and what is empty do not. -/
def isTrue : Value → Bool
  | .none => false
  | .bool b => b
  | .int n => n != 0
  | .float x => !x.isZero
  | .string s => !s.isEmpty
  | .list items => !items.isEmpty
  | .tuple items => !items.isEmpty
  | .dict entries => !entries.isEmpty
  | .builtin _ => true
  | .other _ => true

/-! ## §2 Texts -/

/-- The exponent from which on a fraction is written with an exponent. -/
def exponentLimit : Int := 6

/-- An exponent: a sign and at least two digits. -/
def exponentText (n : Int) : List Char :=
  let digits := Nat.toDigits 10 n.natAbs
  (if n < 0 then '-' else '+') :: ((if digits.length < 2 then ['0'] else []) ++ digits)

/-- A fraction in the fewest digits, with an exponent if it is small or large, and otherwise always
with a point. -/
def floatText (x : Binary64) : List Char :=
  let d := x.shortest
  let body :=
    if d.exponent < -4 || exponentLimit ≤ d.exponent then
      match d.digits with
      | first :: rest =>
        first :: ((if rest.isEmpty then [] else '.' :: rest) ++ 'e' :: exponentText d.exponent)
      | [] => []
    else if d.exponent < 0 then
      '0' :: '.' :: (List.replicate (-d.exponent - 1).toNat '0' ++ d.digits)
    else
      let places := d.exponent.toNat + 1
      let whole := d.digits.take places
      let part := d.digits.drop places
      whole ++ List.replicate (places - whole.length) '0'
        ++ '.' :: (if part.isEmpty then ['0'] else part)
  if x.negative then '-' :: body else body

/-- Texts one after the other, with commas between them. -/
def joined (texts : List String) : String := String.intercalate ", " texts

mutual

/-- A value as it is shown inside others: strings are quoted. -/
def shown : Value → String
  | .none => "None"
  | .bool true => "True"
  | .bool false => "False"
  | .int n => n.repr
  | .float x => String.ofList (floatText x)
  | .string s => Text.quoted s
  | .list items => "[" ++ joined (shownItems items) ++ "]"
  | .tuple [item] => "(" ++ shown item ++ ",)"
  | .tuple items => "(" ++ joined (shownItems items) ++ ")"
  | .dict entries => "\x7b" ++ joined (shownEntries entries) ++ "\x7d"
  | .builtin f => "<built-in function " ++ f.name ++ ">"
  | .other type => "<" ++ type ++ ">"

/-- Values as they are shown. -/
def shownItems : List Value → List String
  | [] => []
  | v :: rest => shown v :: shownItems rest

/-- The entries of a dictionary as they are shown. -/
def shownEntries : List (Value × Value) → List String
  | [] => []
  | (k, v) :: rest => (shown k ++ ": " ++ shown v) :: shownEntries rest

end

/-- The text of a value: strings as they are. -/
def text : Value → String
  | .string s => s
  | v => v.shown

/-! ## §3 Equality and order -/

/-- A number in units of the smallest fraction. -/
def units? : Value → Option Int
  | .int n => some (n * Binary64.one)
  | .float x => some x.value
  | _ => Option.none

mutual

/-- Two values are equal. -/
def equals : Value → Value → Bool
  | .none, .none => true
  | .bool a, .bool b => a == b
  | .string a, .string b => a == b
  | .list a, .list b => equalItems a b
  | .tuple a, .tuple b => equalItems a b
  | .dict a, .dict b => a.length == b.length && equalEntries a b
  | .builtin f, .builtin g => f == g
  | a, b =>
    match a.units?, b.units? with
    | some m, some n => m == n
    | _, _ => false

/-- Two sequences of values are equal. -/
def equalItems : List Value → List Value → Bool
  | [], [] => true
  | a :: as, b :: bs => equals a b && equalItems as bs
  | _, _ => false

/-- Every entry has its equal in another dictionary. -/
def equalEntries : List (Value × Value) → List (Value × Value) → Bool
  | [], _ => true
  | (k, v) :: rest, entries => hasEntry k v entries && equalEntries rest entries

/-- A dictionary has an entry. -/
def hasEntry (k v : Value) : List (Value × Value) → Bool
  | [] => false
  | (k', v') :: rest => (equals k k' && equals v v') || hasEntry k v rest

end

mutual

/-- The value can be the key of a dictionary. -/
def isHashable : Value → Bool
  | .list _ => false
  | .dict _ => false
  | .tuple items => areHashable items
  | _ => true

/-- All values can be keys. -/
def areHashable : List Value → Bool
  | [] => true
  | v :: rest => isHashable v && areHashable rest

end

mutual

/-- The order of two values; none if they have no order. -/
def compare? : Value → Value → Option Ordering
  | .bool a, .bool b => some (Ord.compare a b)
  | .string a, .string b => some (Ord.compare a b)
  | .list a, .list b => compareItems? a b
  | .tuple a, .tuple b => compareItems? a b
  | a, b =>
    match a.units?, b.units? with
    | some m, some n => some (Ord.compare m n)
    | _, _ => Option.none

/-- The order of two sequences: that of their first items that are not equal, or else the shorter
one comes first. -/
def compareItems? : List Value → List Value → Option Ordering
  | [], [] => some .eq
  | [], _ :: _ => some .lt
  | _ :: _, [] => some .gt
  | a :: as, b :: bs => if equals a b then compareItems? as bs else compare? a b

end

end Value

/-! ## §4 Lists of strings -/

/-- Why a value is no list of strings. -/
inductive StringListError where
  /-- The value is no list. -/
  | notList (name type : String)
  /-- An item, at its place in the list it stands in, is neither a string nor a list. -/
  | notString (name : String) (place : Nat) (type : String)
  deriving Repr, DecidableEq

/-- The wording of the error. -/
def StringListError.message : StringListError → String
  | .notList name type => name ++ " must be a list (got " ++ type ++ ")"
  | .notString name place type =>
    name ++ "[" ++ place.repr ++ "] must be a string (got " ++ type ++ ")"

namespace Value

mutual

/-- The strings in the item at a place. -/
def itemStrings (name : String) (place : Nat) : Value → Except StringListError (List String)
  | .string s => .ok [s]
  | .list items => listStrings name 0 items
  | v => .error (.notString name place v.typeName)

/-- The strings in the items from a place on. -/
def listStrings (name : String) (place : Nat) : List Value → Except StringListError (List String)
  | [] => .ok []
  | v :: rest => do
    return (← itemStrings name place v) ++ (← listStrings name (place + 1) rest)

end

/-- The strings of a list, with nested lists taken apart; `name` is what messages call it. -/
def strings (name : String) : Value → Except StringListError (List String)
  | .list items => listStrings name 0 items
  | v => .error (.notList name v.typeName)

end Value

end NameIndex.Manifest
