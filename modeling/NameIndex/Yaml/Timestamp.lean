import NameIndex.Text.Numeral

/-!
# Timestamps

Dates and times in the spellings that a plain scalar can have: a date `2020-1-31`, a date and a
time divided by `T` with a zone, or divided by spaces without one. Fields other than the year take
one digit or two, and the fields have to name a real day and time.
-/

namespace NameIndex.Yaml.Timestamp

open NameIndex.Text

/-- A year that has a leap day. -/
def isLeap (year : Nat) : Bool := year % 4 == 0 && (year % 100 != 0 || year % 400 == 0)

/-- The number of days of a month. -/
def daysIn (year month : Nat) : Nat :=
  if month = 2 then if isLeap year then 29 else 28
  else if month = 4 || month = 6 || month = 9 || month = 11 then 30
  else 31

/-- A number of one digit, or of two if two follow each other. -/
def short? : List Char → Option (Nat × List Char)
  | a :: b :: rest => do
    let first ← Numeral.digit? a
    match Numeral.digit? b with
    | some second => return (10 * first + second, rest)
    | none => return (first, b :: rest)
  | [a] => (Numeral.digit? a).map (·, [])
  | [] => none

/-- A number of exactly two digits. -/
def pair? : List Char → Option (Nat × List Char)
  | a :: b :: rest => do
    return (10 * (← Numeral.digit? a) + (← Numeral.digit? b), rest)
  | _ => none

/-- The text after a character. -/
def after? (c : Char) : List Char → Option (List Char)
  | d :: rest => if c = d then some rest else none
  | [] => none

/-- The text after a date. -/
def date? (text : List Char) : Option (List Char) := do
  let year ← Numeral.nat? (text.takeWhile Char.isDigit)
  if (text.takeWhile Char.isDigit).length ≠ 4 then none
  let (month, rest) ← short? (← after? '-' (text.dropWhile Char.isDigit))
  let (day, rest) ← short? (← after? '-' rest)
  if 1 ≤ month ∧ month ≤ 12 ∧ 1 ≤ day ∧ day ≤ daysIn year month then some rest else none

/-- The text after a fraction of a second, which may be left out. -/
def fraction (text : List Char) : List Char :=
  match text with
  | mark :: d :: rest =>
    if (mark = '.' ∨ mark = ',') ∧ d.isDigit then rest.dropWhile Char.isDigit else text
  | _ => text

/-- The text after a time of day. -/
def time? (text : List Char) : Option (List Char) := do
  let (hour, rest) ← short? text
  let (minute, rest) ← short? (← after? ':' rest)
  let (second, rest) ← short? (← after? ':' rest)
  if hour < 24 ∧ minute < 60 ∧ second < 60 then some (fraction rest) else none

/-- The text after a zone: `Z`, or hours and minutes with a sign. -/
def zone? : List Char → Option (List Char)
  | 'Z' :: rest => some rest
  | sign :: rest => do
    if sign ≠ '+' ∧ sign ≠ '-' then none
    let (hours, rest) ← pair? rest
    let (minutes, rest) ← pair? (← after? ':' rest)
    if hours ≤ 24 ∧ minutes ≤ 60 then some rest else none
  | [] => none

/-- The text after a date: nothing, or a time of day in one of the spellings. -/
def isTail : List Char → Bool
  | [] => true
  | ' ' :: rest => time? (rest.dropWhile (· = ' ')) == some []
  | c :: rest => (c == 'T' || c == 't') && (time? rest).bind zone? == some []

/-- The text is a timestamp. -/
def isTimestamp (text : List Char) : Bool := (date? text).any isTail

end NameIndex.Yaml.Timestamp
