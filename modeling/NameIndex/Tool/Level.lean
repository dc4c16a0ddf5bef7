import NameIndex.Text.Fold
import NameIndex.Text.Numeral

/-!
# Levels of a log

A level is a number; a message is shown if its own level is at least that of the log. The usual
levels have names.
-/

namespace NameIndex

/-- A level of a log. -/
structure Level where
  number : Int
  deriving Repr, DecidableEq

/-- Why a text is no level. -/
inductive LevelError where
  /-- Neither a name nor a number. -/
  | unknown (text : String)
  /-- A number that is too far from zero. -/
  | outOfBounds (number : Int)
  deriving Repr, DecidableEq

/-- The wording of the error. -/
def LevelError.message : LevelError → String
  | .unknown text => "Unknown Level String: '" ++ text ++ "', defaulting to NoLevel"
  | .outOfBounds n => "Out-Of-Bounds Level: '" ++ n.repr ++ "', defaulting to NoLevel"

namespace Level

/-- How texts are read as levels. -/
abbrev Reader : Type := String → Except LevelError Level

/-- The level of index maintenance. -/
def debug : Level := ⟨0⟩

/-- The level of what a manifest prints. -/
def info : Level := ⟨1⟩

/-- The names of levels, in any letter case. The empty name is the level of messages without one. -/
def named : List (String × Level) :=
  [("trace", ⟨-1⟩), ("debug", debug), ("info", info), ("warn", ⟨2⟩), ("error", ⟨3⟩), ("fatal", ⟨4⟩),
    ("panic", ⟨5⟩), ("disabled", ⟨7⟩), ("", ⟨6⟩)]

/-- The level that a text stands for: a name, or a number in eight bits. -/
def parse : Reader := fun text =>
  match named.find? fun l => Text.Fold.same l.1 text with
  | some l => .ok l.2
  | none =>
    match Text.Numeral.int? text.toList with
    | some n =>
      if !Text.Numeral.fitsInt64 n then .error (.unknown text)
      else if n < -128 ∨ 127 < n then .error (.outOfBounds n)
      else .ok ⟨n⟩
    | none => .error (.unknown text)

/-- A log of this level shows messages of another one. -/
def shows (log message : Level) : Bool := log.number ≤ message.number

end Level

end NameIndex
