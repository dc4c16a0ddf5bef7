import NameIndex.Index.Event
import NameIndex.Tool.Level

/-!
# Logs and progress on the console

Log lines are made for eyes: a short mark for the level, the message, and the fields in the order of
their names, with escapes for colours. Progress is reported in place: a line that says what was
read, and a bar for the segments that are indexed.
-/

namespace NameIndex.Console

/-! ## §1 Log lines -/

/-- A text in a style of the terminal, which is given by its number. -/
def styled (style : Nat) (text : String) : String :=
  "\x1b[" ++ style.repr ++ "m" ++ text ++ "\x1b[0m"

/-- The style of messages that are shown by default. -/
def bold : Nat := 1

/-- The style of the mark of such messages. -/
def green : Nat := 32

/-- The style of the names of fields. -/
def cyan : Nat := 36

/-- The line of a message that a manifest prints; an empty message leaves its mark alone. -/
def infoLine (message : String) : String :=
  styled green "INF" ++ (if message.isEmpty then "" else " " ++ styled bold message) ++ "\n"

/-- Fields in the order of their names. -/
def sortedFields (fields : List (String × Nat)) : List (String × Nat) :=
  fields.mergeSort fun a b => !(b.1 < a.1)

/-- The line of an event of index maintenance. -/
def eventLine (e : Event) : String :=
  "DBG " ++ e.message
    ++ String.join ((sortedFields e.fields).map fun (name, n) =>
      " " ++ styled cyan (name ++ "=") ++ n.repr)
    ++ "\n"

/-- What a log of a level shows of printed messages. -/
def infoText (log : Level) (messages : List String) : String :=
  if log.shows .info then String.join (messages.map infoLine) else ""

/-- What a log of a level shows of events. -/
def eventText (log : Level) (events : List Event) : String :=
  if log.shows .debug then String.join ((Event.arranged events).map eventLine) else ""

/-! ## §2 Progress -/

/-- The report that segments were read from files. -/
def loadProgress (segments files : Nat) : String :=
  "read " ++ segments.repr ++ " segments from " ++ files.repr ++ " files\r\n"

/-- The width of a full bar. -/
def barWidth : Nat := 50

/-- The report that all of the segments are indexed; the last one ends its line. -/
def indexProgress (segments : Nat) (last : Bool) : String :=
  "indexing "
    ++ (if segments = 0 then "\r\n"
      else "[" ++ String.ofList (List.replicate barWidth '=') ++ ">] " ++ segments.repr ++ "/"
        ++ segments.repr ++ " segments\r")
    ++ (if last then "\r\n" else "")

end NameIndex.Console
