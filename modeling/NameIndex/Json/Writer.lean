import NameIndex.Json.Basic
import NameIndex.Text.Hex

/-!
# Writing JSON

A value over several lines, two columns deeper at each level, empty arrays and objects on one
line and no line end after the last one. Besides quotes, backslashes and control characters,
strings escape the characters that are unsafe inside markup and the two line separators.
-/

namespace NameIndex.Json

open NameIndex.Text

/-! ## §1 Strings -/

/-- The character needs a numeric escape. -/
def needsCode (c : Char) : Bool :=
  c.toNat < 0x20 || c == '<' || c == '>' || c == '&' || c == '\u2028' || c == '\u2029'

/-- A character of a string. -/
def writeChar (c : Char) : List Char :=
  if c = '"' ∨ c = '\\' then ['\\', c]
  else if c = '\x08' then ['\\', 'b']
  else if c = '\x0c' then ['\\', 'f']
  else if c = '\n' then ['\\', 'n']
  else if c = '\r' then ['\\', 'r']
  else if c = '\t' then ['\\', 't']
  else if needsCode c then '\\' :: 'u' :: Hex.fixed Hex.lowerDigit 4 c.toNat
  else [c]

/-- A string between its quotes. -/
def writeString (s : String) : List Char := '"' :: (s.toList.flatMap writeChar ++ ['"'])

/-! ## §2 Values -/

/-- The start of a line at a level. -/
def lineStart (level : Nat) : List Char := '\n' :: List.replicate (2 * level) ' '

/-- Items between an opening and a closing character, one on a line. -/
def writeGroup (openChar closeChar : Char) (level : Nat) : List (List Char) → List Char
  | [] => [openChar, closeChar]
  | items =>
    openChar :: lineStart (level + 1)
      ++ List.intercalate (',' :: lineStart (level + 1)) items
      ++ lineStart level ++ [closeChar]

mutual

/-- A value at a level. -/
def write (level : Nat) : Json → List Char
  | .null => "null".toList
  | .bool true => "true".toList
  | .bool false => "false".toList
  | .number text => text.toList
  | .string s => writeString s
  | .array items => writeGroup '[' ']' level (writeItems (level + 1) items)
  | .object members => writeGroup '\x7b' '\x7d' level (writeMembers (level + 1) members)

/-- The items of an array. -/
def writeItems (level : Nat) : List Json → List (List Char)
  | [] => []
  | item :: rest => write level item :: writeItems level rest

/-- The members of an object. -/
def writeMembers (level : Nat) : List (String × Json) → List (List Char)
  | [] => []
  | (name, v) :: rest =>
    (writeString name ++ [':', ' '] ++ write level v) :: writeMembers level rest

end

/-- The text of a value. -/
def text (v : Json) : String := String.ofList (write 0 v)

end NameIndex.Json
