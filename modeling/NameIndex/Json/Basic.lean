/-!
# JSON values

A JSON value with its numbers as they are written and its members in the order of the text,
repeated names included.
-/

namespace NameIndex

/-- A JSON value. -/
inductive Json where
  | null
  | bool (value : Bool)
  /-- A number, kept as its text. -/
  | number (text : String)
  | string (text : String)
  | array (items : List Json)
  | object (members : List (String × Json))
  deriving Repr

end NameIndex
