/-!
# YAML nodes

A YAML document as a tree. Scalars remember whether they were written plainly, because only plain
ones can mean something else than their text.
-/

namespace NameIndex.Yaml

/-- A node of a document. -/
inductive Node where
  /-- A scalar: written plainly or in another style, and its text. -/
  | scalar (plain : Bool) (text : String)
  | sequence (items : List Node)
  | mapping (pairs : List (Node × Node))
  deriving Repr

/-- What stands where nothing is written: the empty plain scalar. -/
def Node.nothing : Node := .scalar true ""

end NameIndex.Yaml
