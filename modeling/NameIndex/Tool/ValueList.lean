/-!
# Values of repeatable options

An option that may be given more than once collects its values in the order in which they are
given; shown as one text, they are joined by commas.
-/

namespace NameIndex

/-- The values of a repeatable option. -/
structure ValueList where
  values : List String
  deriving Repr, DecidableEq

namespace ValueList

/-- No value yet. -/
def empty : ValueList := ⟨[]⟩

/-- One more value. -/
def add (l : ValueList) (v : String) : ValueList := ⟨l.values ++ [v]⟩

/-- The values as one text. -/
def text (l : ValueList) : String := String.intercalate "," l.values

/-- The texts that are shown while the values arrive one after the other, starting with the one
before the first. -/
def texts (l : ValueList) : List String → List String
  | [] => [l.text]
  | v :: rest => l.text :: (l.add v).texts rest

end ValueList

end NameIndex
