/-!
# Letter case

Texts compared without regard to letter case. Only the letters that fold to ASCII ones matter in
this library: the ASCII letters themselves, the long s and the Kelvin sign.
-/

namespace NameIndex.Text.Fold

/-- A letter without its case. -/
def char (c : Char) : Char :=
  if c = '\u017F' then 's' else if c = '\u212A' then 'k' else c.toLower

/-- A text without its letter case. -/
def chars (text : String) : List Char := text.toList.map char

/-- Two texts differ in nothing but letter case. -/
def same (a b : String) : Bool := chars a == chars b

end NameIndex.Text.Fold
