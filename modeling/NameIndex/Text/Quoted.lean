import NameIndex.Text.Hex
import NameIndex.Text.Printable

/-!
# Quoted text

Text between double quotes, as error messages and printed values show it: a quote and a
backslash take a backslash, seven control characters have a letter of their own, the other
characters that do not print are written as hexadecimal code points, and everything else stands
for itself.
-/

namespace NameIndex.Text

/-- The letter after the backslash for the control characters that have one. -/
def Quoted.letter? (c : Char) : Option Char :=
  match c.toNat with
  | 0x07 => some 'a'
  | 0x08 => some 'b'
  | 0x0C => some 'f'
  | 0x0A => some 'n'
  | 0x0D => some 'r'
  | 0x09 => some 't'
  | 0x0B => some 'v'
  | _ => none

/-- A character of quoted text. Code points below 0x80 take two digits, those of the basic plane
four, all others eight. -/
def Quoted.char (c : Char) : List Char :=
  if c = '"' ∨ c = '\\' then ['\\', c]
  else if isPrintable c then [c]
  else match Quoted.letter? c with
    | some l => ['\\', l]
    | none =>
      if c.toNat < 0x80 then '\\' :: 'x' :: Hex.fixed Hex.lowerDigit 2 c.toNat
      else if c.toNat < 0x10000 then '\\' :: 'u' :: Hex.fixed Hex.lowerDigit 4 c.toNat
      else '\\' :: 'U' :: Hex.fixed Hex.lowerDigit 8 c.toNat

/-- The text between double quotes. -/
def quoted (s : String) : String :=
  String.ofList ('"' :: (s.toList.flatMap Quoted.char ++ ['"']))

end NameIndex.Text
