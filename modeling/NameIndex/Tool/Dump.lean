import NameIndex.Index.Lookup

/-!
# Answers in full

An answer field by field, each with the type of its value. Strings and lists say how long they are,
unless they are empty.
-/

namespace NameIndex.Dump

/-- A type and a value of it. -/
def typed (type text : String) : String := "(" ++ type ++ ") " ++ text

/-- The length of something that is not empty. -/
def lengthMark (n : Nat) : String := if n = 0 then "" else "(len=" ++ n.repr ++ ") "

/-- A string, with its length in bytes. -/
def stringText (s : String) : String :=
  typed "string" (lengthMark s.utf8ByteSize ++ Text.quoted s)

def atomText (a : Atom) : String := typed "atom.Atom" a.text

def statementText (a : StatementAddress) : String := typed "segment.StatementAddress" a.text

def tokenText (a : TokenAddress) : String := typed "segment.TokenAddress" a.text

/-- Lines between braces, each with a comma after it but the last. -/
def braced (indent : String) (lines : List String) : String :=
  "\x7b\n" ++ String.intercalate ",\n" (lines.map (indent ++ ·))
    ++ (if lines.isEmpty then "" else "\n")

/-- The fields of an answer. -/
def answer (type : String) (fields : List (String × String)) : String :=
  "(*nameset." ++ type ++ ")("
    ++ braced " " (fields.map fun (name, text) => name ++ ": " ++ text) ++ "\x7d)\n"

/-- An address that may be missing. -/
def optionalToken : Option TokenAddress → String
  | some a => "(*segment.TokenAddress)(" ++ a.text ++ ")"
  | none => "(*segment.TokenAddress)(<nil>)"

/-- A list of handles. -/
def atomsText (atoms : List Atom) : String :=
  typed "[]atom.Atom" (lengthMark atoms.length ++ braced "  " (atoms.map atomText) ++ " \x7d")

end NameIndex.Dump

namespace NameIndex

open Dump

def LabelAnswer.dump (a : LabelAnswer) : String :=
  answer "LookupLabel" [("Address", statementText a.address)]

def SymbolAnswer.dump (a : SymbolAnswer) : String :=
  answer "LookupSymbol"
    [("Type", typed "segment.SymbolType" a.type.text), ("Atom", atomText a.atom),
      ("Address", tokenText a.address), ("ConstAddress", optionalToken a.constant)]

def FloatAnswer.dump (a : FloatAnswer) : String :=
  answer "LookupFloat"
    [("Address", statementText a.address), ("Label", stringText a.label),
      ("Typecode", stringText a.typecode), ("TypecodeAtom", atomText a.typecodeAtom)]

def DisjointAnswer.dump (a : DisjointAnswer) : String :=
  answer "LookupGlobalDv" [("Address", statementText a.address), ("Vars", atomsText a.vars)]

end NameIndex
