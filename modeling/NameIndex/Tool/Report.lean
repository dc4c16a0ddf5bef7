import NameIndex.Tool.Dump
import NameIndex.Tool.Options

/-!
# Reports

What the tool answers: a report for each question, kind by kind in the order labels, symbols,
floating hypotheses, disjoint partners, and at last the disjointness constraints. A report is
printed in one or more pieces, and each piece is printed as a whole or not at all.

## Main definitions

* `Index.reports` — the reports on all questions.
* `Report.pieces` — a report as it is printed.
* `Piece.deliver` — pieces on an output that may be full.
-/

namespace NameIndex

/-! ## §1 Questions and reports -/

/-- What an index is asked for. -/
structure Questions where
  labels : List String
  symbols : List String
  floats : List String
  disjoint : List String
  disjointList : Bool
  deriving Repr, DecidableEq

/-- The questions of a command line. -/
def Options.questions (o : Options) : Questions :=
  ⟨o.labels, o.symbols, o.floats, o.disjoint, o.disjointList⟩

/-- The answer to one question. -/
inductive Report where
  | label (name : String) (answer : Option LabelAnswer)
  | symbol (name : String) (answer : Option SymbolAnswer)
  | float (name : String) (answer : Option FloatAnswer)
  /-- The partners of a variable, unless its name is unknown. -/
  | disjoint (name : String) (partners : Option (List String))
  /-- A disjointness constraint, and the names of its variables. -/
  | constraint (answer : DisjointAnswer) (vars : List String)
  deriving Repr, DecidableEq

namespace Index

/-- The names of handles. -/
def atomNames (ix : Index) (atoms : List Atom) : Except Fault (List String) :=
  atoms.mapM ix.atomName

/-- The report on the partners of a variable. -/
def disjointReport (ix : Index) (name : String) : Except Fault Report :=
  match ix.atom? name with
  | none => .ok (.disjoint name none)
  | some a => do return .disjoint name (some (← ix.atomNames (ix.disjointFrom a)))

/-- The report on a disjointness constraint. -/
def constraintReport (ix : Index) (a : DisjointAnswer) : Except Fault Report := do
  return .constraint a (← ix.atomNames a.vars)

/-- The reports on all questions. -/
def reports (ix : Index) (q : Questions) : Except Fault (List Report) := do
  let disjoint ← q.disjoint.mapM ix.disjointReport
  let constraints ← if q.disjointList then ix.disjointList.mapM ix.constraintReport else pure []
  return q.labels.map (fun n => .label n (ix.label? n))
    ++ q.symbols.map (fun n => .symbol n (ix.symbol? n))
    ++ q.floats.map (fun n => .float n (ix.float? n))
    ++ disjoint ++ constraints

end Index

/-! ## §2 Pieces -/

/-- A text that is printed as a whole. A piece that `mayFail` ends the output if it cannot be
printed; any other is just left out. -/
structure Piece where
  text : String
  mayFail : Bool
  deriving Repr, DecidableEq

namespace Report

/-- A piece of a line. -/
def line (text : String) : Piece := ⟨text, true⟩

/-- The answer in full, if that is asked for. -/
def inFull (dump : Bool) (text : String) : List Piece := if dump then [⟨text, false⟩] else []

/-- The names after a colon, up to the end of the line. -/
def namePieces (names : List String) : List Piece :=
  names.map (fun n => line (" " ++ n)) ++ [line "\n"]

/-- The report that something is not found. -/
def notFound (kind name : String) : List Piece := [line (kind ++ " " ++ name ++ ": not found\n")]

/-- A report as it is printed, with answers in full or not. -/
def pieces (dump : Bool) : Report → List Piece
  | .label name none => notFound "label" name
  | .label name (some a) =>
    line ("label " ++ name ++ ": " ++ a.address.text ++ "\n") :: inFull dump a.dump
  | .symbol name none => notFound "symbol" name
  | .symbol name (some a) =>
    line ("symbol " ++ name ++ ": " ++ a.type.text ++ " " ++ a.atom.text ++ " at " ++ a.address.text
      ++ " (constant at " ++ (a.constant.map TokenAddress.text).getD "none" ++ ")\n")
      :: inFull dump a.dump
  | .float name none => notFound "float" name
  | .float name (some a) =>
    line ("float " ++ name ++ ": " ++ a.label ++ " " ++ a.typecode ++ " " ++ name ++ " at "
      ++ a.address.text ++ "\n") :: inFull dump a.dump
  | .disjoint name none => notFound "disjoint" name
  | .disjoint name (some partners) => line ("disjoint " ++ name ++ ":") :: namePieces partners
  | .constraint a vars =>
    line ("dv " ++ a.address.text ++ ":") :: namePieces vars ++ inFull dump a.dump

end Report

/-- Prints pieces on an output that takes no more than `room` bytes, or any number of them: what is
printed, and whether the output went to its end. -/
def Piece.deliver (room : Option Nat) : List Piece → String × Bool
  | [] => ("", true)
  | p :: rest =>
    let size := p.text.utf8ByteSize
    if room.all (size ≤ ·) then
      let (text, done) := Piece.deliver (room.map (· - size)) rest
      (p.text ++ text, done)
    else if p.mayFail then ("", false)
    else Piece.deliver room rest

end NameIndex
