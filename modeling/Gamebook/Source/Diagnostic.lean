import Gamebook.Source.Location

/-!
A diagnostic pins a message to a place in a named source. Its position is kept
as it was given; line, column and excerpt are those of the nearest offset
inside the text.
-/
namespace Gamebook

structure Diagnostic where
  message : String
  source : List Char
  position : Int
  filename : String
  deriving DecidableEq, Repr

namespace Diagnostic

def location (d : Diagnostic) : Location :=
  Source.place d.source d.position

def line (d : Diagnostic) : Nat := d.location.line

def column (d : Diagnostic) : Nat := d.location.column

/-- The column counted from one. -/
def offset (d : Diagnostic) : Nat := d.column + 1

/-- The source line the diagnostic points into. -/
def text (d : Diagnostic) : String :=
  String.ofList (Source.lineAt d.source d.position)

/-- The same line with the offending character marked. -/
def context (d : Diagnostic) : String :=
  String.ofList (Source.excerpt d.source d.position)

/-- One line: where, and what. -/
def summary (d : Diagnostic) : String :=
  s!"{d.filename}:{d.line}:{d.column}: {d.message}"

/-- The summary with the marked excerpt under it. -/
def report (d : Diagnostic) : String :=
  s!"{d.summary}\n    {d.context}"

end Diagnostic
end Gamebook
