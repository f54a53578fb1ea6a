import Gamebook.Script.Scope

/-!
Reading a whole script. What was read before a fault is kept beside it.
-/
namespace Gamebook

/-- Read on to the end of the source or to a fault. -/
def Parse.run (setting : Setting) (scope : Scope) (s : Progress) :
    EStateM.Result Fault Progress Unit :=
  if _hs : s.cursor.rest = [] then .ok () s
  else
    match _h : Parse.step setting scope s with
    | .ok next t => run setting next t
    | .error fault t => .error fault t
termination_by s.cursor.rest.length
decreasing_by exact (Parse.Takes.step setting scope).lt _h _hs

/-- The line of an event in a trace. -/
def Event.trace? : Event → Option String
  | .note n => some s!"{n.subject} at {n.pos}"
  | .warning w => some s!"Warning: {w.text}"
  | .record _ => none

/-- A line of the log. -/
def logLine (text : String) : String := s!"[txgc] {text}\n"

/-- What reading a script comes to. -/
structure Script where
  document : Document
  /-- What happened, in order. -/
  events : List Event
  /-- Why reading stopped, if it did before the end. -/
  fault? : Option Fault

namespace Script

def ofResult : EStateM.Result Fault Progress Unit → Script
  | .ok _ s => ⟨s.document, s.events.reverse, none⟩
  | .error fault s => ⟨s.document, s.events.reverse, some fault⟩

def read (setting : Setting) (source : List Char) : Script :=
  ofResult (Parse.run setting .top (.ofText source))

def warnings (s : Script) : List Warning :=
  s.events.filterMap fun
    | .warning w => some w
    | _ => none

/-- The trace of reading, with a last line when all was read. -/
def trace (s : Script) : List String :=
  s.events.filterMap Event.trace? ++
    if s.fault?.isNone then [s!"parsed {s.document.describe}"] else []

def log (s : Script) : String := String.join (s.trace.map logLine)

end Script

/-- A parser reads its source as often as it is asked to. -/
structure Parser where
  setting : Setting := {}
  source : List Char
  /-- How often it has done so. -/
  readings : Nat := 0

/-- What a parser gives: every reading makes a document of its own, known by its number. -/
structure Parser.Result where
  number : Nat
  script : Script

/-- Read the source from its start. -/
def Parser.parse (p : Parser) : Parser.Result × Parser :=
  (⟨p.readings, Script.read p.setting p.source⟩, { p with readings := p.readings + 1 })

end Gamebook
