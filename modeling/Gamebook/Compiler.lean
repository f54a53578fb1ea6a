import Gamebook.Data.Json
import Gamebook.Document.Form
import Gamebook.Files.Disk
import Gamebook.Files.Name
import Gamebook.Script.Read

/-!
The compiler: from the text of a script to the JSON text of its document. It keeps
the warnings of every script it has read to the end, and prints what it is doing
when asked to. A missing file and a complaint about the script are reported; any
other trouble is the caller's.
-/
namespace Gamebook

structure Compiler where
  verbose : Bool := false
  functions : Option Registry := none
  /-- The indent of the JSON text, which has one line if there is none. -/
  indent : Option Int := some 2
  warnings : List Warning := []

namespace Compiler

def keep (c : Compiler) (warnings : List Warning) : Compiler :=
  { c with warnings := c.warnings ++ warnings }

end Compiler

/-- Why a script does not compile. -/
inductive Trouble where
  | complaint (diagnostic : Diagnostic)
  | longNumeral (digits : Nat)
  | form (error : FormError)
  | refused (path : String) (why : Refused)
  | undecodable (error : Utf8.Error)
  /-- The name of the output cannot be made from the input's. -/
  | unnamed (input : String)

def FormError.message : FormError → String
  | unknownConstant name => quoted name
  | blankNode => ""

def Trouble.message : Trouble → String
  | complaint d => d.report
  | longNumeral digits => Numeral.tooLongMessage digits
  | form e => e.message
  | refused path why => why.message path
  | undecodable e => e.message
  | unnamed input => s!"PosixPath({quoted input}) has an empty name"

/-- The compiler at work, and what it has printed. -/
structure Session where
  compiler : Compiler
  printed : String := ""

abbrev Compile := EStateM Trouble Session

def Trouble.ofFault (source : List Char) (filename : String) : Fault → Trouble
  | .refused what pos => complaint (what.diagnose source filename pos)
  | .longNumeral digits => longNumeral digits

namespace Compile

def print (text : String) : Compile Unit :=
  modify fun s => { s with printed := s.printed ++ text }

/-- Print if the compiler is verbose. -/
def trace (text : String) : Compile Unit := do
  if (← get).compiler.verbose then print text

def log (text : String) : Compile Unit := trace (logLine text)

def keep (warnings : List Warning) : Compile Unit :=
  modify fun s => { s with compiler := s.compiler.keep warnings }

/-- A warning of the caller's own. -/
def warn (w : Warning) : Compile Unit := do
  keep [w]
  log s!"Warning: {w.text}"

def orElse (f : ε → Trouble) : Except ε α → Compile α
  | .ok a => return a
  | .error e => throw (f e)

/-- The document of a script, and its engine form. -/
def script (source : List Char) (filename : String) : Compile (Document × Data) := do
  log s!"Parsing {filename}..."
  let script := Script.read { registry := (← get).compiler.functions } source
  trace script.log
  match script.fault? with
  | some fault => throw (.ofFault source filename fault)
  | none =>
    keep script.warnings
    log s!"Parsed {script.document.describe}"
    return (script.document, ← orElse .form script.document.form)

def outputName (input : String) (output : Output) : Compile String :=
  match output.name? input with
  | some name => return name
  | none => throw (.unnamed (FileName.ofText input).text)

/-- The JSON text of an engine form. -/
def jsonText (form : Data) : Compile String := return form.json (← get).compiler.indent

/-- Report what the user is to mend. -/
def report (input : String) : Trouble → Compile Bool
  | .refused _ .missing => do
    print s!"Error: File not found: {input}\n"
    return false
  | .complaint d => do
    print s!"Syntax error: {d.report}\n"
    return false
  | trouble => throw trouble

end Compile

/-- The files that a compiler reads and writes. One that is opened for writing is
empty from then on, whatever it held, and grows as it is written. -/
structure Files (m : Type → Type) where
  /-- A file that is open for writing. -/
  Handle : Type
  read : String → m (List UInt8)
  create : String → m Handle
  append : Handle → String → m Unit

namespace Files

variable {m : Type → Type} [Monad m] [MonadExceptOf Trouble m] [MonadLiftT Compile m]

/-- Open the output, whose name is shown as `name`. -/
def openOutput (files : Files m) (name : String) : Output → m files.Handle
  | .nameless => throw (.refused name .noName)
  | _ => files.create name

/-- The text of a script. -/
def load (files : Files m) (input : String) : m (List Char) := do
  Compile.log s!"Reading {input}..."
  let bytes ← files.read input
  return plainBreaks (← Compile.orElse .undecodable (Utf8.decode bytes))

/-- Write a document in its engine form. -/
def save (files : Files m) (name : String) (output : Output) (document : Document) (form : Data) :
    m Unit := do
  Compile.log s!"Writing {name}..."
  let file ← files.openOutput name output
  files.append file (← Compile.jsonText form)
  files.append file "\n"
  Compile.log s!"Compilation successful: {document.nodes.size} nodes, {document.items.size} items"

def translate (files : Files m) (input name : String) (output : Output) : m Unit := do
  let (document, form) ← Compile.script (← files.load input) input
  files.save name output document form

/-- Compile a file. The result is false if a trouble was reported. -/
def compile (files : Files m) (input : String) (output : Output) : m Bool := do
  let name ← Compile.outputName input output
  tryCatch (do files.translate input name output; return true)
    fun trouble => Compile.report input trouble

end Files

/-- A session and the disk it works on. -/
structure Workspace where
  session : Session
  disk : Disk

/-- Work on a disk. What was done to the disk before a trouble stays done. -/
abbrev Work := EStateM Trouble Workspace

namespace Work

def ofCompile (x : Compile α) : Work α := fun w =>
  match x w.session with
  | .ok a s => .ok a { w with session := s }
  | .error trouble s => .error trouble { w with session := s }

instance : MonadLift Compile Work := ⟨ofCompile⟩

def read (path : String) : Work (List UInt8) := fun w =>
  match w.disk.read path with
  | .ok bytes => .ok bytes w
  | .error why => .error (.refused path why) w

def create (path : String) : Work (List String) := fun w =>
  match w.disk.target path with
  | .ok route => .ok route { w with disk := w.disk.put route [] }
  | .error why => .error (.refused path why) w

def append (route : List String) (text : String) : Work Unit :=
  modify fun w => { w with disk := w.disk.append route (Utf8.encode text) }

/-- The files of the disk; one that is open is told by its place. -/
def files : Files Work := ⟨List String, read, create, append⟩

end Work

/-- Compile a file of the disk. -/
def Disk.compile (d : Disk) (input : String) (output : Output) (s : Session) :
    EStateM.Result Trouble Session Bool × Disk :=
  match Work.files.compile input output ⟨s, d⟩ with
  | .ok done w => (.ok done w.session, w.disk)
  | .error trouble w => (.error trouble w.session, w.disk)

end Gamebook
