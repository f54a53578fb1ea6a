import Gamebook.CommandLine.Run

/-!
The command line over the real files.
-/
namespace Gamebook

/-- The refusal that a failure stands for; other failures stay as they are. -/
def refusedBy (e : IO.Error) : IO Refused :=
  match e with
  | .noFileOrDirectory .. => return .missing
  | .inappropriateType _ code _ =>
    return if code = 21 ∨ code = 0 - 21 then .isFolder else .notFolder
  | _ => throw e

/-- Compiling with the real files. -/
abbrev Job := ExceptT Trouble (StateT Session IO)

namespace Job

def ofCompile (x : Compile α) : Job α := fun s =>
  match x s with
  | .ok a s' => return (.ok a, s')
  | .error trouble s' => return (.error trouble, s')

instance : MonadLift Compile Job := ⟨ofCompile⟩

/-- Do what may be refused for a path. -/
def attempt (path : String) (x : IO α) : Job α := fun s => do
  try return (.ok (← x), s)
  catch e => return (.error (.refused path (← refusedBy e)), s)

def files : Files Job where
  Handle := IO.FS.Handle
  read path := attempt path (return (← IO.FS.readBinFile path).toList)
  create path := attempt path (IO.FS.Handle.mk path .write)
  append file text := file.putStr text

end Job

def compileFile (options : Options) : IO (EStateM.Result Trouble Session Bool) := do
  let session : Session := { compiler := CommandLine.compilerOf options }
  match ← Job.files.compile options.input options.output session with
  | (.ok done, s) => return .ok done s
  | (.error trouble, s) => return .error trouble s

def runCommand (words : List String) : IO CommandLine.Outcome :=
  match Request.ofWords words with
  | .compile options => return .ofResult (← compileFile options)
  | _ => return (CommandLine.run "txgc" words {}).1

end Gamebook

def main (words : List String) : IO UInt32 := do
  let outcome ← Gamebook.runCommand words
  IO.print outcome.output
  IO.eprint outcome.errors
  match outcome.exit with
  | .ok code => return code.toUInt32
  | .error trouble =>
    IO.eprintln trouble.message
    return 1
