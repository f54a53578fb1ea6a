import Gamebook.CommandLine.Request
import Gamebook.Compiler

/-!
The command line over a disk: what it prints, what it leaves on the disk, and the
exit code, or the trouble that nobody reported.
-/
namespace Gamebook.CommandLine

def usage (program : String) : String :=
  s!"usage: {program} [-h] [-o OUTPUT] [--verbose] [--compact] input\n"

def help (program : String) : String :=
  usage program ++ "
Text-game compiler - compile .txg source to a JSON program document

positional arguments:
  input                 Input .txg source file

options:
  -h, --help            show this help message and exit
  -o OUTPUT, --output OUTPUT
                        Output JSON file (default: input with .json suffix)
  --verbose             Verbose output
  --compact             Write JSON without indentation
"

def misused (program : String) (misuse : Misuse) : String :=
  usage program ++ s!"{program}: error: {misuse.message}\n"

/-- The compiler that the options ask for. -/
def compilerOf (options : Options) : Compiler :=
  { verbose := options.verbose, indent := if options.compact then none else some 2 }

/-- The warnings, as they are listed at the end. -/
def listed (warnings : List Warning) : String :=
  String.join (warnings.map fun w => s!"Warning: {w.text}\n")

/-- What a run comes to. -/
structure Outcome where
  exit : Except Trouble Nat
  output : String := ""
  errors : String := ""

/-- The outcome of compiling, from its result. -/
def Outcome.ofResult : EStateM.Result Trouble Session Bool → Outcome
  | .ok done s =>
    { exit := .ok (if done then 0 else 1)
      errors := s.printed ++ listed s.compiler.warnings }
  | .error trouble s => { exit := .error trouble, errors := s.printed }

def run (program : String) (words : List String) (d : Disk) : Outcome × Disk :=
  match Request.ofWords words with
  | .compile options =>
    let (result, d') := d.compile options.input options.output { compiler := compilerOf options }
    (.ofResult result, d')
  | .help => ({ exit := .ok 0, output := help program }, d)
  | .misuse misuse => ({ exit := .ok 2, errors := misused program misuse }, d)

end Gamebook.CommandLine
