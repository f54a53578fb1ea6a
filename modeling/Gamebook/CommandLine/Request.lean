import Gamebook.Files.Name
import Gamebook.Text.Digit
import Gamebook.Text.Quoted

/-!
What a command line asks for. Words are first told apart: options by their exact
name, by a name before an equals sign, by the beginning of a long name, or by a
letter with its argument right behind it; all words after two dashes are plain.
Then they are taken from left to right. The first plain word is the input, an
option without a name and any further plain word is left over, and help ends the
reading where it stands.
-/
namespace Gamebook

inductive Flag where
  | help | output | verbose | compact
  deriving DecidableEq, Repr

/-- What is wrong with a command line. -/
inductive Misuse where
  | ambiguous (word : String)
  | expectedArgument
  | ignoredArgument (flag : Flag) (argument : String)
  | missingInput
  | unrecognized (words : List String)
  deriving DecidableEq, Repr

/-- What to compile, and how. -/
structure Options where
  input : String
  output : Output := .beside
  verbose : Bool := false
  compact : Bool := false
  deriving DecidableEq, Repr

inductive Request where
  | compile (options : Options)
  | help
  | misuse (misuse : Misuse)
  deriving DecidableEq, Repr

namespace Flag

def long : Flag → String
  | help => "--help"
  | output => "--output"
  | verbose => "--verbose"
  | compact => "--compact"

def short? : Flag → Option String
  | help => some "-h"
  | output => some "-o"
  | _ => none

def all : List Flag := [help, output, verbose, compact]

/-- The names of an option as messages show them. -/
def names (f : Flag) : String :=
  match f.short? with
  | some short => short ++ "/" ++ f.long
  | none => f.long

/-- The option with exactly this name, and whether the name is the short one. -/
def ofName? (name : String) : Option (Flag × Bool) :=
  all.findSome? fun f =>
    if f.short? = some name then some (f, true)
    else if f.long = name then some (f, false)
    else none

end Flag

def Misuse.message : Misuse → String
  | ambiguous word =>
    let names := ", ".intercalate (Flag.all.map Flag.long)
    s!"ambiguous option: {word} could match {names}"
  | expectedArgument => s!"argument {Flag.output.names}: expected one argument"
  | ignoredArgument flag argument =>
    s!"argument {flag.names}: ignored explicit argument {quoted argument}"
  | missingInput => "the following arguments are required: input"
  | unrecognized words =>
    let all := " ".intercalate words
    s!"unrecognized arguments: {all}"

namespace CommandLine

/-- An option may have its argument in the same word. -/
inductive Word where
  | plain (text : String)
  | dashes
  | flag (flag : Flag) (short : Bool) (argument : Option (List Char))
  | unknown (text : String)
  deriving DecidableEq, Repr

/-- The word before its first equals sign, and what comes after that. -/
def splitEquals (word : List Char) : List Char × Option (List Char) :=
  match word.dropWhile (· != '=') with
  | [] => (word, none)
  | _ :: argument => (word.takeWhile (· != '='), some argument)

/-- Is this a negative number, in digits of any script with a point or without? A
line break may follow it. -/
def isNegative (word : List Char) : Bool :=
  match word with
  | '-' :: digits =>
    let whole := digits.takeWhile isDecimalDigit
    match digits.dropWhile isDecimalDigit with
    | [] | ['\n'] => !whole.isEmpty
    | '.' :: fraction =>
      let rest := fraction.dropWhile isDecimalDigit
      fraction.head?.any isDecimalDigit && (rest.isEmpty || rest == ['\n'])
    | _ => false
  | _ => false

/-- A word that begins with a dash and names no option. -/
def unnamed (word : List Char) : Word :=
  if isNegative word || word.contains ' ' then .plain (String.ofList word)
  else .unknown (String.ofList word)

/-- The long names that a word with two dashes begins. -/
def abbreviated (word : List Char) : Except Misuse Word :=
  let (name, argument) := splitEquals word
  match Flag.all.filter fun f => name.isPrefixOf f.long.toList with
  | [] => .ok (unnamed word)
  | [f] => .ok (.flag f false argument)
  | _ => .error (.ambiguous (String.ofList word))

def classify (word : String) : Except Misuse Word :=
  match word.toList with
  | '-' :: c :: rest =>
    match Flag.ofName? word with
    | some (f, short) => .ok (.flag f short none)
    | none =>
      let (name, argument) := splitEquals ('-' :: c :: rest)
      match argument.bind fun _ => Flag.ofName? (String.ofList name) with
      | some (f, short) => .ok (.flag f short argument)
      | none =>
        if c == '-' then abbreviated ('-' :: c :: rest)
        else match Flag.ofName? (String.ofList ['-', c]) with
          | some (f, short) => .ok (.flag f short (some rest))
          | none => .ok (unnamed ('-' :: c :: rest))
  | _ => .ok (.plain word)

/-- Tell the words apart; two dashes make all that follow plain. -/
def classifyAll : List String → Except Misuse (List Word)
  | [] => .ok []
  | "--" :: words => .ok (.dashes :: words.map .plain)
  | word :: words => do return (← classify word) :: (← classifyAll words)

/-- What is known after some of the words. -/
structure Gathered where
  input : Option String := none
  output : Output := .beside
  verbose : Bool := false
  compact : Bool := false
  extras : List String := []

def Gathered.leave (g : Gathered) (word : String) : Gathered :=
  { g with extras := g.extras ++ [word] }

def Gathered.request (g : Gathered) : Request :=
  match g.input with
  | none => .misuse .missingInput
  | some input =>
    if g.extras.isEmpty then .compile ⟨input, g.output, g.verbose, g.compact⟩
    else .misuse (.unrecognized g.extras)

/-- More letters behind the one for help, each an option of its own. A bare `o` at
the end needs the next word; what is no option is an argument, and help has none. -/
def cluster (next : List Word) : List Char → Request
  | ['h'] => .help
  | 'h' :: letters => cluster next letters
  | ['o'] =>
    match next with
    | .plain _ :: _ => .help
    | _ => .misuse .expectedArgument
  | 'o' :: _ => .help
  | argument => .misuse (.ignoredArgument .help (String.ofList argument))

/-- The output that an argument in the same word asks for. Two dashes are dropped,
which leaves no name. -/
def attachedOutput (argument : List Char) : Output :=
  if argument = ['-', '-'] then .nameless else .named (String.ofList argument)

/-- Take the words from left to right. -/
def gather (g : Gathered) : List Word → Request
  | [] => g.request
  | .plain word :: words =>
    match g.input with
    | some _ => gather (g.leave word) words
    | none =>
      match words with
      | .dashes :: words => gather { g with input := some word } words
      | words => gather { g with input := some word } words
  | .dashes :: words =>
    match g.input, words with
    | none, .plain word :: words => gather { g with input := some word } words
    | _, words => gather (g.leave "--") words
  | .unknown word :: words => gather (g.leave word) words
  | .flag .output _ (some argument) :: words =>
    gather { g with output := attachedOutput argument } words
  | .flag .output _ none :: .plain word :: words => gather { g with output := .named word } words
  | .flag .output _ none :: _ => .misuse .expectedArgument
  | .flag .help _ none :: _ => .help
  | .flag .verbose _ none :: words => gather { g with verbose := true } words
  | .flag .compact _ none :: words => gather { g with compact := true } words
  | .flag .help true (some argument) :: words => cluster words argument
  | .flag f _ (some argument) :: _ =>
    .misuse (.ignoredArgument f (String.ofList argument))

end CommandLine

/-- What the words of a command line ask for. -/
def Request.ofWords (words : List String) : Request :=
  match CommandLine.classifyAll words with
  | .ok words => CommandLine.gather {} words
  | .error wrong => .misuse wrong

end Gamebook
