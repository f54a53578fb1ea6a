import Gamebook.Line.Read
import Gamebook.Script.Entry

/-!
Reading single statements. Most are the tokens of one line; a variable definition
and the condition of a directive are read from the text itself. Each of these only
takes text, and takes some where there is any.
-/
namespace Gamebook.Read

/-- A record of one line, with the tokens it leaves over. Complaints about the line
are pinned to its beginning. -/
def entry (setting : Setting) (subject : String) (reader : Nat → Entry α) : Read (α × Line) := do
  let ref ← begin subject
  let line ← Read.line setting
  match reader ref line with
  | .ok result => return result
  | .error complaint => fail complaint ref

def operators : List (Assignment × Pattern) :=
  [(.set, Grammar.assign), (.increase, Grammar.increase), (.decrease, Grammar.decrease),
    (.multiply, Grammar.multiply), (.divide, Grammar.divide)]

/-- An operator and its operand, or nothing. -/
def change (setting : Setting) : Read Change := do
  match ← firstOf operators with
  | some how => return .assign how (← Read.expr setting .line)
  | none => return .declare

/-- A variable and its change, up to the end of the line. -/
def definition (setting : Setting) : Read Definition := do
  let ref ← begin "var-definition"
  skip Grammar.blanks
  skip Grammar.sigil
  let name ← require Grammar.word (.expecting .variableName)
  skip Grammar.blanks
  return ⟨String.ofList name.text, ← change setting, ref⟩

inductive LineEnd where
  | comment | lineEnd | finish
  deriving DecidableEq

/-- How a line can end. -/
def lineEnds : List (LineEnd × Pattern) :=
  [(.finish, Pattern.finish), (.comment, Grammar.comment), (.lineEnd, Grammar.lineEnd)]

/-- The end of a line, with its comment. -/
def lineEnd (wanted : Wanted) : Read Unit := do
  skip Grammar.blanks
  match ← firstOf lineEnds with
  | some .comment => skipThrough Grammar.lineEnd
  | some _ => return ()
  | none => failHere (.expecting wanted)

/-- Does a definition come next? The word that announces one is taken. -/
def definitionAhead : Read Bool := do
  if ← peek Grammar.variableName then return true else accept (Grammar.keyword "var")

def condition (setting : Setting) : Read (Option Expr) := do
  if ← accept Grammar.parenOpen then
    let cond ← Read.expr setting .parens
    skip Grammar.blanks
    return some cond
  else return none

/-- The command of a directive, with the tokens it leaves over. -/
def command (setting : Setting) (ref : Nat) : Read (Command × Line) := do
  if ← definitionAhead then
    let v ← definition setting
    lineEnd .lineEnd
    return (.setVariable v, [])
  else
    let line ← Read.line setting
    match Entry.command line with
    | .ok result => return result
    | .error complaint => fail complaint ref

def directive (setting : Setting) : Read (Directive × Line) := do
  let ref ← begin "directive"
  let cond ← condition setting
  let (command, rest) ← command setting ref
  return (⟨command, cond, ref⟩, rest)

def categories : List (Category × Pattern) :=
  Category.all.map fun c => (c, Grammar.keyword c.name)

/-- How often a reaction fires: once if no number is given. -/
def count : Option Match → Read Nat
  | some m => numeral (Numeral.integer? m.text)
  | none => pure 1

/-- How often a reaction fires, and its category. -/
def first : Read (Nat × Category) := do
  let _ ← begin "first"
  skip Grammar.blanks
  let count ← count (← match? Grammar.digits)
  skip Grammar.blanks
  match ← firstOf categories with
  | some category => return (count, category)
  | none => failHere (.expecting .category)

/-- The rest of a section's first line. -/
def heading (name : String) : Read Unit := do
  let _ ← begin s!"section {name}"
  lineEnd (.lines name)

/-- A block comment after its opening, and its last line when nothing follows on it. -/
def blockComment : Read Unit := do
  skipThrough Grammar.blockClose
  skip Grammar.blankLine

theorem Advances.change (setting : Setting) : Advances (Read.change setting) := by
  refine .bind (.firstOf _) fun how => ?_
  split
  · exact .bind (.expr setting _) fun _ => .pure _
  · exact .pure _

theorem Advances.lineEnd (wanted : Wanted) : Advances (Read.lineEnd wanted) := by
  refine .bind (.skip _) fun _ => .bind (.firstOf _) fun how => ?_
  split
  · exact .skipThrough _
  · exact .pure _
  · exact .failHere _

theorem Advances.definitionAhead : Advances Read.definitionAhead :=
  .bind (.peek _) fun _ => .ite (.pure _) (.accept _)

theorem Advances.condition (setting : Setting) : Advances (Read.condition setting) :=
  .bind (.accept _) fun _ => .ite
    (.bind (.expr setting _) fun _ => .bind (.skip _) fun _ => .pure _) (.pure _)

theorem Advances.count (m : Option Match) : Advances (Read.count m) := by
  cases m with
  | none => exact .pure _
  | some m => exact .numeral _

theorem Advances.first : Advances Read.first := by
  refine .bind (.begin _) fun _ => .bind (.skip _) fun _ => .bind (.match? _) fun m =>
    .bind (.count m) fun _ => .bind (.skip _) fun _ => .bind (.firstOf _) fun c => ?_
  split
  · exact .pure _
  · exact .failHere _

theorem Advances.heading (name : String) : Advances (Read.heading name) :=
  .bind (.begin _) fun _ => .lineEnd _

theorem Advances.blockComment : Advances Read.blockComment :=
  .bind (.skipThrough _) fun _ => .skip _

theorem Takes.entry (setting : Setting) (subject : String) (reader : Nat → Entry α) :
    Takes (Read.entry setting subject reader) := by
  refine .bind_right (.begin subject) fun ref => .bind_left (.line setting) fun line => ?_
  split
  · exact .pure _
  · exact .fail _ _

theorem Takes.definition (setting : Setting) : Takes (Read.definition setting) :=
  .bind_right (.begin _) fun _ => .bind_right (.skip _) fun _ => .bind_right (.skip _) fun _ =>
    .bind_left (.require rfl _) fun _ => .bind (.skip _) fun _ =>
      .bind (.change setting) fun _ => .pure _

theorem Takes.command (setting : Setting) (ref : Nat) : Takes (Read.command setting ref) := by
  refine .bind_right .definitionAhead fun _ => .ite
    (.bind_left (.definition setting) fun _ => .bind (.lineEnd _) fun _ => .pure _)
    (.bind_left (.line setting) fun line => ?_)
  split
  · exact .pure _
  · exact .fail _ _

theorem Takes.directive (setting : Setting) : Takes (Read.directive setting) :=
  .bind_right (.begin _) fun ref => .bind_right (.condition setting) fun _ =>
    .bind_left (.command setting ref) fun _ => .pure _

end Gamebook.Read
