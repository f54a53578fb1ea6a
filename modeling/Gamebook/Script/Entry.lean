import Gamebook.Document.Record
import Gamebook.Line.Slot
import Gamebook.Source.Fault

/-!
From the tokens of a line to a record. A reader takes tokens from the front of the
line and leaves those it has no use for; what it misses is a complaint about the
record as a whole.
-/
namespace Gamebook

/-- A reader of tokens. -/
abbrev Entry := StateT Line (Except Complaint)

namespace Entry

def refuse (complaint : Complaint) : Entry α := fun _ => .error complaint

/-- Take the first token if the slot accepts it. -/
def take? (kind : TokenKind) (value? : Content → Option α) : Entry (Option α) := fun line =>
  let (content, rest) := line.eatOne (.kind kind)
  .ok (content.bind value?, rest)

def string? : Entry (Option String) := take? .string Content.string?
def number? : Entry (Option Number) := take? .number Content.number?
def range? : Entry (Option Range) := take? .range Content.range?
def variableName? : Entry (Option String) := take? .variableName Content.variableName?
def word? : Entry (Option String) := take? .word Content.word?
def expression? : Entry (Option Expr) := take? .expression Content.expression?

/-- Take one particular word. -/
def keyword (name : String) : Entry Bool := fun line =>
  let (content, rest) := line.eatOne (.word name)
  .ok (content.isSome, rest)

def words : Entry (List String) := fun line =>
  let (contents, rest) := line.eatAll (.kind .word)
  .ok (contents.filterMap Content.word?, rest)

/-- What must be there. -/
def need (x : Entry (Option α)) (wanted : Wanted) : Entry α := do
  match ← x with
  | some a => return a
  | none => refuse (.expecting wanted)

/-- The item of a record, read from its line unless a block has named it. -/
def itemOr : Option String → Entry String
  | some id => pure id
  | none => need word? .itemName

def start (ref : Nat) : Entry Record := do
  let message ← need string? .startTextAndNode
  let node ← need word? .startTextAndNode
  return .start ⟨message, node, ref⟩

def node (ref : Nat) : Entry Record := do
  let final ← keyword "final"
  let id ← need word? .nodeNameAndDescription
  let message ← need string? .nodeNameAndDescription
  return .node id ⟨message, final, ref⟩

/-- A name with its sigil or without. -/
def propertyName : Entry String := do
  match ← variableName? with
  | some name => return name
  | none => need word? .variableName

def property (ref : Nat) : Entry Record := do
  let name ← propertyName
  let label ← need string? .variableLabel
  let range ← range?
  return .property name ⟨label, range, ref⟩

def path (ref : Nat) : Entry Record := do
  let source ← need word? .labelledPath
  let label ← need string? .labelledPath
  let target ← need word? .labelledPath
  let mods ← words
  return .path source target ⟨label, mods, ref⟩

def trigger : Entry Trigger := do
  match ← expression? with
  | some e => return .condition e
  | none => return .node (← need word? .conditionOrNode)

/-- An action chosen by a condition has a message or a modifier. -/
def action (ref : Nat) : Entry Record := do
  let trigger ← trigger
  let label ← need string? .actionLabel
  let message ← string?
  let mods ← words
  match trigger with
  | .condition _ => if message.isNone && mods.isEmpty then refuse .noEffect
  | .node _ => pure ()
  return .action ⟨trigger, label, message, mods, ref⟩

/-- Only using an item may have a target. -/
def target : Category → Entry (Option String)
  | .use => do
    if ← keyword "on" then return some (← need word? .target) else return none
  | _ => return none

def behavior (category : Category) (item : Option String) (count : Option Nat) (ref : Nat) :
    Entry Record := do
  let negated ← keyword "no"
  let id ← itemOr item
  let target ← target category
  let cond ← expression?
  let message ← string?
  let mods ← words
  return .behavior id category ⟨cond, message, mods, count, negated, target, some ref⟩

def resources (item : Option String) (_ref : Nat) : Entry Record := do
  let id ← itemOr item
  return .resources id (← words)

def place : Entry Place := do
  if ← keyword "no" then return .nowhere
  else if ← keyword "player" then return .player
  else return .node (← need word? .place)

def location (item : Option String) (ref : Nat) : Entry Record := do
  let id ← itemOr item
  return .location id ⟨← place, ref⟩

def boringCase : Entry BoringCase := do
  if ← keyword "pick" then return if ← keyword "no" then .pickNo else .pick
  else if ← keyword "check" then return .check
  else if ← keyword "use" then return .use
  else if ← keyword "lay" then return if ← keyword "no" then .layNo else .lay
  else refuse .unknownAction

def boring (_ref : Nat) : Entry Record := do
  let case ← boringCase
  return .boring case (← need string? .message)

def item (_ref : Nat) : Entry Record := do
  let id ← need word? .itemNameAndLabel
  let label ← need string? .itemNameAndLabel
  return .item id label (← string?)

def modifier (_ref : Nat) : Entry Record := do
  return .modifier (← need word? .modName)

/-- To the player, or to a node named first. -/
def addItem : Entry Command := do
  let first ← need word? .nodeOrItem
  match ← word? with
  | none => return .addItem first none
  | some item => return .addItem item (some first)

def setItem : Entry Command := do
  let item ← need word? .itemName
  let label ← need string? .itemLabel
  return .setItem item label (← string?)

def pairOf (make : String → String → Command) (wanted : Wanted) : Entry Command := do
  let first ← need word? wanted
  return make first (← need word? wanted)

def setNode : Entry Command := do
  let node ← need word? .nodeNameAndDescription
  return .setNode node (← need string? .nodeNameAndDescription)

def addPath : Entry Command := do
  let source ← need word? .describedPath
  let label ← need string? .describedPath
  return .addPath source label (← need word? .describedPath)

def callMod : Entry Command := do
  let cond ← expression?
  return .callMod (← need word? .modName) cond

/-- A count is an integer. -/
def skip : Entry Command := do
  match ← number? with
  | some (.int n) => return .skip n.toNat
  | _ => refuse (.expecting .skipCount)

/-- The reader of a command's arguments. -/
def arguments? : String → Option (Entry Command)
  | "message" => some (return .message (← need string? .message))
  | "additem" => some addItem
  | "delitem" => some (return .delItem (← need word? .itemName))
  | "setitem" => some setItem
  | "addresource" => some (pairOf .addResource .itemAndNode)
  | "delresource" => some (pairOf .delResource .itemAndNode)
  | "setnode" => some setNode
  | "addpath" => some addPath
  | "delpath" => some (pairOf .delPath .pathEnds)
  | "teleport" => some (return .teleport (← need word? .nodeName))
  | "callmod" => some callMod
  | "skip" => some skip
  | "return" => some (return .return)
  | _ => none

def command : Entry Command := do
  match (← word?).bind arguments? with
  | some arguments => arguments
  | none => refuse .unknownCommand

/-- The reactions named by a boring line of an item, each with its negation, and the
rest of the line from the first token that names none. -/
def boringWords : Line → List (Category × Bool) × Line
  | [] => ([], [])
  | t :: line =>
    match t.content.word?.bind Category.ofName? with
    | none => ([], t :: line)
    | some .check =>
      let (more, rest) := boringWords line
      ((.check, false) :: more, rest)
    | some category =>
      match line with
      | ⟨.word "no", _⟩ :: line =>
        let (more, rest) := boringWords line
        ((category, true) :: more, rest)
      | line =>
        let (more, rest) := boringWords line
        ((category, false) :: more, rest)

/-- The records of a boring line of an item, and where the line began. -/
def reactions (id : String) (ref : Nat) : Entry (List Record × Nat) := fun line =>
  let (words, rest) := boringWords line
  let record := fun (category, negated) =>
    Record.behavior id category
      { mods := [Behavior.boringMod], negated := negated, ref := some ref }
  .ok ((words.map record, ref), rest)

end Entry
end Gamebook
