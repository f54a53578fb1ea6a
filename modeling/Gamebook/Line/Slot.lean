import Gamebook.Line.Token
import Gamebook.Text.Pieces

/-!
Slots are what a record's grammar matches tokens against: any token of a kind, or
one particular word. A line is matched from the front. A sequence of slots matches
as a whole or not at all.
-/
namespace Gamebook

inductive Slot where
  | kind (kind : TokenKind)
  | word (name : String)
  deriving DecidableEq, Repr

namespace Slot

/-- Slots are written as a percent sign and a letter; anything else is a word. -/
def ofText : List Char → Slot
  | ['%', 's'] => kind .string
  | ['%', 'n'] => kind .number
  | ['%', 'r'] => kind .range
  | ['%', 'v'] => kind .variableName
  | ['%', 'e'] => kind .expression
  | ['%', 'i'] => kind .word
  | text => word (String.ofList text)

/-- One slot for each piece between single blanks. -/
def sequence (text : String) : List Slot := (pieces ' ' text.toList).map ofText

def accepts : Slot → Content → Bool
  | kind k, c => c.kind == k
  | word w, .word v => v == w
  | word _, _ => false

end Slot

namespace Line

/-- Take the first token if the slot accepts it. -/
def eatOne (slot : Slot) : Line → Option Content × Line
  | [] => (none, [])
  | t :: line => if slot.accepts t.content then (some t.content, line) else (none, t :: line)

/-- Take tokens as long as the slot accepts them. -/
def eatAll (slot : Slot) : Line → List Content × Line
  | [] => ([], [])
  | t :: line =>
    if slot.accepts t.content then
      let (values, rest) := eatAll slot line
      (t.content :: values, rest)
    else ([], t :: line)

/-- Take one token for each slot, if there are enough of them and all of them match. -/
def eat (slots : List Slot) (line : Line) : Option (List Content) × Line :=
  if line.length < slots.length then (none, line)
  else if (line.zip slots).all fun (t, slot) => slot.accepts t.content then
    (some ((line.take slots.length).map Token.content), line.drop slots.length)
  else (none, line)

end Line
end Gamebook
