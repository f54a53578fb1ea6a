import Gamebook.Data.Basic
import Gamebook.Number.Text
import Gamebook.Text.Quoted

/-!
Data as JSON text in ASCII. Without an indent all stands on one line; with one,
every item of a container has a line of its own, indented by its depth. An empty
container is written in one piece.
-/
namespace Gamebook.Json

def unit (n : Nat) : List Char := '\\' :: 'u' :: Quoted.hexDigits 4 n

/-- A character outside the plain ones is written by its code units. -/
def encodeChar (c : Char) : List Char :=
  if c == '"' || c == '\\' then ['\\', c]
  else if c == '\n' then ['\\', 'n']
  else if c == '\r' then ['\\', 'r']
  else if c == '\t' then ['\\', 't']
  else if c == '\x0c' then ['\\', 'f']
  else if c == '\x08' then ['\\', 'b']
  else if ' ' ≤ c && c ≤ '~' then [c]
  else if c.toNat < 0x10000 then unit c.toNat
  else
    let n := c.toNat - 0x10000
    unit (0xd800 + n / 0x400) ++ unit (0xdc00 + n % 0x400)

def text (s : String) : String :=
  String.ofList ('"' :: (s.toList.flatMap encodeChar ++ ['"']))

def number : Number → String
  | .int n => toString n
  | .real x => (Decoded.ofFloat x).text "Infinity"

/-- The break before an item at a depth. -/
def lineBreak (indent : Option Int) (depth : Nat) : String :=
  match indent with
  | none => ""
  | some n => String.ofList ('\n' :: List.replicate (n.toNat * depth) ' ')

/-- Items between brackets; the closing one stands at the depth. -/
def enclose (indent : Option Int) (depth : Nat) (left right : String) : List String → String
  | [] => left ++ right
  | items =>
    let comma := if indent.isSome then "," else ", "
    left ++ lineBreak indent (depth + 1) ++
      (comma ++ lineBreak indent (depth + 1)).intercalate items ++ lineBreak indent depth ++ right

mutual

def write (indent : Option Int) (depth : Nat) : Data → String
  | .null => "null"
  | .bool b => if b then "true" else "false"
  | .number n => number n
  | .text s => text s
  | .list items => enclose indent depth "[" "]" (writeAll indent (depth + 1) items)
  | .record fields => enclose indent depth "\x7b" "\x7d" (writeFields indent (depth + 1) fields)

def writeAll (indent : Option Int) (depth : Nat) : List Data → List String
  | [] => []
  | d :: items => write indent depth d :: writeAll indent depth items

def writeFields (indent : Option Int) (depth : Nat) : List (String × Data) → List String
  | [] => []
  | (name, d) :: fields =>
    (text name ++ ": " ++ write indent depth d) :: writeFields indent depth fields

end

end Gamebook.Json

/-- The JSON text of the data. -/
def Gamebook.Data.json (indent : Option Int) (d : Data) : String := Json.write indent 0 d
