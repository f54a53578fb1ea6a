import Gamebook.Number.Basic

/-!
Plain data: the form in which trees and documents are handed to the game engine
and written to files. Records keep their fields in order.
-/
namespace Gamebook

inductive Data where
  | null
  | bool (value : Bool)
  | number (value : Number)
  | text (value : String)
  | list (items : List Data)
  | record (fields : List (String × Data))
  deriving Repr

namespace Data

def nat (n : Nat) : Data := number (.int n)

def ofOption (f : α → Data) : Option α → Data
  | none => null
  | some a => f a

def texts (items : List String) : Data := list (items.map text)

end Data
end Gamebook
