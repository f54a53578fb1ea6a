import Gamebook.Number.Text
import Gamebook.Text.Quoted

/-!
Values of running expressions: what the engine stores in variables and passes to
functions. A mapping answers by key; an object only has attributes, and the text by
which it is shown is its own. A nan that the engine keeps is known by the path to
where it is kept; one that was computed is just a number.
-/
namespace Gamebook

inductive Value where
  | null
  | bool (value : Bool)
  | number (value : Number)
  | nan (origin : List String)
  | text (value : String)
  | list (items : List Value)
  | map (entries : List (String × Value))
  | object (shown : String) (attributes : List (String × Value))
  deriving Repr

namespace Value

def int (n : Int) : Value := number (.int n)

/-- A double that the engine keeps. -/
def double (origin : List String) (x : Float) : Value :=
  match Decoded.ofFloat x with
  | .nan => nan origin
  | _ => number (.real x)

def isTrue : Value → Bool
  | null => false
  | bool b => b
  | number n => !n.isZero
  | nan _ => true
  | text s => !s.isEmpty
  | list items => !items.isEmpty
  | map entries => !entries.isEmpty
  | object .. => true

/-- The truth values count as one and zero. -/
def number? : Value → Option Number
  | bool b => some (.int (if b then 1 else 0))
  | number n => some n
  | nan _ => some .nan
  | _ => none

/-- The attributes that are data: those of an object, and the parts of a number. -/
def attributes : Value → List (String × Value)
  | object _ attributes => attributes
  | bool b => integral (if b then 1 else 0)
  | number (.int n) => integral n
  | number (.real x) => [("real", number (.real x)), ("imag", number (.real 0.0))]
  | nan origin => [("real", nan origin), ("imag", number (.real 0.0))]
  | _ => []
where
  integral (n : Int) : List (String × Value) :=
    [("real", int n), ("imag", int 0), ("numerator", int n), ("denominator", int 1)]

/-- A property of a value. Null has none and a mapping has its keys. Any other value
has attributes, of which `others` answers for those that are not data. -/
def property (others : Value → String → Value) (name : String) : Value → Value
  | null => null
  | map entries => (entries.lookup name).getD null
  | v => (v.attributes.lookup name).getD (others v name)

mutual

/-- Can the value be written? It holds no integer beyond the digit limit. -/
def isWritable : Value → Bool
  | number n => n.isWritable
  | list items => areWritable items
  | map entries => entriesWritable entries
  | _ => true

def areWritable : List Value → Bool
  | [] => true
  | v :: vs => v.isWritable && areWritable vs

def entriesWritable : List (String × Value) → Bool
  | [] => true
  | (_, v) :: entries => v.isWritable && entriesWritable entries

end

mutual

/-- The value as messages show it. -/
def describe : Value → String
  | null => "None"
  | bool b => if b then "True" else "False"
  | number n => n.text
  | nan _ => Number.nan.text
  | text s => quoted s
  | list items => "[" ++ ", ".intercalate (describeAll items) ++ "]"
  | map entries => "\x7b" ++ ", ".intercalate (describeEntries entries) ++ "\x7d"
  | object shown _ => shown

def describeAll : List Value → List String
  | [] => []
  | v :: vs => v.describe :: describeAll vs

def describeEntries : List (String × Value) → List String
  | [] => []
  | (k, v) :: entries => (quoted k ++ ": " ++ v.describe) :: describeEntries entries

end

/-- The value as a part of a text. -/
def asText : Value → String
  | null => ""
  | bool b => if b then "true" else "false"
  | text s => s
  | v => v.describe

end Value
end Gamebook
