import Gamebook.Value.Order

/-!
Arithmetic. Integers stay exact until they meet a double or are divided; a
quotient is always a double, the nearest one. Texts and lists are repeated by an
integer, and lists are joined. A count has to be an index, the length of a repeated
text has to be one, and what is repeated has to fit into memory.
-/
namespace Gamebook

/-- Why an operation has no result. -/
inductive ArithmeticError where
  | unsupported
  | divisionByZero
  | integerTooLarge
  | quotientTooLarge
  | countTooLarge
  | textTooLong
  | outOfMemory
  deriving DecidableEq, Repr

def ArithmeticError.message : ArithmeticError → String
  | unsupported => "unsupported operands"
  | divisionByZero => "division by zero"
  | integerTooLarge => "int too large to convert to float"
  | quotientTooLarge => "integer division result too large for a float"
  | countTooLarge => "cannot fit 'int' into an index-sized integer"
  | textTooLong => "repeated string is too long"
  | outOfMemory => ""

namespace Number

/-- The double that stands for the number beside another double. -/
def toDouble : Number → Except ArithmeticError Float
  | real x => .ok x
  | int n => match double? n with
    | some x => .ok x
    | none => .error .integerTooLarge

/-- Exact on integers, in doubles otherwise. -/
def combine (exact : Int → Int → Int) (rounded : Float → Float → Float) :
    Number → Number → Except ArithmeticError Number
  | int a, int b => .ok (int (exact a b))
  | a, b => do
    let x ← a.toDouble
    let y ← b.toDouble
    return real (rounded x y)

/-- The nearest double of a quotient of integers. -/
def quotient (a b : Int) : Except ArithmeticError Number :=
  if b = 0 then .error .divisionByZero
  else if Nearest.bits a.natAbs b.natAbs < 0x7ff0000000000000 then
    .ok (real (Nearest.signed (decide (a < 0) != decide (b < 0)) a.natAbs b.natAbs))
  else .error .quotientTooLarge

def divide : Number → Number → Except ArithmeticError Number
  | int a, int b => quotient a b
  | a, b => do
    let x ← a.toDouble
    let y ← b.toDouble
    if (real y).isZero then .error .divisionByZero else return real (x / y)

end Number

namespace Value

/-- The bytes of a character of the text: all take as many as the widest one needs. -/
def charBytes (s : String) : Nat :=
  if s.toList.all (·.toNat < 0x100) then 1
  else if s.toList.all (·.toNat < 0x10000) then 2
  else 4

/-- The bytes of a text of so many characters of the given one, its head and its end
mark included. -/
def textBytes (s : String) (length : Nat) : Nat :=
  (if s.toList.all (·.toNat < 0x80) then 48 else 72) + (length + 1) * charBytes s

/-- The bytes of the references to so many items. -/
def listBytes (length : Nat) : Nat := length * 8

/-- Can so many bytes be had at once? None are from half of the addresses on. -/
def fits (room bytes : Nat) : Bool := bytes < pow2 63 && bytes ≤ room

/-- The number of repetitions of something of the length, if it can be one and the
whole can be held. Nothing is the same however often it is repeated. -/
def repeatCount (length : Nat) (tooLong : ArithmeticError) (holds : Nat → Bool) (n : Int) :
    Except ArithmeticError Nat :=
  if n < -(pow2 63) ∨ pow2 63 ≤ n then .error .countTooLarge
  else if length * n.toNat = 0 then .ok 0
  else if pow2 63 ≤ length * n.toNat then .error tooLong
  else if holds (length * n.toNat) then .ok n.toNat
  else .error .outOfMemory

/-- A text that stays as long as it is takes no new memory. -/
def repeatText (room : Nat) (s : String) (n : Int) : Except ArithmeticError Value := do
  let holds (length : Nat) : Bool := length == s.length || fits room (textBytes s length)
  return text (String.join (List.replicate (← repeatCount s.length .textTooLong holds n) s))

def repeatList (room : Nat) (items : List Value) (n : Int) : Except ArithmeticError Value := do
  let holds (length : Nat) : Bool := fits room (listBytes length)
  let count ← repeatCount items.length .outOfMemory holds n
  return list (List.replicate count items).flatten

/-- An operation on two numbers. -/
def numeric (f : Number → Number → Except ArithmeticError Number) (v w : Value) :
    Except ArithmeticError Value :=
  match v.number?, w.number? with
  | some a, some b => (f a b).map number
  | _, _ => .error .unsupported

def add : Value → Value → Except ArithmeticError Value
  | list a, list b => .ok (list (a ++ b))
  | v, w => numeric (Number.combine (· + ·) (· + ·)) v w

def subtract (v w : Value) : Except ArithmeticError Value :=
  numeric (Number.combine (· - ·) (· - ·)) v w

/-- The product, where what is repeated may take so many bytes. -/
def multiply (room : Nat) (v w : Value) : Except ArithmeticError Value :=
  match v, w, v.number?, w.number? with
  | text s, _, _, some (.int n) => repeatText room s n
  | list items, _, _, some (.int n) => repeatList room items n
  | _, text s, some (.int n), _ => repeatText room s n
  | _, list items, some (.int n), _ => repeatList room items n
  | _, _, _, _ => numeric (Number.combine (· * ·) (· * ·)) v w

def divide (v w : Value) : Except ArithmeticError Value :=
  numeric Number.divide v w

/-- The negative of a number. -/
def negate? (v : Value) : Option Value :=
  v.number?.map fun n => number n.neg

end Value
end Gamebook
