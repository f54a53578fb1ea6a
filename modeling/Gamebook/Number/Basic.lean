import Gamebook.Number.Decoded
import Gamebook.Number.Nearest

/-!
Numbers of the script language: integers of any size, and doubles. They compare
by their exact values, so no integer is rounded to meet a double.
-/
namespace Gamebook

inductive Number where
  | int (value : Int)
  | real (value : Float)
  deriving DecidableEq, Repr

namespace Number

def nan : Number := real (.ofBits 0x7ff8000000000000)

def decoded : Number → Decoded
  | int n => .finite (n < 0) n.natAbs 0
  | real x => .ofFloat x

end Number

namespace Decoded

/-- `a * 2 ^ i` against `b * 2 ^ j`, brought to the smaller exponent. -/
def compareFinite (a : Int) (i : Int) (b : Int) (j : Int) : Ordering :=
  let least := min i j
  compare (a * pow2 (i - least).toNat) (b * pow2 (j - least).toNat)

/-- The order of two numbers; a nan has none. -/
def compare? : Decoded → Decoded → Option Ordering
  | nan, _ => none
  | _, nan => none
  | infinite s, infinite t => some (if s = t then .eq else if s then .lt else .gt)
  | infinite s, finite .. => some (if s then .lt else .gt)
  | finite .., infinite s => some (if s then .gt else .lt)
  | finite s m i, finite t n j =>
    some (compareFinite (signedMantissa s m) i (signedMantissa t n) j)

end Decoded

namespace Number

def compare? (a b : Number) : Option Ordering :=
  Decoded.compare? a.decoded b.decoded

/-- Numeric equality: `1` and `1.0` are the same number. -/
def same (a b : Number) : Bool := a.compare? b == some .eq

def isZero : Number → Bool
  | int n => n == 0
  | real x => match Decoded.ofFloat x with
    | .finite _ m _ => m == 0
    | _ => false

/-- The nearest double of an integer, unless it is beyond all of them. -/
def double? (n : Int) : Option Float :=
  if Nearest.bits n.natAbs 1 < 0x7ff0000000000000 then
    some (Nearest.signed (n < 0) n.natAbs 1)
  else none

def neg : Number → Number
  | int n => int (-n)
  | real x => real (-x)

end Number
end Gamebook
