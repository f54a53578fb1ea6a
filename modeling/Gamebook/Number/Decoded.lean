import Gamebook.Number.Power

/-!
What a double stands for: nothing, an infinity, or an integer times a power of
two, read off its bits.
-/
namespace Gamebook

inductive Decoded where
  | nan
  | infinite (negative : Bool)
  | finite (negative : Bool) (mantissa : Nat) (exponent : Int)
  deriving DecidableEq, Repr

namespace Decoded

def ofBits (bits : Nat) : Decoded :=
  let negative := decide (pow2 63 ≤ bits)
  let field : Nat := bits / pow2 52 % pow2 11
  let fraction := bits % pow2 52
  if field = 2047 then
    if fraction = 0 then infinite negative else nan
  else if field = 0 then finite negative fraction (-1074)
  else finite negative (pow2 52 + fraction) ((field : Int) - 1075)

def ofFloat (x : Float) : Decoded := ofBits x.toBits.toNat

/-- The mantissa with its sign. -/
def signedMantissa (negative : Bool) (mantissa : Nat) : Int :=
  if negative then -(mantissa : Int) else mantissa

end Decoded
end Gamebook
