import Gamebook.Number.Power

/-!
The double nearest to a ratio of naturals, ties to the even neighbour. A finite
double is `m * 2 ^ e` with `-1074 ≤ e`; read as an integer, the bits of a
non-negative double are `(e + 1074) * 2 ^ 52 + m`, for small and for normal
numbers alike, so a mantissa that rounds up to `2 ^ 53` carries into the exponent
by itself.
-/
namespace Gamebook.Nearest

/-- The quotient to the nearest natural, a half to the even one. -/
def roundDiv (num den : Nat) : Nat :=
  let q := num / den
  let twice := 2 * (num % den)
  if twice < den ∨ twice = den ∧ q % 2 = 0 then q else q + 1

/-- The exponent at which the quotient has 53 bits, or the least there is. -/
def exponent (num den : Nat) : Int :=
  let e : Int := (num.log2 : Int) - den.log2 - 52
  let fits := if 0 ≤ e then num < den * pow2 (52 + e.toNat)
    else num * pow2 (-e).toNat < den * pow2 52
  max (-1074) (if fits then e - 1 else e)

/-- The bits of the double nearest to `num / den`, or the bits of infinity. -/
def bits (num den : Nat) : Nat :=
  if num = 0 then 0 else
    let e := exponent num den
    let m := if 0 ≤ e then roundDiv num (den * pow2 e.toNat)
      else roundDiv (num * pow2 (-e).toNat) den
    min ((e + 1074).toNat * pow2 52 + m) 0x7ff0000000000000

/-- The double nearest to `num / den`; infinite beyond the largest finite one. -/
def ratio (num den : Nat) : Float :=
  Float.ofBits (bits num den).toUInt64

/-- The same for a signed integer numerator, with the sign given apart so that a
zero can be negative. -/
def signed (negative : Bool) (num den : Nat) : Float :=
  if negative then -(ratio num den) else ratio num den

end Gamebook.Nearest
