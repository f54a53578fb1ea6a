import Gamebook.Number.Numeral
import Gamebook.Number.Shortest

/-!
How numbers are written. Integers in full; doubles by their shortest digits,
positionally from `0.0001` up to sixteen places before the point and always with
a point, otherwise with an exponent of at least two digits.
-/
namespace Gamebook

/-- Digits `d₁d₂…` standing for `0.d₁d₂… * 10 ^ point`. -/
def layOut (digits : List Char) (point : Int) : List Char :=
  if 0 < point ∧ point ≤ 16 then
    let whole := digits.take point.toNat
    let fraction := digits.drop point.toNat
    whole ++ List.replicate (point.toNat - whole.length) '0' ++ '.' ::
      (if fraction.isEmpty then ['0'] else fraction)
  else if -4 < point ∧ point ≤ 0 then
    '0' :: '.' :: (List.replicate (-point).toNat '0' ++ digits)
  else
    let exponent := point - 1
    let size := (toString exponent.natAbs).toList
    digits.take 1 ++ (if digits.length ≤ 1 then [] else '.' :: digits.drop 1) ++
      'e' :: (if exponent < 0 then '-' else '+') ::
        (List.replicate (2 - size.length) '0' ++ size)

/-- The shortest digits of a positive `m * 2 ^ e`, laid out. -/
def layOutShortest (m : Nat) (e : Int) : List Char :=
  let (c, q) := Shortest.decimal m e
  let digits := (toString c).toList
  let point := digits.length + q
  layOut (digits.reverse.dropWhile (· == '0')).reverse point

namespace Decoded

def text (infinity : String) : Decoded → String
  | nan => "nan"
  | infinite negative => if negative then "-" ++ infinity else infinity
  | finite negative m e =>
    let size := if m = 0 then "0.0" else String.ofList (layOutShortest m e)
    if negative then "-" ++ size else size

end Decoded

namespace Number

def text : Number → String
  | int n => toString n
  | real x => (Decoded.ofFloat x).text "inf"

/-- Integers with more digits than the limit are not written. -/
def isWritable : Number → Bool
  | int n => n.natAbs < pow10 Numeral.digitLimit
  | real _ => true

end Number
end Gamebook
