import Gamebook.Number.Power

/-!
The shortest decimal that reads back as a given double. A positive double
`m * 2 ^ e` is what every real strictly between the midpoints to its neighbours
rounds to, and the midpoints themselves when `m` is even. For one digit, two
digits and so on, the two decimals around the value are tested against that
interval; the first grid with a hit wins, the nearer of two hits is taken, and
of two equally near ones the even.
-/
namespace Gamebook.Shortest

/-- A fraction of naturals; quarters of the last place keep midpoints integral. -/
structure Interval where
  low : Nat
  value : Nat
  high : Nat
  den : Nat
  closed : Bool

def interval (m : Nat) (e : Int) : Interval :=
  let below := if m = pow2 52 ∧ -1074 < e then 1 else 2
  let up := pow2 (e - 2).toNat
  { low := (4 * m - below) * up
    value := 4 * m * up
    high := (4 * m + 2) * up
    den := pow2 (2 - e).toNat
    closed := m % 2 = 0 }

namespace Interval

/-- Is the value below `10 ^ k`? -/
def below (i : Interval) (k : Int) : Bool :=
  i.value * pow10 (-k).toNat < i.den * pow10 k.toNat

/-- Does `c * 10 ^ q` round to the value? -/
def contains (i : Interval) (c : Nat) (q : Int) : Bool :=
  let point := c * pow10 q.toNat * i.den
  let scale := pow10 (-q).toNat
  if i.closed then i.low * scale ≤ point && point ≤ i.high * scale
  else i.low * scale < point && point < i.high * scale

/-- The better of the two decimals around the value with last place `10 ^ q`. -/
def hit? (i : Interval) (q : Int) : Option Nat :=
  let step := i.den * pow10 q.toNat
  let scaled := i.value * pow10 (-q).toNat
  let c := scaled / step
  let twice := 2 * (scaled % step)
  let near := if twice < step ∨ twice = step ∧ c % 2 = 0 then c else c + 1
  let far := if near = c then c + 1 else c
  if i.contains near q then some near
  else if i.contains far q then some far
  else none

end Interval

/-- The least `k` with `m * 2 ^ e < 10 ^ k`, from a guess that is at most two short. -/
def magnitude (i : Interval) (m : Nat) (e : Int) : Int :=
  let guess := ((m.log2 : Int) + e) * 1233 / 4096
  if i.below guess then guess
  else if i.below (guess + 1) then guess + 1
  else guess + 2

/-- Digits and power of ten of the shortest decimal for `m * 2 ^ e`, with `0 < m`;
seventeen digits always suffice. -/
def decimal (m : Nat) (e : Int) : Nat × Int :=
  let i := interval m e
  let k := magnitude i m e
  let hit := (List.range 17).findSome? fun (n : Nat) =>
    let q := k - (n + 1 : Nat)
    (i.hit? q).map (·, q)
  hit.getD (0, 0)

end Gamebook.Shortest
