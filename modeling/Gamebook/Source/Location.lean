/-!
Places in a source text. An offset counts characters from the start of the
text and may be any integer; it is first brought into the text. Lines count
from one, columns from zero, and both are computed from the text on demand.
-/
namespace Gamebook

/-- A place as a reader sees it. -/
structure Location where
  line : Nat
  column : Nat
  deriving DecidableEq, Repr

namespace Source

/-- The offset inside a text of the given length that is nearest to `offset`. -/
def clamp (length : Nat) (offset : Int) : Nat :=
  min offset.toNat length

/-- The characters between the last line break and the end of the text. -/
def lastLine (text : List Char) : List Char :=
  (text.reverse.takeWhile (· != '\n')).reverse

/-- The characters before the first line break. -/
def firstLine (text : List Char) : List Char :=
  text.takeWhile (· != '\n')

/-- The place of an offset. -/
def place (source : List Char) (offset : Int) : Location :=
  let before := source.take (clamp source.length offset)
  ⟨before.count '\n' + 1, (lastLine before).length⟩

/-- The whole line that holds the offset, without its line break. -/
def lineAt (source : List Char) (offset : Int) : List Char :=
  let o := clamp source.length offset
  lastLine (source.take o) ++ firstLine (source.drop o)

/-- The line that holds the offset, with the character there between markers.
At a line break and at the end of the text the markers enclose nothing. -/
def excerpt (source : List Char) (offset : Int) : List Char :=
  let line := lineAt source offset
  let column := (place source offset).column
  line.take column ++ ">>>".toList ++ (line.drop column).take 1 ++ "<<<".toList ++
    line.drop (column + 1)

theorem clamp_le (length : Nat) (offset : Int) : clamp length offset ≤ length :=
  Nat.min_le_right ..

@[simp] theorem clamp_ofNat {length n : Nat} (h : n ≤ length) : clamp length n = n := by
  simp [clamp, h]

end Source
end Gamebook
