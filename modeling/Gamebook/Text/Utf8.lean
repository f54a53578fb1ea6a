/-!
Text from bytes. A lead byte says how many bytes follow it, and four leads narrow
the byte right after them, so that every character has one form and none is a
surrogate. An error has the bytes that were good up to it, the lead included.
-/
namespace Gamebook.Utf8

inductive Problem where
  | start | continuation | finish
  deriving DecidableEq, Repr

def Problem.phrase : Problem → String
  | start => "invalid start byte"
  | continuation => "invalid continuation byte"
  | finish => "unexpected end of data"

/-- A sequence that cannot be read: its first byte, its place and its length. -/
structure Error where
  problem : Problem
  lead : UInt8
  pos : Nat
  length : Nat
  deriving DecidableEq, Repr

def Error.message (e : Error) : String :=
  let digits := Nat.toDigits 16 e.lead.toNat
  let byte := String.ofList (List.replicate (2 - digits.length) '0' ++ digits)
  if e.length = 1 then
    s!"'utf-8' codec can't decode byte 0x{byte} in position {e.pos}: {e.problem.phrase}"
  else
    let last := e.pos + e.length - 1
    s!"'utf-8' codec can't decode bytes in position {e.pos}-{last}: {e.problem.phrase}"

/-- How many bytes follow a lead, and the bits it brings. -/
def lead? (b : UInt8) : Option (Nat × Nat) :=
  if b < 0x80 then some (0, b.toNat)
  else if b < 0xc2 then none
  else if b < 0xe0 then some (1, b.toNat - 0xc0)
  else if b < 0xf0 then some (2, b.toNat - 0xe0)
  else if b < 0xf5 then some (3, b.toNat - 0xf0)
  else none

/-- The least and the greatest byte that may come right after a lead. -/
def second (b : UInt8) : UInt8 × UInt8 :=
  if b = 0xe0 then (0xa0, 0xbf)
  else if b = 0xed then (0x80, 0x9f)
  else if b = 0xf0 then (0x90, 0xbf)
  else if b = 0xf4 then (0x80, 0x8f)
  else (0x80, 0xbf)

/-- Read so many bytes onto a value. The error has the number of good ones. -/
def tail : Nat → UInt8 × UInt8 → Nat → List UInt8 → Except (Problem × Nat) (Nat × List UInt8)
  | 0, _, value, bytes => .ok (value, bytes)
  | _ + 1, _, _, [] => .error (.finish, 0)
  | n + 1, (low, high), value, b :: bytes =>
    if low ≤ b ∧ b ≤ high then
      match tail n (0x80, 0xbf) (value * 64 + (b.toNat - 0x80)) bytes with
      | .ok r => .ok r
      | .error (problem, good) => .error (problem, good + 1)
    else .error (.continuation, 0)

theorem tail_length {n : Nat} {range : UInt8 × UInt8} {value v : Nat} {bytes rest : List UInt8}
    (h : tail n range value bytes = .ok (v, rest)) : rest.length ≤ bytes.length := by
  induction n generalizing range value bytes with
  | zero =>
    simp only [tail, Except.ok.injEq, Prod.mk.injEq] at h
    simp [h.2]
  | succ n ih =>
    cases bytes with
    | nil => simp [tail] at h
    | cons b bytes =>
      simp only [tail] at h
      split at h
      · split at h
        · rename_i r hr
          simp only [Except.ok.injEq] at h
          subst h
          have := ih hr
          simp only [List.length_cons]
          omega
        · simp at h
      · simp at h

/-- The characters of the bytes; the first byte stands at `pos`. -/
def decodeFrom (pos : Nat) : List UInt8 → Except Error (List Char)
  | [] => .ok []
  | b :: bytes =>
    match lead? b with
    | none => .error ⟨.start, b, pos, 1⟩
    | some (n, value) =>
      match _h : tail n (second b) value bytes with
      | .error (problem, good) => .error ⟨problem, b, pos, good + 1⟩
      | .ok (v, rest) => (decodeFrom (pos + n + 1) rest).map (Char.ofNat v :: ·)
termination_by bytes => bytes.length
decreasing_by
  have := tail_length _h
  simp only [List.length_cons]
  omega

def decode (bytes : List UInt8) : Except Error (List Char) := decodeFrom 0 bytes

def encode (text : String) : List UInt8 := text.toUTF8.data.toList

theorem encode_append (s t : String) : encode (s ++ t) = encode s ++ encode t := by
  simp [encode]

end Gamebook.Utf8

namespace Gamebook

/-- Every kind of line break as a line feed. -/
def plainBreaks : List Char → List Char
  | [] => []
  | '\r' :: '\n' :: s => '\n' :: plainBreaks s
  | '\r' :: s => '\n' :: plainBreaks s
  | c :: s => c :: plainBreaks s

end Gamebook
