import Gamebook.Number.Basic

/-!
Numerals of a script: digits, with a fraction or without. Without one they are
an integer, of at most 4300 digits; with one, the nearest double.
-/
namespace Gamebook.Numeral

/-- The most digits an integer may have, in a script and in a written value. -/
def digitLimit : Nat := 4300

def digitsValue (digits : List Char) : Nat :=
  digits.foldl (fun n c => 10 * n + (c.toNat - '0'.toNat)) 0

/-- The value of plain digits, or their number when there are too many. -/
def integer? (digits : List Char) : Except Nat Nat :=
  if digits.length ≤ digitLimit then .ok (digitsValue digits) else .error digits.length

def decimal (whole fraction : List Char) : Float :=
  Nearest.ratio (digitsValue (whole ++ fraction)) (pow10 fraction.length)

def number? (text : List Char) : Except Nat Number :=
  match text.dropWhile (· != '.') with
  | _ :: fraction => .ok (.real (decimal (text.takeWhile (· != '.')) fraction))
  | [] => (integer? text).map fun n => .int n

/-- Plain digits with a sign or without. -/
def signedValue : List Char → Int
  | '-' :: digits => -(digitsValue digits : Int)
  | '+' :: digits => digitsValue digits
  | digits => digitsValue digits

/-- The size of a written double: a decimal with an exponent or without, or a word. -/
def magnitude (negative : Bool) (text : List Char) : Float :=
  let mantissa := text.takeWhile (· != 'e')
  let whole := mantissa.takeWhile (· != '.')
  let fraction := mantissa.drop (whole.length + 1)
  let power := signedValue (text.drop (mantissa.length + 1)) - fraction.length
  Nearest.signed negative (digitsValue (whole ++ fraction) * pow10 power.toNat)
    (pow10 (-power).toNat)

/-- The double that a text written for one stands for. -/
def double (text : List Char) : Float :=
  match text with
  | ['n', 'a', 'n'] => Float.ofBits 0x7ff8000000000000
  | ['i', 'n', 'f'] => Float.ofBits 0x7ff0000000000000
  | ['-', 'i', 'n', 'f'] => Float.ofBits 0xfff0000000000000
  | '-' :: size => magnitude true size
  | size => magnitude false size

/-- The complaint about an integer with too many digits. -/
def tooLongMessage (digits : Nat) : String :=
  s!"Exceeds the limit ({digitLimit} digits) for integer string conversion: " ++
    s!"value has {digits} digits; use sys.set_int_max_str_digits() to increase the limit"

end Gamebook.Numeral
