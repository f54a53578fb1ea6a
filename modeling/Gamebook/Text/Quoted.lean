import Gamebook.Text.Printable

/-!
Quoted text, as values are shown in messages. Single quotes unless the text has
one and has no double quote; the quote in use, the backslash and three layout
characters are written with a backslash, and what cannot be printed as the
hexadecimal code point in two, four or eight places.
-/
namespace Gamebook.Quoted

def hexDigits (width n : Nat) : List Char :=
  let digits := Nat.toDigits 16 n
  List.replicate (width - digits.length) '0' ++ digits

def quoteFor (text : List Char) : Char :=
  if text.contains '\'' && !text.contains '"' then '"' else '\''

def encodeChar (quote c : Char) : List Char :=
  if c == quote || c == '\\' then ['\\', c]
  else if c == '\n' then ['\\', 'n']
  else if c == '\r' then ['\\', 'r']
  else if c == '\t' then ['\\', 't']
  else if isPrintable c then [c]
  else if c.toNat < 0x100 then '\\' :: 'x' :: hexDigits 2 c.toNat
  else if c.toNat < 0x10000 then '\\' :: 'u' :: hexDigits 4 c.toNat
  else '\\' :: 'U' :: hexDigits 8 c.toNat

def encode (text : List Char) : List Char :=
  let quote := quoteFor text
  quote :: (text.flatMap (encodeChar quote) ++ [quote])

end Gamebook.Quoted

namespace Gamebook

def quoted (text : String) : String :=
  String.ofList (Quoted.encode text.toList)

end Gamebook
