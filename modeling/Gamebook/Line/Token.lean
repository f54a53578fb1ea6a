import Gamebook.Expr.Describe

/-!
Tokens of a record's line. A token knows the offset of its first character. One
made by hand may lack its value and have a kind only.
-/
namespace Gamebook

/-- A range of numbers, both ends included. -/
structure Range where
  low : Number
  high : Number
  deriving DecidableEq, Repr

inductive TokenKind where
  | string | number | range | variableName | word | expression
  deriving DecidableEq, Repr

inductive Content where
  | string (text : String)
  | number (value : Number)
  | range (value : Range)
  | variableName (name : String)
  | word (name : String)
  | expression (expr : Expr)
  | missing (kind : TokenKind)
  deriving Repr

structure Token where
  content : Content
  offset : Nat
  deriving Repr

/-- The tokens of a line, read from the front. -/
abbrev Line := List Token

namespace Range

def describe (r : Range) : String := s!"Range({r.low.text} to {r.high.text})"

def same (r s : Range) : Bool := r.low.same s.low && r.high.same s.high

end Range

namespace TokenKind

def name : TokenKind → String
  | string => "STRING"
  | number => "NUMERIC"
  | range => "RANGE"
  | variableName => "VARIABLE"
  | word => "IDENTIFIER"
  | expression => "EXPRESSION"

def all : List TokenKind := [string, number, range, variableName, word, expression]

end TokenKind

namespace Content

def kind : Content → TokenKind
  | string _ => .string
  | number _ => .number
  | range _ => .range
  | variableName _ => .variableName
  | word _ => .word
  | expression _ => .expression
  | missing k => k

/-- The value as warnings show it. -/
def describe : Content → String
  | string s | variableName s | word s => quoted s
  | number n => n.text
  | range r => r.describe
  | expression e => e.describe
  | missing _ => "None"

/-- The value on its own, texts without quotes. -/
def plain : Content → String
  | string s | variableName s | word s => s
  | c => c.describe

def string? : Content → Option String
  | string s => some s
  | _ => none

def number? : Content → Option Number
  | number n => some n
  | _ => none

def range? : Content → Option Range
  | range r => some r
  | _ => none

def variableName? : Content → Option String
  | variableName s => some s
  | _ => none

def word? : Content → Option String
  | word s => some s
  | _ => none

def expression? : Content → Option Expr
  | expression e => some e
  | _ => none

end Content

def Token.describe (t : Token) : String :=
  s!"Token({t.content.kind.name}, {t.content.describe})"

def Line.describe (line : Line) : String :=
  "TokenList([" ++ ", ".intercalate (line.map Token.describe) ++ "])"

/-- The values of the tokens, as warnings list them. -/
def Line.values (line : Line) : String :=
  ", ".intercalate (line.map (·.content.describe))

end Gamebook
