import Gamebook.Number.Basic

/-!
Expression trees. The reader of scripts builds only trees over the operators of
the language; a tree made by hand may also hold an operator it does not know,
an unnamed constant, or a node of no kind, and what becomes of those is decided
where the tree is used.
-/
namespace Gamebook

inductive UnaryOp where
  | minus | not
  | other (symbol : String)
  deriving DecidableEq, Repr

inductive BinaryOp where
  | or | and
  | eq | ne
  | lt | le | gt | ge
  | add | sub
  | mul | div
  | other (symbol : String)
  deriving DecidableEq, Repr

namespace UnaryOp

def symbol : UnaryOp → String
  | minus => "-"
  | not => "!"
  | other s => s

def ofSymbol (s : String) : UnaryOp :=
  if s = "-" then minus else if s = "!" then not else other s

end UnaryOp

namespace BinaryOp

def symbol : BinaryOp → String
  | or => "||"
  | and => "&&"
  | eq => "=="
  | ne => "!="
  | lt => "<"
  | le => "<="
  | gt => ">"
  | ge => ">="
  | add => "+"
  | sub => "-"
  | mul => "*"
  | div => "/"
  | other s => s

/-- The operators of the language. -/
def all : List BinaryOp := [or, and, eq, ne, lt, le, gt, ge, add, sub, mul, div]

def ofSymbol (s : String) : BinaryOp :=
  (all.find? (·.symbol == s)).getD (other s)

/-- Binding power; the higher binds tighter. -/
def precedence : BinaryOp → Nat
  | or => 1
  | and => 2
  | eq | ne => 3
  | lt | le | gt | ge => 4
  | add | sub => 5
  | mul | div => 6
  | other _ => 0

end BinaryOp

inductive Expr where
  | number (value : Number)
  | string (value : String)
  | constant (name : String)
  | localVar (name : String)
  | globalVar (name : String)
  | property (target : Expr) (name : String)
  | call (name : String) (args : List Expr)
  | hasItem (item : String) (negated : Bool)
  | atNode (node : String) (negated : Bool)
  | range (low high : Int)
  | percent (value : Number)
  | unary (op : UnaryOp) (operand : Expr)
  | binary (op : BinaryOp) (left right : Expr)
  /-- A node of no kind. -/
  | blank
  deriving Repr

namespace Expr

/-- The constants are numbers; `null` and `false` are the same one. -/
def constantValue? (name : String) : Option Nat :=
  if name = "true" then some 1
  else if name = "false" ∨ name = "null" then some 0
  else none

mutual

/-- Equality of trees, with numbers compared as numbers. -/
def same : Expr → Expr → Bool
  | number a, number b => a.same b
  | string a, string b => a == b
  | constant a, constant b => a == b
  | localVar a, localVar b => a == b
  | globalVar a, globalVar b => a == b
  | property t a, property u b => same t u && a == b
  | call a xs, call b ys => a == b && sameAll xs ys
  | hasItem a s, hasItem b t => a == b && s == t
  | atNode a s, atNode b t => a == b && s == t
  | range a b, range c d => a == c && b == d
  | percent a, percent b => a.same b
  | unary o a, unary p b => o == p && same a b
  | binary o a b, binary p c d => o == p && same a c && same b d
  | blank, blank => true
  | _, _ => false

def sameAll : List Expr → List Expr → Bool
  | [], [] => true
  | x :: xs, y :: ys => same x y && sameAll xs ys
  | _, _ => false

end

end Expr
end Gamebook
