import Gamebook.Expr.Basic

/-!
Flat chains of operands and binary operators, and the trees they stand for. The
operands read so far wait on a stack, each with the operator that follows it; an
operator first collapses all waiting ones that bind at least as tightly, so equal
precedence groups to the left.
-/
namespace Gamebook.Infix

/-- Waiting operands, innermost first, each with the operator after it. -/
abbrev Stack := List (Expr × BinaryOp)

/-- Apply the waiting operators of precedence at least `p` to the operand. -/
def collapse (p : Nat) : Stack → Expr → Stack × Expr
  | [], e => ([], e)
  | (left, op) :: stack, e =>
    if p ≤ op.precedence then collapse p stack (.binary op left e) else ((left, op) :: stack, e)

/-- The tree of a chain: operands each with the operator after it, then the last
operand. -/
def build (stack : Stack) : List (Expr × BinaryOp) → Expr → Expr
  | [], last => (collapse 0 stack last).2
  | (e, op) :: chain, last =>
    let (stack, e) := collapse op.precedence stack e
    build ((e, op) :: stack) chain last

def tree (chain : List (Expr × BinaryOp)) (last : Expr) : Expr :=
  build [] chain last

end Gamebook.Infix
