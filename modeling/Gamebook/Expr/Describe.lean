import Gamebook.Expr.Basic
import Gamebook.Number.Text
import Gamebook.Text.Quoted

/-!
Short descriptions of expressions, for messages and for people.
-/
namespace Gamebook.Expr

/-- The subject of an inventory or location test, with its negation. -/
def subject (name : String) (negated : Bool) : String :=
  if negated then "no " ++ name else name

def describe : Expr → String
  | number n => s!"Number({n.text})"
  | string s => s!"String({quoted s})"
  | constant name => s!"Constant({name})"
  | localVar name => s!"LocalVar(${name})"
  | globalVar name => s!"GlobalVar(@{name})"
  | property target name => s!"Property({target.describe}.{name})"
  | call name args => s!"Call({name}, {args.length} args)"
  | hasItem item negated => s!"HasItem({subject item negated})"
  | atNode node negated => s!"AtNode({subject node negated})"
  | range low high => s!"RandomRange({low} to {high})"
  | percent n => s!"PercentChance({n.text}%)"
  | unary op operand => s!"Unary({op.symbol} {operand.describe})"
  | binary op left right => s!"Binary({left.describe} {op.symbol} {right.describe})"
  | blank => "Expr()"

/-- The name of the node's kind. -/
def kind : Expr → String
  | number _ => "NUMBER"
  | string _ => "STRING"
  | constant _ => "CONSTANT"
  | localVar _ => "LOCAL_VAR"
  | globalVar _ => "GLOBAL_VAR"
  | property .. => "PROPERTY"
  | call .. => "CALL"
  | hasItem .. => "HAS_ITEM"
  | atNode .. => "AT_NODE"
  | range .. => "RANDOM_RANGE"
  | percent _ => "PERCENT_CHANCE"
  | unary .. => "UNARY"
  | binary .. => "BINARY"
  | blank => ""

end Gamebook.Expr
