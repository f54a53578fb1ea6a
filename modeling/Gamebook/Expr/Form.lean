import Gamebook.Data.Basic
import Gamebook.Expr.Basic

/-!
The engine form of an expression: one record per node, tagged with its type. A
constant without a value and a node of no kind have no engine form.
-/
namespace Gamebook

/-- Why a tree has no engine form. -/
inductive FormError where
  | unknownConstant (name : String)
  | blankNode
  deriving DecidableEq, Repr

namespace Expr

/-- A record whose first field is its type. -/
def tagged (type : String) (fields : List (String × Data)) : Data :=
  .record (("type", .text type) :: fields)

mutual

def form : Expr → Except FormError Data
  | number n => .ok (tagged "number" [("value", .number n)])
  | string s => .ok (tagged "string" [("value", .text s)])
  | constant name =>
    match constantValue? name with
    | some v => .ok (tagged "constant" [("name", .text name), ("value", .nat v)])
    | none => .error (.unknownConstant name)
  | localVar name => .ok (tagged "local" [("name", .text name)])
  | globalVar name => .ok (tagged "global" [("name", .text name)])
  | property target name => do
    let target ← target.form
    return tagged "property" [("target", target), ("name", .text name)]
  | call name args => do
    let args ← formAll args
    return tagged "call" [("name", .text name), ("args", .list args)]
  | hasItem item negated => .ok (tagged "hasItem" [("item", .text item), ("no", .bool negated)])
  | atNode node negated => .ok (tagged "atNode" [("node", .text node), ("no", .bool negated)])
  | range low high =>
    .ok (tagged "range" [("from", .number (.int low)), ("to", .number (.int high))])
  | percent n => .ok (tagged "percent" [("value", .number n)])
  | unary op operand => do
    let operand ← operand.form
    return tagged "unary" [("op", .text op.symbol), ("operand", operand)]
  | binary op left right => do
    let left ← left.form
    let right ← right.form
    return tagged "binary" [("op", .text op.symbol), ("left", left), ("right", right)]
  | blank => .error .blankNode

def formAll : List Expr → Except FormError (List Data)
  | [] => .ok []
  | e :: es => do
    let d ← e.form
    let ds ← formAll es
    return d :: ds

end

end Expr
end Gamebook
