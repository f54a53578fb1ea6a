import Gamebook.Source.Diagnostic

/-!
Why reading a script stops. A complaint is a violation of the grammar; together
with the offset it is pinned to it is a fault. The one fault without a place is
an integer with more digits than the language allows.
-/
namespace Gamebook

/-- What the grammar asks for and the script does not have. -/
inductive Wanted where
  | operand | firstCondition | stringEnd
  | variableName | variableLabel | itemName | itemLabel | nodeName | modName | target
  | itemNameAndLabel | startTextAndNode | nodeNameAndDescription | itemAndNode
  | nodeOrItem | conditionOrNode | actionLabel | message | skipCount
  | labelledPath | describedPath | pathEnds
  | category | place | lineEnd
  | lines (heading : String)
  deriving DecidableEq, Repr

def Wanted.phrase : Wanted → String
  | operand => "operand"
  | firstCondition => "first condition"
  | stringEnd => "end of string"
  | variableName => "variable name"
  | variableLabel => "variable label"
  | itemName => "item name"
  | itemLabel => "item label"
  | nodeName => "node name"
  | modName => "mod name"
  | target => "target identifier"
  | itemNameAndLabel => "item name and label"
  | startTextAndNode => "start text and start node"
  | nodeNameAndDescription => "node name and description"
  | itemAndNode => "item and node name"
  | nodeOrItem => "node or item name"
  | conditionOrNode => "condition or node name"
  | actionLabel => "action label"
  | message => "message"
  | skipCount => "skip count"
  | labelledPath => "from node, label and to node"
  | describedPath => "from node, description and to node"
  | pathEnds => "from node and to node"
  | category => "[pick|check|use|lay]"
  | place => "[no|player|nodeName]"
  | lineEnd => "line end or variable assignment"
  | lines heading => s!"{heading} definition"

inductive Complaint where
  | expecting (what : Wanted)
  | unexpectedToken | unexpectedOperand | unexpectedCall | unexpectedDot | unexpectedEnd
  | emptyExpression | unterminated | tooDeep
  | unknownFunction (name : String)
  | wrongArity (name : String) (arity : Int) (given : Nat)
  | startDefined | noEffect
  | unknownAction | unknownCommand
  | unexpectedAction (text : String)
  deriving DecidableEq, Repr

def Complaint.message : Complaint → String
  | expecting what => s!"Expecting {what.phrase}"
  | unexpectedToken => "Unexpected token"
  | unexpectedOperand => "Unexpected operand"
  | unexpectedCall => "Unexpected function operand"
  | unexpectedDot => "Unexpected dot notation"
  | unexpectedEnd => "Unexpected end of expression"
  | emptyExpression => "Empty expression"
  | unterminated => "Unterminated expression"
  | tooDeep => "Expression nested too deeply"
  | unknownFunction name => s!"Unknown function '{name}'"
  | wrongArity name arity given =>
    let noun := if arity == 1 then "argument" else "arguments"
    s!"Function '{name}' expects {arity} {noun}, got {given}"
  | startDefined => "Start already defined"
  | noEffect => "Message or modifier must be specified"
  | unknownAction => "Undefined action"
  | unknownCommand => "Undefined command"
  | unexpectedAction text => s!"Unexpected action {text}"

inductive Fault where
  | refused (complaint : Complaint) (pos : Nat)
  | longNumeral (digits : Nat)
  deriving DecidableEq, Repr

/-- The diagnostic of a complaint in a named source. -/
def Complaint.diagnose (complaint : Complaint) (source : List Char) (filename : String)
    (pos : Nat) : Diagnostic :=
  ⟨complaint.message, source, pos, filename⟩

end Gamebook
