import Gamebook.Expr.Describe
import Gamebook.Value.Arithmetic

/-!
Evaluation of expressions against a game engine. The engine has variables of two
kinds, functions, and a source of random numbers. Calls and draws are effects, and
are recorded in order whether or not the evaluation succeeds; what the engine
answers, the variables included, may depend on everything that happened before. A
value stays what it was when it was given.
-/
namespace Gamebook

inductive Effect where
  | call (function : String) (args : List Value)
  | uniform
  | between (low high : Int)
  deriving Repr

/-- The effects so far, latest first. -/
abbrev History := List Effect

/-- Why an engine function has no result: it does not take such arguments, or it
failed in a way of its own. -/
inductive Refusal where
  | arguments (text : String)
  | raised (kind message : String)
  deriving DecidableEq, Repr

abbrev Function := History → List Value → Except Refusal Value

structure Engine where
  /-- Variables of the session; a missing one is null. -/
  locals : String → History → Value
  /-- Variables that last; a missing one is null. -/
  globals : String → History → Value
  functions : String → Option Function
  /-- Attributes of values that are not data; a missing one is null. -/
  feature : Value → String → Value
  /-- A draw from zero up to one. -/
  uniform : History → Float
  /-- A draw between two integers, both included. -/
  between : History → Int → Int → Int
  /-- The bytes that a repeated text or list may take. -/
  room : Nat

/-- What is wrong with a node that cannot be evaluated. -/
inductive Problem where
  | unknownFunction (name : String)
  | callFailed (name text : String)
  | cannotNegate (operand : String)
  | divisionByZero
  | unsupportedOperands (symbol left right : String)
  | unsupportedNode (node : String)
  deriving DecidableEq, Repr

def Problem.message : Problem → String
  | unknownFunction name => s!"Unknown function '{name}'"
  | callFailed name text => s!"Function '{name}' failed: {text}"
  | cannotNegate operand => s!"Cannot negate {operand}"
  | divisionByZero => "Division by zero"
  | unsupportedOperands symbol left right =>
    s!"Unsupported operands for {symbol}: {left} and {right}"
  | unsupportedNode node => s!"Unsupported expression {node}"

inductive EvalFault where
  /-- A node has a problem. -/
  | failed (problem : Problem) (node : Expr)
  /-- A number is out of range. -/
  | outOfRange (error : ArithmeticError)
  /-- A repeated text or list had to take more memory than there is. -/
  | outOfMemory
  /-- An integer with too many digits had to be written. -/
  | longInteger
  | unknownConstant (name : String)
  | unknownOperator (symbol : String)
  /-- An engine function failed in a way of its own. -/
  | raised (kind message : String)
  deriving Repr

/-- The complaint about an integer that is too long to be written. -/
def longIntegerMessage : String :=
  s!"Exceeds the limit ({Numeral.digitLimit} digits) for integer string conversion; " ++
    "use sys.set_int_max_str_digits() to increase the limit"

abbrev Eval := EStateM EvalFault History

namespace Eval

def record (effect : Effect) : Eval Unit := modify (effect :: ·)

/-- The value as messages show it, unless it is too long. -/
def describe (v : Value) : Eval String :=
  if v.isWritable then pure v.describe else throw .longInteger

def asText (v : Value) : Eval String :=
  if v.isWritable then pure v.asText else throw .longInteger

/-- Call an engine function; the call is recorded before it runs. -/
def call (engine : Engine) (name : String) (args : List Value) (node : Expr) : Eval Value := do
  match engine.functions name with
  | none => throw (.failed (.unknownFunction name) node)
  | some f =>
    let before ← get
    record (.call name args)
    match f before args with
    | .ok v => return v
    | .error (.arguments text) => throw (.failed (.callFailed name text) node)
    | .error (.raised kind message) => throw (.raised kind message)

/-- A draw between two bounds given in either order. -/
def drawBetween (engine : Engine) (low high : Int) : Eval Value := do
  let before ← get
  let (least, most) := (min low high, max low high)
  record (.between least most)
  return .int (engine.between before least most)

/-- Does a draw from zero up to a hundred fall below the number? -/
def drawBelow (engine : Engine) (percent : Number) : Eval Value := do
  let before ← get
  record .uniform
  let draw := Number.real (engine.uniform before * 100)
  return .bool (draw.compare? percent == some .lt)

def negate (v : Value) (node : Expr) : Eval Value := do
  match v.negate? with
  | some w => return w
  | none => throw (.failed (.cannotNegate (← describe v)) node)

def unsupported (op : BinaryOp) (v w : Value) (node : Expr) : Eval Value := do
  throw (.failed (.unsupportedOperands op.symbol (← describe v) (← describe w)) node)

/-- Null is in no order with anything. -/
def ordering (op : BinaryOp) (accepts : Ordering → Bool) (v w : Value) (node : Expr) :
    Eval Value :=
  match v, w with
  | .null, _ | _, .null => return .bool false
  | _, _ =>
    match v.order? w with
    | some order => return .bool (order.any accepts)
    | none => unsupported op v w node

def arithmetic (op : BinaryOp) (f : Value → Value → Except ArithmeticError Value) (v w : Value)
    (node : Expr) : Eval Value :=
  match f v w with
  | .ok u => return u
  | .error .unsupported => unsupported op v w node
  | .error .divisionByZero => throw (.failed .divisionByZero node)
  | .error .outOfMemory => throw .outOfMemory
  | .error e => throw (.outOfRange e)

/-- Sums join texts, so whatever meets a text is written. -/
def sum (v w : Value) (node : Expr) : Eval Value :=
  match v, w with
  | .text _, _ | _, .text _ => return .text ((← asText v) ++ (← asText w))
  | _, _ => arithmetic .add Value.add v w node

/-- An operator whose operands are both evaluated. -/
def strict (room : Nat) (op : BinaryOp) (v w : Value) (node : Expr) : Eval Value :=
  match op with
  | .eq => return .bool (v.same w)
  | .ne => return .bool (!v.same w)
  | .lt => ordering op (· == .lt) v w node
  | .le => ordering op (· != .gt) v w node
  | .gt => ordering op (· == .gt) v w node
  | .ge => ordering op (· != .lt) v w node
  | .add => sum v w node
  | .sub => arithmetic op Value.subtract v w node
  | .mul => arithmetic op (Value.multiply room) v w node
  | .div => arithmetic op Value.divide v w node
  | .and | .or | .other _ => throw (.unknownOperator op.symbol)

end Eval

mutual

def Expr.eval (engine : Engine) : Expr → Eval Value
  | .number n => return .number n
  | .string s => return .text s
  | .constant name =>
    match Expr.constantValue? name with
    | some n => return .int n
    | none => throw (.unknownConstant name)
  | .localVar name => return engine.locals name (← get)
  | .globalVar name => return engine.globals name (← get)
  | .property target name => return (← target.eval engine).property engine.feature name
  | .call name args => do
    let values ← Expr.evalAll engine args
    Eval.call engine name values (.call name args)
  | .hasItem item negated =>
    Eval.call engine "hasItem" [.text item, .bool negated] (.hasItem item negated)
  | .atNode node negated =>
    Eval.call engine "atNode" [.text node, .bool negated] (.atNode node negated)
  | .range low high => Eval.drawBetween engine low high
  | .percent n => Eval.drawBelow engine n
  | .unary op operand => do
    let v ← operand.eval engine
    match op with
    | .not => return .bool (!v.isTrue)
    | _ => Eval.negate v (.unary op operand)
  | .binary .and left right => do
    let v ← left.eval engine
    if v.isTrue then right.eval engine else return v
  | .binary .or left right => do
    let v ← left.eval engine
    if v.isTrue then return v else right.eval engine
  | .binary op left right => do
    let v ← left.eval engine
    let w ← right.eval engine
    Eval.strict engine.room op v w (.binary op left right)
  | .blank => throw (.failed (.unsupportedNode (Expr.describe .blank)) .blank)

/-- Arguments are evaluated from left to right. -/
def Expr.evalAll (engine : Engine) : List Expr → Eval (List Value)
  | [] => return []
  | e :: es => do
    let v ← e.eval engine
    let vs ← Expr.evalAll engine es
    return v :: vs

end

end Gamebook
