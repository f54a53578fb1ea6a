import Gamebook.Expr.Infix
import Gamebook.Expr.Lexeme
import Gamebook.Number.Numeral
import Gamebook.Source.Cursor

/-!
The expression machine reads one expression at the cursor. It alternates between
expecting an operand and expecting an operator. A comma closes a condition, and
the conditions of an expression are joined by `&&`. Parentheses and calls open a
level of their own: the outer level waits on a stack, so one step reads one lexeme
or closes one level, and every step that goes on takes at least one character.
-/
namespace Gamebook

/-- Known functions, each with its number of arguments or with none for any. -/
abbrev Registry := List (String × Option Int)

/-- What holds for all expressions of a script. -/
structure Setting where
  registry : Option Registry := none
  limit : Int := 64

/-- Where one expression ends, and how deep it already stands. -/
structure Goal where
  terminator : Pattern
  consume : Bool := true
  allowEnd : Bool := false
  depth : Int := 0

/-- An operand, and whether a property may be read off it. -/
structure Operand where
  expr : Expr
  chainable : Bool

/-- One condition while it is read; lists have the latest first. -/
structure Condition where
  chain : List (Expr × BinaryOp) := []
  signs : List UnaryOp := []
  operand : Option Operand := none

namespace Condition

def isEmpty (k : Condition) : Bool :=
  k.chain.isEmpty && k.signs.isEmpty && k.operand.isNone

/-- The operand under its pending signs, the first written outermost. -/
def signed (k : Condition) (e : Expr) : Expr :=
  k.signs.foldl (fun e op => .unary op e) e

def fill (k : Condition) (e : Expr) (chainable : Bool) : Condition :=
  { k with operand := some ⟨e, chainable⟩ }

def sign (k : Condition) (op : UnaryOp) : Condition :=
  { k with signs := op :: k.signs }

/-- The operand is complete and the operator comes after it. -/
def link (k : Condition) (e : Expr) (op : BinaryOp) : Condition :=
  { chain := (k.signed e, op) :: k.chain }

/-- The tree of a condition whose last operand is `e`. -/
def close (k : Condition) (e : Expr) : Expr :=
  Infix.tree k.chain.reverse (k.signed e)

end Condition

/-- One expression while it is read: where it began, the conditions behind it,
latest first, and the one being read. -/
structure Level where
  start : Nat
  behind : List Expr := []
  condition : Condition := {}

/-- Conditions joined in their order, the first innermost. -/
def conjoin (last : Expr) : List Expr → Expr
  | [] => last
  | e :: behind => .binary .and (conjoin e behind) last

namespace Level

def fill (l : Level) (e : Expr) (chainable : Bool) : Level :=
  { l with condition := l.condition.fill e chainable }

/-- The expression, if it may end here. -/
def finish (l : Level) (here : Nat) : Except Fault Expr :=
  if l.condition.isEmpty then
    if l.behind.isEmpty then .error (.refused .emptyExpression l.start)
    else .error (.refused .unterminated here)
  else match l.condition.operand with
    | none => .error (.refused .unterminated here)
    | some o => .ok (conjoin (l.condition.close o.expr) l.behind)

end Level

/-- What an inner level was opened for: a parenthesis, or the arguments of a call
that began at `place`, those already read latest first. -/
inductive Frame where
  | group
  | call (name : String) (place : Nat) (args : List Expr)

structure Machine where
  level : Level
  stack : List (Frame × Level) := []

inductive Step where
  | more (machine : Machine) (cursor : Cursor)
  | done (expr : Expr) (cursor : Cursor)
  | stop (fault : Fault) (cursor : Cursor)

def Step.cursor : Step → Cursor
  | more _ c => c
  | done _ c => c
  | stop _ c => c

/-- The complaint about a call with so many arguments, if there is one. -/
def Registry.complaint? (registry : Registry) (name : String) (given : Nat) : Option Complaint :=
  match registry.lookup name with
  | none => some (.unknownFunction name)
  | some none => none
  | some (some arity) => if arity = given then none else some (.wrongArity name arity given)

def Setting.complaint? (setting : Setting) (name : String) (given : Nat) : Option Complaint :=
  setting.registry.bind fun registry => registry.complaint? name given

namespace Machine

def refuse (complaint : Complaint) (place : Nat) (c : Cursor) : Step :=
  .stop (.refused complaint place) c

def fill (m : Machine) (e : Expr) (chainable : Bool) : Machine :=
  { m with level := m.level.fill e chainable }

def withCondition (m : Machine) (k : Condition) : Machine :=
  { m with level := { m.level with condition := k } }

/-- A number becomes an operand unless it is too long. -/
def fillNumeral (m : Machine) (value : Except Nat Expr) (c : Cursor) : Step :=
  match value with
  | .ok e => .more (m.fill e false) c
  | .error digits => .stop (.longNumeral digits) c

/-- Begin an inner level at the cursor, unless that is too deep. -/
def descend (setting : Setting) (goal : Goal) (m : Machine) (frame : Frame) (c : Cursor) : Step :=
  if setting.limit < goal.depth + (m.stack.length + 1 : Nat) then
    refuse .tooDeep c.pos (c.note "expression")
  else
    .more { level := { start := c.pos }, stack := (frame, m.level) :: m.stack }
      (c.note "expression")

/-- A call is complete: check it, and take it as an operand. -/
def finishCall (setting : Setting) (m : Machine) (name : String) (place : Nat) (args : List Expr)
    (c : Cursor) : Step :=
  match setting.complaint? name args.length with
  | some complaint => refuse complaint place c
  | none => .more (m.fill (.call name args.reverse) true) c

/-- Read a word into an operand, or ask for it. -/
def fillWord (m : Machine) (make : String → Expr) (chainable : Bool) (wanted : Wanted)
    (c : Cursor) : Step :=
  match Grammar.word.run c.rest with
  | some w => .more (m.fill (make (String.ofList w.text)) chainable) (c.past w).release
  | none => refuse (.expecting wanted) c.pos c.release

/-- The subject of a test: `no` or not, then a name. -/
def fillSubject (m : Machine) (make : String → Bool → Expr) (wanted : Wanted)
    (c : Cursor) : Step :=
  match (Grammar.keyword "no").run c.rest with
  | some n => m.fillWord (make · true) false wanted ((c.past n).skip Grammar.blanks)
  | none => m.fillWord (make · false) false wanted c

/-- One lexeme in operand position. The cursor stands after it and holds its text. -/
def operandStep (setting : Setting) (goal : Goal) (m : Machine) (here : Nat) (c : Cursor) :
    Lexeme → Step
  | .arithmetic op =>
    if op = .sub then .more (m.withCondition (m.level.condition.sign .minus)) c.release
    else refuse (.expecting .operand) here c.release
  | .negation => .more (m.withCondition (m.level.condition.sign .not)) c
  | .comparison _ | .logical _ => refuse (.expecting .operand) here c
  | .comma =>
    if m.level.condition.isEmpty && m.level.behind.isEmpty then
      refuse (.expecting .firstCondition) here c
    else refuse (.expecting .operand) here c
  | .range low high =>
    m.fillNumeral (do
      let low ← Numeral.integer? low
      let high ← Numeral.integer? high
      return .range low high) c
  | .callOpen name =>
    let c := c.skip Grammar.blanks
    match Grammar.parenClose.run c.rest with
    | some t => m.finishCall setting name here [] (c.past t)
    | none => m.descend setting goal (.call name here []) c
  | .parenOpen => m.descend setting goal .group c
  | .hasItem => m.fillSubject .hasItem .itemName c
  | .atNode => m.fillSubject .atNode .nodeName c
  | .constant name => .more (m.fill (.constant name) false) c.release
  | .quote =>
    match stringBody c.rest with
    | (content, some rest) =>
      .more (m.fill (.string (String.ofList content)) false) (c.advance rest).release
    | (content, none) =>
      let last := (c.advance []).hold content
      refuse (.expecting .stringEnd) last.pos last
  | .percent numeral => m.fillNumeral ((Numeral.number? numeral).map .percent) c
  | .number numeral => m.fillNumeral ((Numeral.number? numeral).map .number) c.release
  | .property _ => refuse .unexpectedDot here c
  | .varName => m.fillWord .localVar true .variableName c
  | .called => .more (m.fill (.localVar "_called") true) c
  | .localName name => .more (m.fill (.localVar name) true) c
  | .globalName name => .more (m.fill (.globalVar name) true) c
  | .blanks => .more m c

/-- One lexeme in operator position, after the operand `o`. -/
def operatorStep (m : Machine) (o : Operand) (here : Nat) (c : Cursor) : Lexeme → Step
  | .arithmetic op | .comparison op | .logical op =>
    .more (m.withCondition (m.level.condition.link o.expr op)) c.release
  | .comma =>
    .more { m with level :=
      { m.level with behind := m.level.condition.close o.expr :: m.level.behind, condition := {} } } c
  | .property name =>
    if o.chainable then .more (m.fill (.property o.expr name) true) c
    else refuse .unexpectedDot here c
  | .callOpen _ => refuse .unexpectedCall here c
  | .blanks => .more m c
  | _ => refuse .unexpectedOperand here c

/-- Read one lexeme. -/
def lexemeStep (setting : Setting) (goal : Goal) (m : Machine) (c : Cursor) : Step :=
  match m.level.condition.operand with
  | none =>
    match Lexeme.next? true c.rest with
    | some (lexeme, t) => m.operandStep setting goal c.pos ((c.past t).hold t.text) lexeme
    | none => refuse (if c.rest.isEmpty then .unexpectedEnd else .unexpectedToken) c.pos c.release
  | some o =>
    match Lexeme.next? false c.rest with
    | some (lexeme, t) => m.operatorStep o c.pos ((c.past t).hold t.text) lexeme
    | none => refuse (if c.rest.isEmpty then .unexpectedEnd else .unexpectedToken) c.pos c.release

/-- The outermost expression ends. -/
def conclude (m : Machine) (here : Nat) (c : Cursor) : Step :=
  match m.level.finish here with
  | .ok e => .done e c
  | .error fault => .stop fault c

/-- One step: close the level if its end comes next, else read one lexeme. -/
def step (setting : Setting) (goal : Goal) (m : Machine) (c : Cursor) : Step :=
  match m.stack with
  | [] =>
    match goal.terminator.run c.rest with
    | some t => m.conclude c.pos (if goal.consume then c.past t else c)
    | none =>
      if goal.allowEnd && c.rest.isEmpty then m.conclude c.pos c
      else m.lexemeStep setting goal c
  | (.group, outer) :: stack =>
    match Grammar.parenClose.run c.rest with
    | some t =>
      match m.level.finish c.pos with
      | .ok e => .more { level := outer.fill e false, stack } (c.past t)
      | .error fault => .stop fault (c.past t)
    | none => m.lexemeStep setting goal c
  | (.call name place args, outer) :: stack =>
    match Grammar.argumentEnd.run c.rest with
    | some t =>
      match m.level.finish c.pos with
      | .ok e =>
        let suspended : Machine := { level := outer, stack }
        if t.text = [')'] then suspended.finishCall setting name place (e :: args) (c.past t)
        else suspended.descend setting goal (.call name place (e :: args)) (c.past t)
      | .error fault => .stop fault c
    | none => m.lexemeStep setting goal c

@[simp] theorem cursor_refuse (complaint : Complaint) (place : Nat) (c : Cursor) :
    (refuse complaint place c).cursor = c := rfl

theorem length_le_of_more {s : Step} {m : Machine} {c c' : Cursor} (hr : c.Reaches s.cursor)
    (h : s = .more m c') : c'.rest.length ≤ c.rest.length := by
  subst h
  exact hr.length_le

theorem fillNumeral_reaches (m : Machine) (value : Except Nat Expr) (c : Cursor) :
    c.Reaches (m.fillNumeral value c).cursor := by
  unfold fillNumeral
  split <;> exact .refl c

theorem descend_reaches (setting : Setting) (goal : Goal) (m : Machine) (frame : Frame)
    (c : Cursor) : c.Reaches (m.descend setting goal frame c).cursor := by
  unfold descend
  split <;> exact (Cursor.Reaches.refl c).note _

theorem finishCall_reaches (setting : Setting) (m : Machine) (name : String) (place : Nat)
    (args : List Expr) (c : Cursor) :
    c.Reaches (m.finishCall setting name place args c).cursor := by
  unfold finishCall
  split <;> exact .refl c

theorem fillWord_reaches (m : Machine) (make : String → Expr) (chainable : Bool)
    (wanted : Wanted) (c : Cursor) : c.Reaches (m.fillWord make chainable wanted c).cursor := by
  unfold fillWord
  split
  · rename_i w h
    exact (Cursor.reaches_past h).release
  · exact (Cursor.Reaches.refl c).release

theorem fillSubject_reaches (m : Machine) (make : String → Bool → Expr) (wanted : Wanted)
    (c : Cursor) : c.Reaches (m.fillSubject make wanted c).cursor := by
  unfold fillSubject
  split
  · rename_i n h
    exact ((Cursor.reaches_past h).trans (Cursor.reaches_skip ..)).trans (fillWord_reaches ..)
  · exact fillWord_reaches ..

theorem operandStep_reaches (setting : Setting) (goal : Goal) (m : Machine) (here : Nat)
    (c : Cursor) (l : Lexeme) : c.Reaches (m.operandStep setting goal here c l).cursor := by
  cases l with
  | callOpen name =>
    have hs := Cursor.reaches_skip c Grammar.blanks
    simp only [operandStep]
    split
    · rename_i t h
      exact (hs.trans (Cursor.reaches_past h)).trans (finishCall_reaches ..)
    · exact hs.trans (descend_reaches ..)
  | quote =>
    simp only [operandStep]
    split
    · rename_i content rest h
      obtain ⟨taken, -, ht⟩ := stringBody_suffix (congrArg Prod.snd h)
      exact (Cursor.reaches_advance ht).release
    · exact (Cursor.reaches_advance (List.append_nil _).symm).hold _
  | range | percent => exact fillNumeral_reaches ..
  | number => exact (Cursor.Reaches.refl c).release.trans (fillNumeral_reaches ..)
  | parenOpen => exact descend_reaches ..
  | hasItem | atNode => exact fillSubject_reaches ..
  | varName => exact fillWord_reaches ..
  | arithmetic | comma => simp only [operandStep]; split <;> exact .refl c
  | _ => exact .refl c

theorem operatorStep_reaches (m : Machine) (o : Operand) (here : Nat) (c : Cursor) (l : Lexeme) :
    c.Reaches (m.operatorStep o here c l).cursor := by
  cases l with
  | property => simp only [operatorStep]; split <;> exact .refl c
  | _ => exact .refl c

/-- Reading a lexeme either stops in place or takes text. -/
theorem lexemeStep_reaches (setting : Setting) (goal : Goal) (m : Machine) (c : Cursor) :
    c.Reaches (m.lexemeStep setting goal c).cursor := by
  unfold lexemeStep
  split
  · split
    · rename_i l t h
      obtain ⟨p, hp⟩ := Lexeme.next?_run h
      exact ((Cursor.reaches_past hp).hold _).trans (operandStep_reaches ..)
    · exact .refl c
  · split
    · rename_i l t h
      obtain ⟨p, hp⟩ := Lexeme.next?_run h
      exact ((Cursor.reaches_past hp).hold _).trans (operatorStep_reaches ..)
    · exact .refl c

theorem conclude_cursor (m : Machine) (here : Nat) (c : Cursor) :
    (m.conclude here c).cursor = c := by
  unfold conclude
  split <;> rfl

theorem step_reaches (setting : Setting) (goal : Goal) (m : Machine) (c : Cursor) :
    c.Reaches (m.step setting goal c).cursor := by
  unfold step
  split
  · split
    · rename_i t h
      rw [conclude_cursor]
      split
      · exact Cursor.reaches_past h
      · exact .refl c
    · split
      · rw [conclude_cursor]
        exact .refl c
      · exact lexemeStep_reaches ..
  · split
    · rename_i t h
      split <;> exact Cursor.reaches_past h
    · exact lexemeStep_reaches ..
  · split
    · rename_i t h
      split
      · split
        · exact (Cursor.reaches_past h).trans (finishCall_reaches ..)
        · exact (Cursor.reaches_past h).trans (descend_reaches ..)
      · exact .refl c
    · exact lexemeStep_reaches ..

theorem lexemeStep_lt {setting : Setting} {goal : Goal} {m m' : Machine} {c c' : Cursor}
    (h : m.lexemeStep setting goal c = .more m' c') : c'.rest.length < c.rest.length := by
  unfold lexemeStep at h
  split at h
  · split at h
    · rename_i l t hn
      exact Nat.lt_of_le_of_lt (length_le_of_more (operandStep_reaches ..) h)
        (Lexeme.next?_length hn)
    · simp [refuse] at h
  · split at h
    · rename_i l t hn
      exact Nat.lt_of_le_of_lt (length_le_of_more (operatorStep_reaches ..) h)
        (Lexeme.next?_length hn)
    · simp [refuse] at h

theorem conclude_ne_more {m m' : Machine} {here : Nat} {c c' : Cursor} :
    m.conclude here c ≠ .more m' c' := by
  unfold conclude
  split <;> simp

theorem step_lt {setting : Setting} {goal : Goal} {m m' : Machine} {c c' : Cursor}
    (h : m.step setting goal c = .more m' c') : c'.rest.length < c.rest.length := by
  unfold step at h
  split at h
  · split at h
    · exact absurd h conclude_ne_more
    · split at h
      · exact absurd h conclude_ne_more
      · exact lexemeStep_lt h
  · split at h
    · rename_i t ht
      split at h
      · simp only [Step.more.injEq] at h
        rw [← h.2]
        exact Pattern.run_length_lt rfl ht
      · simp at h
    · exact lexemeStep_lt h
  · split at h
    · rename_i t ht
      have hlt : (c.past t).rest.length < c.rest.length := Pattern.run_length_lt rfl ht
      split at h
      · split at h
        · exact Nat.lt_of_le_of_lt (length_le_of_more (finishCall_reaches ..) h) hlt
        · exact Nat.lt_of_le_of_lt (length_le_of_more (descend_reaches ..) h) hlt
      · simp at h
    · exact lexemeStep_lt h

/-- Step until the expression is read or refused. -/
def run (setting : Setting) (goal : Goal) (m : Machine) (c : Cursor) :
    EStateM.Result Fault Cursor Expr :=
  match _h : m.step setting goal c with
  | .more m' c' => m'.run setting goal c'
  | .done e c' => .ok e c'
  | .stop fault c' => .error fault c'
termination_by c.rest.length
decreasing_by exact step_lt _h

theorem run_reaches (setting : Setting) (goal : Goal) (m : Machine) (c : Cursor) :
    c.Reaches (Read.reached (m.run setting goal c)) := by
  fun_induction run setting goal m c with
  | case1 m c m' c' h ih =>
    have hs := step_reaches setting goal m c
    rw [h] at hs
    exact hs.trans ih
  | case2 m c e c' h =>
    have hs := step_reaches setting goal m c
    rw [h] at hs
    exact hs
  | case3 m c fault c' h =>
    have hs := step_reaches setting goal m c
    rw [h] at hs
    exact hs

end Machine

/-- Read the expression at the cursor. -/
def Read.expr (setting : Setting) (goal : Goal) : Read Expr := fun c =>
  let c' := c.note "expression"
  if setting.limit < goal.depth then .error (.refused .tooDeep c.pos) c'
  else Machine.run setting goal { level := { start := c.pos } } c'

theorem Read.Advances.expr (setting : Setting) (goal : Goal) :
    Advances (Read.expr setting goal) := by
  intro c
  unfold Read.expr
  split
  · exact (Cursor.Reaches.refl c).note _
  · exact ((Cursor.Reaches.refl c).note _).trans (Machine.run_reaches ..)

/-- An expression on its own ends at a line break, a comment or the end of the text. -/
def Goal.line : Goal :=
  { terminator := Grammar.expressionEnd, consume := false, allowEnd := true }

/-- An expression in parentheses, read after the opening one. -/
def Goal.parens : Goal := { terminator := Grammar.parenClose }

/-- Read a text as one expression. -/
def Expr.ofText (setting : Setting) (text : List Char) : EStateM.Result Fault Cursor Expr :=
  Read.expr setting .line (.ofText text)

end Gamebook
