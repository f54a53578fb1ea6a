import Gamebook.Proofs.Proper

/-!
Nothing is asked for that is not there. The bare machine keeps its parts apart: the operands
and the operators of a condition are two lists, whether an operand is expected is told beside
the operand that is open, and a condition is folded on two stacks. Each of its operations can
fail: an operand may be missing under its signs or for an operator, a stack or a list may be
empty, an operator may be unknown, and an argument may end in neither of its two ways. From a
fresh start none ever does, and the bare machine does what the machine does.
-/
namespace Gamebook

open Grammar

/-- What a lexeme comes to where an operand is expected. -/
inductive Found where
  | operand (expr : Expr) (chainable : Bool) (cursor : Cursor)
  | sign (op : UnaryOp) (cursor : Cursor)
  | level (frame : Frame) (cursor : Cursor)
  | emptyCall (name : String) (place : Nat) (cursor : Cursor)
  | comma (cursor : Cursor)
  | nothing (cursor : Cursor)
  | fault (fault : Fault) (cursor : Cursor)

namespace Found

def refused (complaint : Complaint) (place : Nat) (c : Cursor) : Found :=
  fault (.refused complaint place) c

def numeral (value : Except Nat Expr) (c : Cursor) : Found :=
  match value with
  | .ok e => operand e false c
  | .error digits => fault (.longNumeral digits) c

def word (make : String → Expr) (chainable : Bool) (wanted : Wanted) (c : Cursor) : Found :=
  match Grammar.word.run c.rest with
  | some w => operand (make (String.ofList w.text)) chainable (c.past w).release
  | none => refused (.expecting wanted) c.pos c.release

def subject (make : String → Bool → Expr) (wanted : Wanted) (c : Cursor) : Found :=
  match (keyword "no").run c.rest with
  | some n => word (make · true) false wanted ((c.past n).skip blanks)
  | none => word (make · false) false wanted c

def ofLexeme (here : Nat) (c : Cursor) : Lexeme → Found
  | .arithmetic op =>
    if op = .sub then sign .minus c.release else refused (.expecting .operand) here c.release
  | .negation => sign .not c
  | .comparison _ | .logical _ => refused (.expecting .operand) here c
  | .comma => comma c
  | .range low high =>
    numeral (do
      let low ← Numeral.integer? low
      let high ← Numeral.integer? high
      return .range low high) c
  | .callOpen name =>
    let c := c.skip blanks
    match parenClose.run c.rest with
    | some t => emptyCall name here (c.past t)
    | none => level (.call name here []) c
  | .parenOpen => level .group c
  | .hasItem => subject .hasItem .itemName c
  | .atNode => subject .atNode .nodeName c
  | .constant name => operand (.constant name) false c.release
  | .quote =>
    match stringBody c.rest with
    | (content, some rest) =>
      operand (.string (String.ofList content)) false (c.advance rest).release
    | (content, none) =>
      let last := (c.advance []).hold content
      refused (.expecting .stringEnd) last.pos last
  | .percent text => numeral ((Numeral.number? text).map .percent) c
  | .number text => numeral ((Numeral.number? text).map .number) c.release
  | .property _ => refused .unexpectedDot here c
  | .varName => word .localVar true .variableName c
  | .called => operand (.localVar "_called") true c
  | .localName name => operand (.localVar name) true c
  | .globalName name => operand (.globalVar name) true c
  | .blanks => nothing c

end Found

namespace Machine

variable {setting : Setting} {goal : Goal} {m : Machine}

/-- Go on with what was found. -/
def accept (setting : Setting) (goal : Goal) (m : Machine) (here : Nat) : Found → Step
  | .operand e chainable c => .more (m.fill e chainable) c
  | .sign op c => .more (m.withCondition (m.level.condition.sign op)) c
  | .level frame c => m.descend setting goal frame c
  | .emptyCall name place c => m.finishCall setting name place [] c
  | .comma c =>
    if m.level.condition.isEmpty && m.level.behind.isEmpty then
      refuse (.expecting .firstCondition) here c
    else refuse (.expecting .operand) here c
  | .nothing c => .more m c
  | .fault fault c => .stop fault c

theorem fillNumeral_eq (value : Except Nat Expr) (here : Nat) (c : Cursor) :
    m.fillNumeral value c = m.accept setting goal here (.numeral value c) := by
  cases value <;> rfl

theorem fillWord_eq (make : String → Expr) (chainable : Bool) (wanted : Wanted) (here : Nat)
    (c : Cursor) : m.fillWord make chainable wanted c =
      m.accept setting goal here (.word make chainable wanted c) := by
  unfold fillWord Found.word
  cases Grammar.word.run c.rest <;> rfl

theorem fillSubject_eq (make : String → Bool → Expr) (wanted : Wanted) (here : Nat) (c : Cursor) :
    m.fillSubject make wanted c = m.accept setting goal here (.subject make wanted c) := by
  unfold fillSubject Found.subject
  cases (keyword "no").run c.rest <;> exact fillWord_eq ..

theorem operandStep_eq (here : Nat) (c : Cursor) (l : Lexeme) :
    m.operandStep setting goal here c l = m.accept setting goal here (.ofLexeme here c l) := by
  cases l with
  | arithmetic op =>
    by_cases h : op = .sub
    · simp only [operandStep, Found.ofLexeme, if_pos h]; rfl
    · simp only [operandStep, Found.ofLexeme, if_neg h]; rfl
  | range | percent | number => exact fillNumeral_eq ..
  | callOpen name =>
    simp only [operandStep, Found.ofLexeme]
    cases parenClose.run (c.skip blanks).rest <;> rfl
  | hasItem | atNode => exact fillSubject_eq ..
  | quote =>
    simp only [operandStep, Found.ofLexeme]
    cases stringBody c.rest with
    | mk content rest => cases rest <;> rfl
  | varName => exact fillWord_eq ..
  | _ => rfl

end Machine

namespace Bare

/-- The binding power of an operator of the language. -/
def precedence? (op : BinaryOp) : Option Nat :=
  if op ∈ BinaryOp.all then some op.precedence else none

/-- Apply the pending operators that bind at least as tightly to the values under them. -/
def drain? (p : Nat) : List Expr → List BinaryOp → Option (List Expr × List BinaryOp)
  | values, [] => some (values, [])
  | values, op :: pending => do
    if p ≤ (← precedence? op) then
      match values with
      | right :: left :: values => drain? p (.binary op left right :: values) pending
      | _ => none
    else return (values, op :: pending)

/-- Apply all pending operators; the result is the first value. -/
def reduce? : List Expr → List BinaryOp → Option Expr
  | values, [] => values.getLast?
  | right :: left :: values, op :: pending => reduce? (.binary op left right :: values) pending
  | _, _ :: _ => none

def fold? (values : List Expr) (pending : List BinaryOp) : List (BinaryOp × Expr) → Option Expr
  | [] => reduce? values pending
  | (op, e) :: chain => do
    let (values, pending) ← drain? (← precedence? op) values pending
    fold? (e :: values) (op :: pending) chain

/-- A condition while it is read; lists have the latest first. -/
structure Segment where
  operands : List Expr := []
  operators : List BinaryOp := []
  current : Option Expr := none
  signs : List UnaryOp := []
  chainable : Bool := false

namespace Segment

def isEmpty (k : Segment) : Bool := k.operands.isEmpty && k.current.isNone && k.signs.isEmpty

/-- Commit the open operand under its signs. -/
def close? (k : Segment) : Option Segment := do
  let e ← k.current
  return { operands := k.signs.foldl (fun e op => .unary op e) e :: k.operands,
           operators := k.operators }

/-- The tree of a condition that has one operand more than operators. -/
def build? (k : Segment) : Option Expr :=
  match k.operands.reverse with
  | [] => none
  | first :: rest =>
    if rest.length = k.operators.length then fold? [first] [] (k.operators.reverse.zip rest)
    else none

/-- That a property may follow is only ever switched on. -/
def fill (k : Segment) (e : Expr) (chainable : Bool) : Segment :=
  { k with current := some e, chainable := k.chainable || chainable }

end Segment

structure Level where
  start : Nat
  conditions : List Expr := []
  segment : Segment := {}
  expectsOperand : Bool := true

namespace Level

def fill (l : Level) (e : Expr) (chainable : Bool) : Level :=
  { l with segment := l.segment.fill e chainable, expectsOperand := false }

/-- Join the conditions from the first one on. -/
def conjoin? (conditions : List Expr) : Option Expr :=
  match conditions.reverse with
  | [] => none
  | first :: rest => some (rest.foldl (.binary .and) first)

def finish? (l : Level) (here : Nat) : Option (Except Fault Expr) :=
  if l.segment.isEmpty then
    if l.conditions.isEmpty then some (.error (.refused .emptyExpression l.start))
    else some (.error (.refused .unterminated here))
  else if l.expectsOperand then some (.error (.refused .unterminated here))
  else do
    let segment ← l.segment.close?
    let last ← segment.build?
    return .ok (← conjoin? (last :: l.conditions))

end Level

structure Machine where
  level : Level
  stack : List (Frame × Level) := []

inductive Step where
  | more (machine : Machine) (cursor : Cursor)
  | done (expr : Expr) (cursor : Cursor)
  | stop (fault : Fault) (cursor : Cursor)

namespace Machine

def refuse (complaint : Complaint) (place : Nat) (c : Cursor) : Step :=
  .stop (.refused complaint place) c

def fill (m : Machine) (e : Expr) (chainable : Bool) : Machine :=
  { m with level := m.level.fill e chainable }

def descend (setting : Setting) (goal : Goal) (m : Machine) (frame : Frame) (c : Cursor) : Step :=
  if setting.limit < goal.depth + (m.stack.length + 1 : Nat) then
    refuse .tooDeep c.pos (c.note "expression")
  else
    .more { level := { start := c.pos }, stack := (frame, m.level) :: m.stack }
      (c.note "expression")

def finishCall (setting : Setting) (m : Machine) (name : String) (place : Nat) (args : List Expr)
    (c : Cursor) : Step :=
  match setting.complaint? name args.length with
  | some complaint => refuse complaint place c
  | none => .more (m.fill (.call name args.reverse) true) c

def accept (setting : Setting) (goal : Goal) (m : Machine) (here : Nat) : Found → Step
  | .operand e chainable c => .more (m.fill e chainable) c
  | .sign op c =>
    let segment := { m.level.segment with signs := op :: m.level.segment.signs }
    .more { m with level := { m.level with segment } } c
  | .level frame c => m.descend setting goal frame c
  | .emptyCall name place c => m.finishCall setting name place [] c
  | .comma c =>
    if m.level.segment.isEmpty && m.level.conditions.isEmpty then
      refuse (.expecting .firstCondition) here c
    else refuse (.expecting .operand) here c
  | .nothing c => .more m c
  | .fault fault c => .stop fault c

/-- One lexeme where an operator is expected. -/
def operator? (m : Machine) (here : Nat) (c : Cursor) : Lexeme → Option Step
  | .arithmetic op | .comparison op | .logical op => do
    let closed ← m.level.segment.close?
    let segment := { closed with operators := op :: closed.operators }
    return .more { m with level := { m.level with segment, expectsOperand := true } } c.release
  | .comma => do
    let segment ← m.level.segment.close?
    let condition ← segment.build?
    let level : Level := { start := m.level.start, conditions := condition :: m.level.conditions }
    return .more { m with level } c
  | .property name =>
    if m.level.segment.chainable then do
      let target ← m.level.segment.current
      let segment := { m.level.segment with current := some (.property target name) }
      return .more { m with level := { m.level with segment } } c
    else return refuse .unexpectedDot here c
  | .callOpen _ => return refuse .unexpectedCall here c
  | .blanks => return .more m c
  | _ => return refuse .unexpectedOperand here c

def lexeme? (setting : Setting) (goal : Goal) (m : Machine) (c : Cursor) : Option Step :=
  match Lexeme.next? m.level.expectsOperand c.rest with
  | some (l, t) =>
    let d := (c.past t).hold t.text
    if m.level.expectsOperand then some (m.accept setting goal c.pos (.ofLexeme c.pos d l))
    else m.operator? c.pos d l
  | none =>
    some (refuse (if c.rest.isEmpty then .unexpectedEnd else .unexpectedToken) c.pos c.release)

def conclude? (m : Machine) (here : Nat) (c : Cursor) : Option Step := do
  match ← m.level.finish? here with
  | .ok e => return .done e c
  | .error fault => return .stop fault c

def step? (setting : Setting) (goal : Goal) (m : Machine) (c : Cursor) : Option Step :=
  match m.stack with
  | [] =>
    match goal.terminator.run c.rest with
    | some t => m.conclude? c.pos (if goal.consume then c.past t else c)
    | none =>
      if goal.allowEnd && c.rest.isEmpty then m.conclude? c.pos c
      else m.lexeme? setting goal c
  | (.group, outer) :: stack =>
    match parenClose.run c.rest with
    | some t => do
      match ← m.level.finish? c.pos with
      | .ok e => return .more { level := outer.fill e false, stack } (c.past t)
      | .error fault => return .stop fault (c.past t)
    | none => m.lexeme? setting goal c
  | (.call name place args, outer) :: stack =>
    match argumentEnd.run c.rest with
    | some _ => do
      match ← m.level.finish? c.pos with
      | .ok e =>
        let suspended : Machine := { level := outer, stack }
        match parenClose.run c.rest with
        | some t => return suspended.finishCall setting name place (e :: args) (c.past t)
        | none =>
          match comma.run c.rest with
          | some t =>
            return suspended.descend setting goal (.call name place (e :: args)) (c.past t)
          | none => none
      | .error fault => return .stop fault c
    | none => m.lexeme? setting goal c

/-- Step until the expression is read or refused. A step that goes on has to take text. -/
def run? (setting : Setting) (goal : Goal) (m : Machine) (c : Cursor) :
    Option (EStateM.Result Fault Cursor Expr) :=
  match m.step? setting goal c with
  | none => none
  | some (.more m' c') =>
    if _h : c'.rest.length < c.rest.length then m'.run? setting goal c' else none
  | some (.done e c') => some (.ok e c')
  | some (.stop fault c') => some (.error fault c')
termination_by c.rest.length

end Machine

/-- Read the expression at the cursor, if nothing is missing on the way. -/
def expr? (setting : Setting) (goal : Goal) (c : Cursor) :
    Option (EStateM.Result Fault Cursor Expr) :=
  let c' := c.note "expression"
  if setting.limit < goal.depth then some (.error (.refused .tooDeep c.pos) c')
  else Machine.run? setting goal { level := { start := c.pos } } c'

end Bare

def Condition.bare (k : Condition) : Bare.Segment where
  operands := k.chain.map Prod.fst
  operators := k.chain.map Prod.snd
  current := k.operand.map Operand.expr
  signs := k.signs
  chainable := k.operand.any Operand.chainable

def Level.bare (l : Level) : Bare.Level where
  start := l.start
  conditions := l.behind
  segment := l.condition.bare
  expectsOperand := l.condition.operand.isNone

@[simp] theorem Level.conditions_bare (l : Level) : l.bare.conditions = l.behind := rfl

def Machine.bare (m : Machine) : Bare.Machine where
  level := m.level.bare
  stack := m.stack.map fun f => (f.1, f.2.bare)

def Step.bare : Step → Bare.Step
  | .more m c => .more m.bare c
  | .done e c => .done e c
  | .stop fault c => .stop fault c

namespace Bare

theorem precedence?_of_mem {op : BinaryOp} (h : op ∈ BinaryOp.all) :
    precedence? op = some op.precedence := if_pos h

/-- The operators on a stack are known. -/
def Known (chain : List (Expr × BinaryOp)) : Prop := ∀ l ∈ chain, l.2 ∈ BinaryOp.all

theorem drain?_collapse (p : Nat) {stack : Infix.Stack} (e : Expr) (h : Known stack) :
    drain? p (e :: stack.map Prod.fst) (stack.map Prod.snd) =
      some ((Infix.collapse p stack e).2 :: (Infix.collapse p stack e).1.map Prod.fst,
        (Infix.collapse p stack e).1.map Prod.snd) := by
  induction stack generalizing e with
  | nil => rfl
  | cons top stack ih =>
    obtain ⟨left, op⟩ := top
    obtain ⟨hop, hs⟩ := List.forall_mem_cons.1 h
    simp only [List.map_cons, drain?, precedence?_of_mem hop, Option.bind_eq_bind,
      Option.bind_some, Infix.collapse]
    by_cases hp : p ≤ op.precedence
    · simp only [hp, if_true]
      exact ih _ hs
    · simp only [hp, if_false]
      rfl

theorem reduce?_collapse (stack : Infix.Stack) (e : Expr) :
    reduce? (e :: stack.map Prod.fst) (stack.map Prod.snd) =
      some (Infix.collapse 0 stack e).2 := by
  induction stack generalizing e with
  | nil => rfl
  | cons top stack ih =>
    obtain ⟨left, op⟩ := top
    simp only [List.map_cons, reduce?, Infix.collapse, Nat.zero_le, if_true]
    exact ih _

theorem known_collapse {p : Nat} {stack : Infix.Stack} (e : Expr) (h : Known stack) :
    Known (Infix.collapse p stack e).1 := by
  induction stack generalizing e with
  | nil => exact h
  | cons top stack ih =>
    rw [Infix.collapse]
    split
    · exact ih _ (List.forall_mem_cons.1 h).2
    · exact h

/-- On two stacks a chain is folded to its tree. -/
theorem fold?_build {stack : Infix.Stack} {chain : List (Expr × BinaryOp)} {last e : Expr}
    {rest : List Expr} (hs : Known stack) (hc : Known chain)
    (he : chain.map Prod.fst ++ [last] = e :: rest) :
    fold? (e :: stack.map Prod.fst) (stack.map Prod.snd) ((chain.map Prod.snd).zip rest) =
      some (Infix.build stack chain last) := by
  induction chain generalizing stack e rest with
  | nil =>
    cases he
    exact reduce?_collapse stack last
  | cons l chain ih =>
    obtain ⟨first, op⟩ := l
    obtain ⟨hop, hc⟩ := List.forall_mem_cons.1 hc
    rw [List.map_cons, List.cons_append] at he
    obtain ⟨rfl, rfl⟩ := List.cons.inj he
    obtain ⟨next, more, hnext⟩ :=
      List.exists_cons_of_ne_nil (l := chain.map Prod.fst ++ [last]) (by simp)
    -- The operator goes on the stack above what it leaves uncollapsed there.
    have hk : Known (((Infix.collapse op.precedence stack first).2, op) ::
        (Infix.collapse op.precedence stack first).1) :=
      List.forall_mem_cons.2 ⟨hop, known_collapse first hs⟩
    simp only [hnext, List.map_cons, List.zip_cons_cons, fold?, precedence?_of_mem hop,
      Option.bind_eq_bind, Option.bind_some, drain?_collapse _ first hs, Infix.build]
    exact ih hk hc hnext

theorem build?_tree {chain : List (Expr × BinaryOp)} {last : Expr} (hc : Known chain) :
    Segment.build? { operands := last :: chain.map Prod.fst, operators := chain.map Prod.snd } =
      some (Infix.tree chain.reverse last) := by
  obtain ⟨first, rest, hfirst⟩ :=
    List.exists_cons_of_ne_nil (l := chain.reverse.map Prod.fst ++ [last]) (by simp)
  have hreverse : (last :: chain.map Prod.fst).reverse = first :: rest := by
    rw [List.reverse_cons, ← List.map_reverse, hfirst]
  have hlength : rest.length = (chain.map Prod.snd).length := by
    have h := congrArg List.length hfirst
    simp only [List.length_append, List.length_map, List.length_reverse, List.length_cons,
      List.length_nil] at h ⊢
    omega
  have hknown : Known chain.reverse := fun l hl => hc l (List.mem_reverse.1 hl)
  simp only [Segment.build?, hreverse, hlength, if_true, ← List.map_reverse]
  have hnone : Known [] := by simp [Known]
  exact fold?_build hnone hknown hfirst

theorem conjoin?_conjoin (last : Expr) (behind : List Expr) :
    Level.conjoin? (last :: behind) = some (conjoin last behind) := by
  induction behind generalizing last with
  | nil => rfl
  | cons e behind ih =>
    have h := ih e
    obtain ⟨first, rest, hfirst⟩ :=
      List.exists_cons_of_ne_nil (l := (e :: behind).reverse) (by simp)
    simp only [Level.conjoin?, hfirst, Option.some.injEq] at h
    rw [Level.conjoin?, List.reverse_cons, hfirst]
    simp [conjoin, List.foldl_append, h]

end Bare

namespace Condition

variable {k : Condition} {o : Operand}

theorem bare_isEmpty (k : Condition) : k.bare.isEmpty = k.isEmpty := by
  obtain ⟨chain, signs, operand⟩ := k
  cases chain <;> cases signs <;> cases operand <;> rfl

/-- The open operand is committed. -/
theorem close?_bare (h : k.operand = some o) :
    k.bare.close? = some { operands := k.signed o.expr :: k.chain.map Prod.fst,
                           operators := k.chain.map Prod.snd } := by
  simp [Bare.Segment.close?, bare, h, signed]

end Condition

namespace Level

variable {l : Level}

/-- A level that expects an operand takes it as the bare one does. -/
theorem bare_fill (h : l.condition.operand = none) (e : Expr) (chainable : Bool) :
    (l.fill e chainable).bare = l.bare.fill e chainable := by
  simp [Level.fill, Condition.fill, bare, Condition.bare, Bare.Level.fill, Bare.Segment.fill, h]

/-- A level ends as the bare one does. -/
theorem finish?_bare (h : l.Proper) (here : Nat) :
    l.bare.finish? here = some (l.finish here) := by
  have hknown : Bare.Known l.condition.chain := fun k hk => (h.condition.chain k hk).2
  have hempty : l.bare.segment.isEmpty = l.condition.isEmpty := l.condition.bare_isEmpty
  unfold Bare.Level.finish? Level.finish
  rw [hempty]
  cases he : l.condition.isEmpty with
  | true =>
    rw [if_pos rfl, if_pos rfl, conditions_bare]
    by_cases hb : l.behind.isEmpty = true
    · rw [if_pos hb, if_pos hb]
      rfl
    · rw [if_neg hb, if_neg hb]
  | false =>
    simp only [Bool.false_eq_true, if_false]
    cases ho : l.condition.operand with
    | none => simp [bare, ho]
    | some o =>
      have hclose : l.bare.segment.close? = _ := Condition.close?_bare ho
      have hexpects : l.bare.expectsOperand = false := by simp [bare, ho]
      simp only [hexpects, Bool.false_eq_true, if_false, hclose, Option.bind_eq_bind,
        Option.bind_some, Bare.build?_tree hknown, conditions_bare, Bare.conjoin?_conjoin]
      rfl

end Level

namespace Machine

variable {setting : Setting} {goal : Goal} {m : Machine}

theorem bare_fill (h : m.level.condition.operand = none) (e : Expr) (chainable : Bool) :
    (m.fill e chainable).bare = m.bare.fill e chainable := by
  simp only [Machine.fill, bare, Bare.Machine.fill, Level.bare_fill h]

theorem descend_bare (frame : Frame) (c : Cursor) :
    m.bare.descend setting goal frame c = (m.descend setting goal frame c).bare := by
  have hlength : m.bare.stack.length = m.stack.length := List.length_map ..
  unfold Bare.Machine.descend Machine.descend
  rw [hlength]
  split <;> rfl

theorem finishCall_bare (h : m.level.condition.operand = none) (name : String) (place : Nat)
    (args : List Expr) (c : Cursor) :
    m.bare.finishCall setting name place args c =
      (m.finishCall setting name place args c).bare := by
  unfold Bare.Machine.finishCall Machine.finishCall
  cases setting.complaint? name args.length with
  | some complaint => rfl
  | none => simp only [Step.bare, bare_fill h]

theorem accept_bare (h : m.level.condition.operand = none) (here : Nat) (found : Found) :
    m.bare.accept setting goal here found = (m.accept setting goal here found).bare := by
  cases found with
  | operand e chainable c => simp only [Bare.Machine.accept, accept, Step.bare, bare_fill h]
  | sign op c => rfl
  | level frame c => exact descend_bare frame c
  | emptyCall name place c => exact finishCall_bare h name place [] c
  | comma c =>
    have hempty : m.bare.level.segment.isEmpty = m.level.condition.isEmpty :=
      m.level.condition.bare_isEmpty
    have hbehind : m.bare.level.conditions = m.level.behind := rfl
    simp only [Bare.Machine.accept, accept, hempty, hbehind]
    cases m.level.condition.isEmpty && m.level.behind.isEmpty <;> rfl
  | nothing c => rfl
  | fault fault c => rfl

theorem operator?_bare (h : m.Proper) {o : Operand} (ho : m.level.condition.operand = some o)
    (here : Nat) (c : Cursor) (l : Lexeme) :
    m.bare.operator? here c l = some (m.operatorStep o here c l).bare := by
  have hclose : m.bare.level.segment.close? = _ := Condition.close?_bare ho
  have hknown : Bare.Known m.level.condition.chain :=
    fun k hk => (h.level.condition.chain k hk).2
  cases l with
  | arithmetic op | comparison op | logical op =>
    simp only [Bare.Machine.operator?, hclose, Option.bind_eq_bind, Option.bind_some]
    rfl
  | comma =>
    simp only [Bare.Machine.operator?, hclose, Option.bind_eq_bind, Option.bind_some,
      Bare.build?_tree hknown]
    rfl
  | property name =>
    have hcurrent : m.bare.level.segment.current = some o.expr := by
      simp [bare, Level.bare, Condition.bare, ho]
    have hchain : m.bare.level.segment.chainable = o.chainable := by
      simp [bare, Level.bare, Condition.bare, ho]
    simp only [Bare.Machine.operator?, operatorStep, hcurrent, hchain]
    cases hc : o.chainable with
    | true =>
      simp [Step.bare, bare, Level.bare, Condition.bare, Machine.fill, Level.fill, Condition.fill,
        ho, hc]
    | false => rfl
  | _ => rfl

theorem lexeme?_bare (h : m.Proper) (c : Cursor) :
    m.bare.lexeme? setting goal c = some (m.lexemeStep setting goal c).bare := by
  unfold Bare.Machine.lexeme? lexemeStep
  cases ho : m.level.condition.operand with
  | none =>
    have hexpects : m.bare.level.expectsOperand = true := by simp [bare, Level.bare, ho]
    rw [hexpects]
    cases Lexeme.next? true c.rest with
    | none => rfl
    | some x =>
      simp only [if_true, operandStep_eq, accept_bare ho]
  | some o =>
    have hexpects : m.bare.level.expectsOperand = false := by simp [bare, Level.bare, ho]
    rw [hexpects]
    cases Lexeme.next? false c.rest with
    | none => rfl
    | some x => exact operator?_bare h ho ..

theorem conclude?_bare (h : m.Proper) (here : Nat) (c : Cursor) :
    m.bare.conclude? here c = some (m.conclude here c).bare := by
  have hfinish : m.bare.level.finish? here = _ := Level.finish?_bare h.level here
  unfold Bare.Machine.conclude? conclude
  simp only [hfinish, Option.bind_eq_bind, Option.bind_some]
  cases m.level.finish here <;> rfl

/-- The end of an argument is the end of the call or a comma. -/
theorem argumentEnd_cases {s : List Char} {t : Match} (h : argumentEnd.run s = some t) :
    (t = ⟨[')'], [], t.rest⟩ ∧ parenClose.run s = some t) ∨
      (t = ⟨[','], [], t.rest⟩ ∧ parenClose.run s = none ∧ comma.run s = some t) := by
  cases s with
  | nil => simp [argumentEnd, Pattern.run] at h
  | cons x s =>
    simp only [argumentEnd, Pattern.run] at h
    split at h
    · rename_i hx
      cases h
      simp only [Bool.or_eq_true, beq_iff_eq] at hx
      rcases hx with rfl | rfl
      · exact .inl ⟨rfl, rfl⟩
      · exact .inr ⟨rfl, rfl, rfl⟩
    · simp at h

/-- A step of the machine is one of the bare machine, where nothing is missing. -/
theorem step?_bare (h : m.Proper) (c : Cursor) :
    m.bare.step? setting goal c = some (m.step setting goal c).bare := by
  have hlexeme : m.bare.lexeme? setting goal c = some (m.lexemeStep setting goal c).bare :=
    lexeme?_bare h c
  have hfinish : m.bare.level.finish? c.pos = _ := Level.finish?_bare h.level c.pos
  obtain ⟨level, stack⟩ := m
  cases stack with
  | nil =>
    simp only [Bare.Machine.step?, step, bare, List.map_nil]
    cases goal.terminator.run c.rest with
    | some t => exact conclude?_bare h ..
    | none =>
      cases goal.allowEnd && c.rest.isEmpty with
      | true => exact conclude?_bare h ..
      | false => exact hlexeme
  | cons top stack =>
    obtain ⟨frame, outer⟩ := top
    -- The level below waits without an operand, so it can be filled with what comes back.
    obtain ⟨⟨-, -, hwaits⟩, -⟩ := List.forall_mem_cons.1 h.stack
    cases frame with
    | group =>
      simp only [Bare.Machine.step?, step, bare, List.map_cons] at hlexeme hfinish ⊢
      cases parenClose.run c.rest with
      | none => exact hlexeme
      | some t =>
        simp only [hfinish, Option.bind_eq_bind, Option.bind_some]
        cases level.finish c.pos with
        | error fault => rfl
        | ok e =>
          simp only [Step.bare, bare, Level.bare_fill hwaits]
          rfl
    | call name place args =>
      have hcall : ∀ args c,
          Bare.Machine.finishCall setting (bare ⟨outer, stack⟩) name place args c = _ :=
        finishCall_bare hwaits name place
      have hdescend : ∀ frame c, Bare.Machine.descend setting goal (bare ⟨outer, stack⟩) frame c =
          _ := descend_bare
      simp only [Bare.Machine.step?, step, bare, List.map_cons] at hlexeme hfinish hcall hdescend ⊢
      cases ht : argumentEnd.run c.rest with
      | none => exact hlexeme
      | some t =>
        simp only [hfinish, Option.bind_eq_bind, Option.bind_some]
        cases level.finish c.pos with
        | error fault => rfl
        | ok e =>
          rcases argumentEnd_cases ht with ⟨htext, hclose⟩ | ⟨htext, hclose, hcomma⟩
          · rw [hclose, htext]
            exact congrArg some (hcall ..)
          · rw [hclose, hcomma, htext]
            exact congrArg some (hdescend ..)

theorem run?_bare (h : m.Proper) (c : Cursor) :
    m.bare.run? setting goal c = some (m.run setting goal c) := by
  fun_induction Machine.run setting goal m c with
  | case1 m c m' c' hs ih =>
    have hm : Step.Proper (.more m' c') := hs ▸ step_proper h c
    rw [Bare.Machine.run?, step?_bare h, hs]
    simp only [Step.bare, dif_pos (step_lt hs), ih hm]
  | case2 m c e c' hs =>
    rw [Bare.Machine.run?, step?_bare h, hs]
    rfl
  | case3 m c fault c' hs =>
    rw [Bare.Machine.run?, step?_bare h, hs]
    rfl

end Machine

/-- Reading an expression never asks for what is not there. -/
theorem Read.expr_defined (setting : Setting) (goal : Goal) (c : Cursor) :
    Bare.expr? setting goal c = some (Read.expr setting goal c) := by
  unfold Bare.expr? Read.expr
  split
  · rfl
  · exact Machine.run?_bare (m := { level := { start := c.pos } }) ⟨.new _, by simp⟩ _

end Gamebook
