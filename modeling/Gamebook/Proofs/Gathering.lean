import Gamebook.Proofs.Definedness

/-!
What is gathered from a tree, from left to right. Operators, signs and properties add nothing of
their own, so the expression machine, which only puts operands together, keeps all that it has
gathered and adds to it at the end: what an operand brings, or what a call does.
-/
namespace Gamebook

open Grammar

/-- A list read off a tree from left to right. Only leaves and calls have something of their own
in it, a call behind its arguments. -/
structure Expr.Gathers (w : Expr → List β) (own : String → Nat → List β) : Prop where
  property (target : Expr) (name : String) : w (.property target name) = w target
  unary (op : UnaryOp) (e : Expr) : w (.unary op e) = w e
  binary (op : BinaryOp) (left right : Expr) : w (.binary op left right) = w left ++ w right
  call (name : String) (args : List Expr) :
    w (.call name args) = args.flatMap w ++ own name args.length

namespace Infix

def gather (w : Expr → List β) (chain : List (Expr × BinaryOp)) : List β := chain.flatMap (w ·.1)

theorem collapse_zero (stack : Stack) (e : Expr) : (collapse 0 stack e).1 = [] := by
  induction stack generalizing e with
  | nil => rfl
  | cons top stack ih =>
    obtain ⟨left, op⟩ := top
    rw [collapse, if_pos (Nat.zero_le _)]
    exact ih _

variable {w : Expr → List β} {own : String → Nat → List β}

theorem gather_reverse_cons (e : Expr) (op : BinaryOp) (chain : List (Expr × BinaryOp)) :
    gather w ((e, op) :: chain).reverse = gather w chain.reverse ++ w e := by
  simp [gather]

variable (hw : Expr.Gathers w own)
include hw

theorem gather_collapse (p : Nat) (stack : Stack) (e : Expr) :
    gather w (collapse p stack e).1.reverse ++ w (collapse p stack e).2 =
      gather w stack.reverse ++ w e := by
  induction stack generalizing e with
  | nil => rfl
  | cons top stack ih =>
    obtain ⟨left, op⟩ := top
    rw [collapse]
    split
    · rw [ih, gather_reverse_cons, hw.binary, List.append_assoc]
    · rfl

theorem gather_build (stack : Stack) (chain : List (Expr × BinaryOp)) (last : Expr) :
    w (build stack chain last) = gather w stack.reverse ++ (gather w chain ++ w last) := by
  induction chain generalizing stack with
  | nil =>
    have h := gather_collapse hw 0 stack last
    rw [collapse_zero] at h
    exact h
  | cons top chain ih =>
    obtain ⟨e, op⟩ := top
    rw [build, ih, gather_reverse_cons, gather_collapse hw]
    simp [gather]

theorem gather_tree (chain : List (Expr × BinaryOp)) (last : Expr) :
    w (tree chain last) = gather w chain ++ w last :=
  gather_build hw [] chain last

end Infix

def Condition.gather (w : Expr → List β) (k : Condition) : List β :=
  Infix.gather w k.chain.reverse ++ k.operand.toList.flatMap (w ·.expr)

def Level.gather (w : Expr → List β) (l : Level) : List β :=
  l.behind.reverse.flatMap w ++ l.condition.gather w

def Frame.gather (w : Expr → List β) : Frame → List β
  | .group => []
  | .call _ _ args => args.reverse.flatMap w

/-- All that the machine has gathered, the oldest first. -/
def Machine.gather (w : Expr → List β) (m : Machine) : List β :=
  m.stack.reverse.flatMap (fun f => f.2.gather w ++ f.1.gather w) ++ m.level.gather w

section

variable {w : Expr → List β} {own : String → Nat → List β}

theorem Condition.gather_fill {k : Condition} (h : k.operand = none) (e : Expr)
    (chainable : Bool) : (k.fill e chainable).gather w = k.gather w ++ w e := by
  simp [fill, gather, h]

theorem Level.gather_fill {l : Level} (h : l.condition.operand = none) (e : Expr)
    (chainable : Bool) : (l.fill e chainable).gather w = l.gather w ++ w e := by
  simp only [fill, gather, Condition.gather_fill h, List.append_assoc]

namespace Machine

variable {m : Machine}

theorem gather_fill (h : m.level.condition.operand = none) (e : Expr) (chainable : Bool) :
    (m.fill e chainable).gather w = m.gather w ++ w e := by
  simp only [fill, gather, Level.gather_fill h, List.append_assoc]

theorem gather_withCondition {k : Condition}
    (h : k.gather w = m.level.condition.gather w) : (m.withCondition k).gather w = m.gather w := by
  simp only [withCondition, gather, Level.gather, h]

/-- A new level has gathered nothing yet. -/
theorem gather_push (m : Machine) (frame : Frame) (start : Nat) :
    gather w ⟨{ start }, (frame, m.level) :: m.stack⟩ = m.gather w ++ frame.gather w := by
  simp [gather, Level.gather, Condition.gather, Infix.gather]

end Machine

variable (hw : Expr.Gathers w own)
include hw

namespace Condition

theorem gather_signed (k : Condition) (e : Expr) : w (k.signed e) = w e := by
  unfold signed
  generalize k.signs = signs
  induction signs generalizing e with
  | nil => rfl
  | cons op signs ih => rw [List.foldl_cons, ih, hw.unary]

theorem gather_close (k : Condition) {o : Operand} (h : k.operand = some o) :
    w (k.close o.expr) = k.gather w := by
  rw [close, Infix.gather_tree hw, gather_signed hw, gather, h]
  simp

theorem gather_link (k : Condition) {o : Operand} (h : k.operand = some o) (op : BinaryOp) :
    (k.link o.expr op).gather w = k.gather w := by
  simp only [link, gather, Infix.gather_reverse_cons, gather_signed hw, h]
  simp

end Condition

theorem gather_conjoin (last : Expr) (behind : List Expr) :
    w (conjoin last behind) = behind.reverse.flatMap w ++ w last := by
  induction behind generalizing last with
  | nil => rfl
  | cons e behind ih => simp [conjoin, hw.binary, ih]

theorem Level.gather_finish {l : Level} {here : Nat} {e : Expr} (h : l.finish here = .ok e) :
    w e = l.gather w := by
  unfold finish at h
  split at h
  · split at h <;> simp at h
  · split at h
    · simp at h
    · rename_i o ho
      cases h
      rw [gather_conjoin hw, Condition.gather_close hw _ ho, gather]

end

/-- The step adds what has the property to all that was gathered. -/
def Step.Gathers (w : Expr → List β) (Q : β → Prop) (m : Machine) : Step → Prop
  | .more m' _ => ∃ new, m'.gather w = m.gather w ++ new ∧ ∀ x ∈ new, Q x
  | .done e _ => w e = m.gather w
  | .stop _ _ => True

/-- An operand that is found has the property, and a call begins without arguments. -/
def Found.Holds (P : Expr → Prop) : Found → Prop
  | .operand e _ _ => P e
  | .level (.call _ _ args) _ => args = []
  | _ => True

namespace Found

variable {P R : Expr → Prop} {c : Cursor}

theorem Holds.mono {found : Found} (h : found.Holds P) (hP : ∀ e, P e → R e) :
    found.Holds R := by
  cases found with
  | operand e chainable d => exact hP e h
  | level frame d =>
    cases frame with
    | group => trivial
    | call name place args => exact h
  | _ => trivial

theorem word_holds (make : String → Expr) (h : ∀ name, P (make name)) (chainable : Bool)
    (wanted : Wanted) : (word make chainable wanted c).Holds P := by
  unfold word
  split
  · exact h _
  · trivial

theorem subject_holds (make : String → Bool → Expr) (h : ∀ name negated, P (make name negated))
    (wanted : Wanted) : (subject make wanted c).Holds P := by
  unfold subject
  split <;> exact word_holds (make · _) (h · _) false wanted

theorem numeral_holds {value : Except Nat Expr} (h : ∀ e, value = .ok e → P e) :
    (numeral value c).Holds P := by
  cases value with
  | error digits => trivial
  | ok e => exact h e rfl

end Found

theorem Step.Gathers.of_eq {w : Expr → List β} {Q : β → Prop} {m m' : Machine} {c : Cursor}
    (h : m'.gather w = m.gather w) : Step.Gathers w Q m (.more m' c) :=
  ⟨[], by simp [h], List.forall_mem_nil _⟩

namespace Machine

variable {w : Expr → List β} {own : String → Nat → List β} {Q : β → Prop} {setting : Setting}
  {goal : Goal} {m : Machine} {c : Cursor}

theorem descend_gathers {m₀ : Machine} {frame : Frame}
    (h : m.gather w ++ frame.gather w = m₀.gather w) :
    (m.descend setting goal frame c).Gathers w Q m₀ := by
  unfold descend
  split
  · trivial
  · exact .of_eq ((gather_push m frame _).trans h)

variable (hw : Expr.Gathers w own)
  (hcall : ∀ name n, setting.complaint? name n = none → ∀ x ∈ own name n, Q x)
include hw

theorem operatorStep_gathers {o : Operand} (ho : m.level.condition.operand = some o) (here : Nat)
    (l : Lexeme) : (m.operatorStep o here c l).Gathers w Q m := by
  have hlink : ∀ op d, Step.Gathers w Q m
      (.more (m.withCondition (m.level.condition.link o.expr op)) d) :=
    fun op _ => .of_eq (gather_withCondition (Condition.gather_link hw _ ho op))
  cases l with
  | arithmetic op => exact hlink op _
  | comparison op => exact hlink op _
  | logical op => exact hlink op _
  | comma =>
    have hnone : ({} : Condition).gather w = [] := rfl
    refine .of_eq ?_
    simp [gather, Level.gather, Condition.gather_close hw _ ho, hnone]
  | property name =>
    simp only [operatorStep]
    split
    · refine .of_eq ?_
      simp [gather, fill, Level.fill, Condition.fill, Level.gather, Condition.gather, ho,
        hw.property]
    · trivial
  | blanks => exact .of_eq rfl
  | _ => trivial

theorem conclude_gathers (hs : m.stack = []) (here : Nat) :
    (m.conclude here c).Gathers w Q m := by
  unfold conclude
  split
  · rename_i e he
    have hgather : m.gather w = m.level.gather w := by simp [gather, hs]
    exact (Level.gather_finish hw he).trans hgather.symm
  · trivial

include hcall

theorem finishCall_gathers {m₀ : Machine} {args : List Expr}
    (h : m.gather w ++ args.reverse.flatMap w = m₀.gather w)
    (hm : m.level.condition.operand = none) (name : String) (place : Nat) :
    (m.finishCall setting name place args c).Gathers w Q m₀ := by
  unfold finishCall
  split
  · trivial
  · rename_i hnone
    refine ⟨own name args.length, ?_, hcall name args.length hnone⟩
    rw [gather_fill hm, hw.call, List.length_reverse, ← List.append_assoc, h]

theorem accept_gathers (hm : m.level.condition.operand = none) (here : Nat) {found : Found}
    (hf : found.Holds fun e => ∀ x ∈ w e, Q x) :
    (m.accept setting goal here found).Gathers w Q m := by
  cases found with
  | operand e chainable d => exact ⟨w e, gather_fill hm e chainable, hf⟩
  | sign op d => exact .of_eq (gather_withCondition rfl)
  | level frame d =>
    refine descend_gathers ?_
    cases frame with
    | group => simp [Frame.gather]
    | call name place args =>
      obtain rfl : args = [] := hf
      simp [Frame.gather]
  | emptyCall name place d => exact finishCall_gathers hw hcall (by simp) hm name place
  | comma d =>
    simp only [accept]
    split <;> trivial
  | nothing d => exact .of_eq rfl
  | fault f d => trivial

variable (hfound : ∀ l t, Lexeme.next? true c.rest = some (l, t) →
  (Found.ofLexeme c.pos ((c.past t).hold t.text) l).Holds fun e => ∀ x ∈ w e, Q x)
include hfound

theorem lexemeStep_gathers : (m.lexemeStep setting goal c).Gathers w Q m := by
  unfold lexemeStep
  split
  · rename_i hm
    split
    · rename_i l t hl
      rw [operandStep_eq]
      exact accept_gathers hw hcall hm c.pos (hfound l t hl)
    · trivial
  · rename_i o ho
    split
    · exact operatorStep_gathers hw ho c.pos _
    · trivial

/-- A step keeps what was gathered. -/
theorem step_gathers (hp : m.Proper) : (m.step setting goal c).Gathers w Q m := by
  have hlexeme : (m.lexemeStep setting goal c).Gathers w Q m :=
    lexemeStep_gathers hw hcall hfound
  obtain ⟨level, stack⟩ := m
  unfold step
  split
  · rename_i hstack
    split
    · exact conclude_gathers hw hstack _
    · split
      · exact conclude_gathers hw hstack _
      · exact hlexeme
  · rename_i outer stack hstack
    cases hstack
    obtain ⟨⟨-, -, hwaits⟩, -⟩ := List.forall_mem_cons.1 hp.stack
    split
    · split
      · rename_i e he
        refine .of_eq ?_
        simp [gather, Level.gather_fill hwaits, Level.gather_finish hw he, Frame.gather]
      · trivial
    · exact hlexeme
  · rename_i name place args outer stack hstack
    cases hstack
    obtain ⟨⟨-, -, hwaits⟩, -⟩ := List.forall_mem_cons.1 hp.stack
    split
    · split
      · rename_i e he
        -- the waiting levels, the arguments so far and the one that ends here
        have hparts : gather w ⟨outer, stack⟩ ++ (e :: args).reverse.flatMap w =
            gather w ⟨level, (.call name place args, outer) :: stack⟩ := by
          simp [gather, Level.gather_finish hw he, Frame.gather]
        simp only
        split
        · exact finishCall_gathers hw hcall hparts hwaits name place
        · exact descend_gathers hparts
      · trivial
    · exact hlexeme

omit hfound in
/-- What a run gathers begins with what was there. -/
theorem run_gathers {d : Cursor} {e : Expr} (hp : m.Proper)
    (hfound : ∀ b : Cursor, b.rest <:+: c.rest → ∀ l t, Lexeme.next? true b.rest = some (l, t) →
      (Found.ofLexeme b.pos ((b.past t).hold t.text) l).Holds fun e => ∀ x ∈ w e, Q x)
    (hr : m.run setting goal c = .ok e d) :
    ∃ new, w e = m.gather w ++ new ∧ ∀ x ∈ new, Q x := by
  fun_induction Machine.run setting goal m c with
  | case1 m c m' c' hs ih =>
    have hstep : Step.Gathers w Q m (.more m' c') :=
      hs ▸ step_gathers hw hcall (hfound c List.infix_rfl) hp
    have hm : Step.Proper (.more m' c') := hs ▸ step_proper hp c
    obtain ⟨taken, htaken, -⟩ : c.Reaches c' := by
      have hreach := step_reaches setting goal m c
      rwa [hs] at hreach
    have hrest : c'.rest <:+: c.rest := htaken ▸ (List.suffix_append ..).isInfix
    obtain ⟨first, hfirst, hQ⟩ := hstep
    obtain ⟨new, hnew, hQ'⟩ := ih hm (fun b hb => hfound b (hb.trans hrest)) hr
    refine ⟨first ++ new, ?_, List.forall_mem_append.2 ⟨hQ, hQ'⟩⟩
    rw [hnew, hfirst, List.append_assoc]
  | case2 m c e' c' hs =>
    cases hr
    have hdone : Step.Gathers w Q m (.done e d) :=
      hs ▸ step_gathers hw hcall (hfound c List.infix_rfl) hp
    exact ⟨[], hdone.trans (List.append_nil _).symm, List.forall_mem_nil _⟩
  | case3 => simp at hr

end Machine

/-- All that is gathered from an expression was brought by its operands and its calls. -/
theorem Read.expr_gathers {w : Expr → List β} {own : String → Nat → List β} {Q : β → Prop}
    {setting : Setting} {goal : Goal} {c d : Cursor} {e : Expr} (hw : Expr.Gathers w own)
    (hcall : ∀ name n, setting.complaint? name n = none → ∀ x ∈ own name n, Q x)
    (hfound : ∀ b : Cursor, b.rest <:+: c.rest → ∀ l t, Lexeme.next? true b.rest = some (l, t) →
      (Found.ofLexeme b.pos ((b.past t).hold t.text) l).Holds fun e => ∀ x ∈ w e, Q x)
    (h : Read.expr setting goal c = .ok e d) : ∀ x ∈ w e, Q x := by
  unfold Read.expr at h
  split at h
  · simp at h
  · have hfresh : Machine.Proper { level := { start := c.pos } } := ⟨.new _, by simp⟩
    obtain ⟨new, hnew, hQ⟩ := Machine.run_gathers hw hcall hfresh
      (c := c.note "expression") hfound h
    have hnone : Machine.gather w { level := { start := c.pos } } = [] := rfl
    rw [hnew, hnone]
    exact hQ

end Gamebook
