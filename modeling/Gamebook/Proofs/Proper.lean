import Gamebook.Proofs.Shapes
import Gamebook.Proofs.Trees

/-!
Which trees are read at all. Every tree that the expression machine gives is proper, since the
machine keeps all it has collected proper, step by step.
-/
namespace Gamebook

open Grammar

namespace Infix

/-- Proper operands, with operators of the language between them. -/
def Proper (chain : List (Expr × BinaryOp)) : Prop :=
  ∀ l ∈ chain, l.1.Proper ∧ l.2 ∈ BinaryOp.all

theorem Proper.cons {e : Expr} {op : BinaryOp} {chain : List (Expr × BinaryOp)} (he : e.Proper)
    (hop : op ∈ BinaryOp.all) (h : Proper chain) : Proper ((e, op) :: chain) :=
  List.forall_mem_cons.2 ⟨⟨he, hop⟩, h⟩

theorem collapse_proper (p : Nat) {stack : Stack} {e : Expr} (hs : Proper stack)
    (he : e.Proper) : Proper (collapse p stack e).1 ∧ (collapse p stack e).2.Proper := by
  induction stack generalizing e with
  | nil => exact ⟨hs, he⟩
  | cons top stack ih =>
    obtain ⟨⟨hl, hop⟩, hs'⟩ := List.forall_mem_cons.1 hs
    rw [collapse]
    split
    · exact ih hs' ⟨hop, hl, he⟩
    · exact ⟨hs, he⟩

theorem build_proper {stack : Stack} {chain : List (Expr × BinaryOp)} {last : Expr}
    (hs : Proper stack) (hc : Proper chain) (hl : last.Proper) :
    (build stack chain last).Proper := by
  induction chain generalizing stack with
  | nil => exact (collapse_proper 0 hs hl).2
  | cons l chain ih =>
    obtain ⟨⟨he, hop⟩, hc⟩ := List.forall_mem_cons.1 hc
    obtain ⟨hs', he'⟩ := collapse_proper l.2.precedence hs he
    exact ih (.cons he' hop hs') hc

theorem tree_proper {chain : List (Expr × BinaryOp)} {last : Expr} (hc : Proper chain)
    (hl : last.Proper) : (tree chain last).Proper :=
  build_proper (by simp [Proper]) hc hl

end Infix

/-- A property may be read off it only if it has some. -/
structure Operand.Proper (o : Operand) : Prop where
  expr : o.expr.Proper
  chainable : o.chainable = true → o.expr.isChainable = true

structure Condition.Proper (k : Condition) : Prop where
  chain : Infix.Proper k.chain
  signs : ∀ op ∈ k.signs, op ∈ [UnaryOp.minus, .not]
  operand : ∀ o ∈ k.operand, o.Proper

namespace Condition.Proper

variable {k : Condition} {e : Expr}

theorem empty : Condition.Proper {} :=
  ⟨by simp [Infix.Proper], by simp, by simp⟩

theorem fill (h : k.Proper) {chainable : Bool} (he : e.Proper)
    (hc : chainable = true → e.isChainable = true) : (k.fill e chainable).Proper :=
  ⟨h.chain, h.signs, by simpa [Condition.fill] using ⟨he, hc⟩⟩

theorem sign (h : k.Proper) {op : UnaryOp} (hop : op ∈ [UnaryOp.minus, .not]) :
    (k.sign op).Proper :=
  ⟨h.chain, List.forall_mem_cons.2 ⟨hop, h.signs⟩, h.operand⟩

theorem signed (h : k.Proper) (he : e.Proper) : (k.signed e).Proper := by
  have hs := h.signs
  rw [Condition.signed]
  generalize k.signs = signs at hs
  induction signs generalizing e with
  | nil => exact he
  | cons op signs ih =>
    obtain ⟨hop, hs⟩ := List.forall_mem_cons.1 hs
    exact ih ⟨hop, he⟩ hs

theorem link (h : k.Proper) (he : e.Proper) {op : BinaryOp} (hop : op ∈ BinaryOp.all) :
    (k.link e op).Proper :=
  ⟨.cons (h.signed he) hop h.chain, by simp [Condition.link], by simp [Condition.link]⟩

theorem close (h : k.Proper) (he : e.Proper) : (k.close e).Proper :=
  Infix.tree_proper (fun l hl => h.chain l (List.mem_reverse.1 hl)) (h.signed he)

end Condition.Proper

theorem conjoin_proper {last : Expr} {behind : List Expr} (hl : last.Proper)
    (hb : ∀ e ∈ behind, e.Proper) : (conjoin last behind).Proper := by
  induction behind generalizing last with
  | nil => exact hl
  | cons e behind ih =>
    obtain ⟨he, hb⟩ := List.forall_mem_cons.1 hb
    exact ⟨by decide, ih he hb, hl⟩

structure Level.Proper (l : Level) : Prop where
  behind : ∀ e ∈ l.behind, e.Proper
  condition : l.condition.Proper

namespace Level.Proper

variable {l : Level}

theorem new (start : Nat) : Level.Proper { start } := ⟨by simp, .empty⟩

theorem fill (h : l.Proper) {e : Expr} {chainable : Bool} (he : e.Proper)
    (hc : chainable = true → e.isChainable = true) : (l.fill e chainable).Proper :=
  ⟨h.behind, h.condition.fill he hc⟩

theorem finish (h : l.Proper) {here : Nat} {e : Expr} (he : l.finish here = .ok e) :
    e.Proper := by
  unfold Level.finish at he
  split at he
  · split at he <;> simp at he
  · split at he
    · simp at he
    · rename_i o ho
      cases he
      exact conjoin_proper (h.condition.close (h.condition.operand o ho).expr) h.behind

end Level.Proper

def Frame.Proper : Frame → Prop
  | .group => True
  | .call name _ args => IsCallName name ∧ ∀ e ∈ args, e.Proper

/-- The levels below wait for the operand that the one above them comes to. -/
structure Machine.Proper (m : Machine) : Prop where
  level : m.level.Proper
  stack : ∀ f ∈ m.stack, f.1.Proper ∧ f.2.Proper ∧ f.2.condition.operand = none

def Step.Proper : Step → Prop
  | .more m _ => m.Proper
  | .done e _ => e.Proper
  | .stop _ _ => True

namespace Machine

variable {setting : Setting} {goal : Goal} {m : Machine}

theorem Proper.fill (h : m.Proper) {e : Expr} {chainable : Bool} (he : e.Proper)
    (hc : chainable = true → e.isChainable = true) : (m.fill e chainable).Proper :=
  ⟨h.level.fill he hc, h.stack⟩

theorem Proper.withCondition (h : m.Proper) {k : Condition} (hk : k.Proper) :
    (m.withCondition k).Proper :=
  ⟨⟨h.level.behind, hk⟩, h.stack⟩

theorem fillNumeral_proper (h : m.Proper) {value : Except Nat Expr}
    (hv : ∀ e, value = .ok e → e.Proper) (c : Cursor) : (m.fillNumeral value c).Proper := by
  cases value with
  | error digits => trivial
  | ok e => exact h.fill (hv e rfl) (by simp)

theorem descend_proper (h : m.Proper) (hm : m.level.condition.operand = none) (frame : Frame)
    (hf : frame.Proper) (c : Cursor) : (m.descend setting goal frame c).Proper := by
  unfold descend
  split
  · trivial
  · exact ⟨.new _, List.forall_mem_cons.2 ⟨⟨hf, h.level, hm⟩, h.stack⟩⟩

theorem finishCall_proper (h : m.Proper) {name : String} (hn : IsCallName name) (place : Nat)
    {args : List Expr} (ha : ∀ e ∈ args, e.Proper) (c : Cursor) :
    (m.finishCall setting name place args c).Proper := by
  unfold finishCall
  split
  · trivial
  · exact h.fill ⟨hn, Expr.properAll_iff.2 fun e he => ha e (List.mem_reverse.1 he)⟩ fun _ => rfl

/-- A word that is read ends where no word character follows. -/
theorem run_word_free {s : List Char} {w : Match} (h : word.run s = some w) :
    Made isWordChar w.text ∧ Free isWordChar w.rest :=
  ⟨(shape_word (Pattern.run_shape h)).1, Pattern.free_of_run_span h⟩

theorem fillWord_proper (h : m.Proper) {make : String → Expr} {chainable : Bool}
    (wanted : Wanted) {c : Cursor}
    (hm : ∀ w u, Made isWordChar w → Free isWordChar u → c.rest = w ++ u →
      (make (String.ofList w)).Proper)
    (hc : ∀ name, chainable = true → (make name).isChainable = true) :
    (m.fillWord make chainable wanted c).Proper := by
  unfold fillWord
  split
  · rename_i w hw
    obtain ⟨hword, hfree⟩ := run_word_free hw
    exact h.fill (hm w.text w.rest hword hfree (Pattern.run_split hw).symm) (hc _)
  · trivial

/-- A subject called `no` can only be read behind a first `no`. -/
theorem fillSubject_proper (h : m.Proper) {make : String → Bool → Expr} (wanted : Wanted)
    (c : Cursor) (hm : ∀ name negated, IsWord name → (name = "no" → negated = true) →
      (make name negated).Proper) : (m.fillSubject make wanted c).Proper := by
  unfold fillSubject
  split
  · exact fillWord_proper h wanted
      (fun w _ hw _ _ => hm _ true (isWord_ofList hw) fun _ => rfl) (by simp)
  · rename_i hno
    refine fillWord_proper h wanted (fun w u hw hu hs => hm _ false (isWord_ofList hw) ?_) (by simp)
    intro hname
    have hw : w = "no".toList := by rw [← hname, String.toList_ofList]
    rw [hs, hw, run_keyword "no" hu] at hno
    simp at hno

theorem number_proper (make : Number → Expr) (hm : ∀ n : Number, n.Nonneg → (make n).Proper)
    {numeral : List Char} {e : Expr} (h : (Numeral.number? numeral).map make = .ok e) :
    e.Proper := by
  cases hn : Numeral.number? numeral with
  | error => simp [hn, Except.map] at h
  | ok n =>
    rw [hn] at h
    cases h
    exact hm n (Numeral.nonneg_of_number? hn)

theorem range_proper {low high : List Char} {e : Expr}
    (h : (do
      let low ← Numeral.integer? low
      let high ← Numeral.integer? high
      return .range low high : Except Nat Expr) = .ok e) : e.Proper := by
  cases hl : Numeral.integer? low with
  | error => simp [hl, bind, Except.bind] at h
  | ok a =>
    cases hh : Numeral.integer? high with
    | error => simp [hl, hh, bind, Except.bind] at h
    | ok b =>
      simp only [hl, hh] at h
      cases h
      exact ⟨Int.natCast_nonneg a, Int.natCast_nonneg b⟩

theorem operandStep_proper (h : m.Proper) (hm : m.level.condition.operand = none) (here : Nat)
    (c : Cursor) {l : Lexeme} {t : Match} {s : List Char}
    (hl : Lexeme.next? true s = some (l, t)) : (m.operandStep setting goal here c l).Proper := by
  have hmade := Lexeme.next?_madeOf hl
  cases l with
  | arithmetic op =>
    simp only [operandStep]
    split
    · exact h.withCondition (h.level.condition.sign (by simp))
    · trivial
  | negation => exact h.withCondition (h.level.condition.sign (by simp))
  | comma =>
    simp only [operandStep]
    split <;> trivial
  | range low high => exact fillNumeral_proper h (fun e he => range_proper he) c
  | callOpen name =>
    obtain ⟨w, -, hw, hname, -⟩ := hmade
    have hcall : IsCallName name := by
      refine ⟨?_, ?_, Lexeme.next?_callName hl⟩
      · rw [hname]
        refine isWord_ofList ⟨by simpa using hw.1, ?_⟩
        intro d hd
        obtain ⟨e, he, rfl⟩ := List.mem_map.1 hd
        exact isWordChar_toLower (hw.2 e he)
      · intro d hd
        rw [hname, Lexeme.lowered, String.toList_ofList] at hd
        obtain ⟨e, he, rfl⟩ := List.mem_map.1 hd
        exact isUpper_toLower e
    simp only [operandStep]
    split
    · exact finishCall_proper h hcall here (by simp) _
    · exact descend_proper h hm (.call name here []) ⟨hcall, by simp⟩ _
  | parenOpen => exact descend_proper h hm .group trivial c
  | hasItem => exact fillSubject_proper h .itemName c fun _ _ hn hno => ⟨hn, hno⟩
  | atNode => exact fillSubject_proper h .nodeName c fun _ _ hn hno => ⟨hn, hno⟩
  | constant name => exact h.fill hmade.2 (by simp)
  | quote =>
    simp only [operandStep]
    split
    · exact h.fill trivial (by simp)
    · trivial
  | percent numeral =>
    exact fillNumeral_proper h (fun e he => number_proper .percent (fun _ => id) he) c
  | number numeral =>
    exact fillNumeral_proper h (fun e he => number_proper .number (fun _ => id) he) _
  | varName =>
    exact fillWord_proper h .variableName (fun w _ hw _ _ => isWord_ofList hw) fun _ _ => rfl
  | called =>
    have hcalled : IsWord "_called" := by decide
    exact h.fill hcalled fun _ => rfl
  | localName name | globalName name =>
    obtain ⟨w, -, hw, rfl⟩ := hmade
    exact h.fill (isWord_ofList hw) fun _ => rfl
  | blanks => exact h
  | comparison | logical | property => trivial

theorem logicalWords_all {w : String} {op : BinaryOp} (h : (w, op) ∈ Lexeme.logicalWords) :
    op ∈ BinaryOp.all := by
  simp only [Lexeme.logicalWords, List.mem_cons, Prod.mk.injEq, List.not_mem_nil, or_false] at h
  rcases h with ⟨-, rfl⟩ | ⟨-, rfl⟩ | ⟨-, rfl⟩ | ⟨-, rfl⟩ <;> decide

theorem operatorStep_proper (h : m.Proper) {o : Operand} (ho : m.level.condition.operand = some o)
    (here : Nat) (c : Cursor) {l : Lexeme} {t : Match} (hl : l.MadeOf t) :
    (m.operatorStep o here c l).Proper := by
  have hop := h.level.condition.operand o ho
  have hlink : ∀ op ∈ BinaryOp.all, (m.withCondition (m.level.condition.link o.expr op)).Proper :=
    fun op hall => h.withCondition (h.level.condition.link hop.expr hall)
  cases l with
  | arithmetic op => exact hlink op hl.1
  | comparison op => exact hlink op hl.1
  | logical op => exact hlink op (logicalWords_all hl)
  | comma =>
    exact ⟨⟨List.forall_mem_cons.2 ⟨h.level.condition.close hop.expr, h.level.behind⟩, .empty⟩,
      h.stack⟩
  | property name =>
    simp only [operatorStep]
    split
    · rename_i hc
      obtain ⟨w, -, hw, rfl⟩ := hl
      exact h.fill ⟨hop.chainable hc, isWord_ofList hw, hop.expr⟩ fun _ => rfl
    · trivial
  | blanks => exact h
  | _ => trivial

theorem lexemeStep_proper (h : m.Proper) (c : Cursor) : (m.lexemeStep setting goal c).Proper := by
  unfold lexemeStep
  split
  · rename_i hm
    split
    · rename_i l t hl
      exact operandStep_proper h hm c.pos _ hl
    · trivial
  · rename_i o ho
    split
    · rename_i l t hl
      exact operatorStep_proper h ho c.pos _ (Lexeme.next?_madeOf hl)
    · trivial

theorem conclude_proper (h : m.Proper) (here : Nat) (c : Cursor) : (m.conclude here c).Proper := by
  unfold conclude
  split
  · rename_i e he
    exact h.level.finish he
  · trivial

/-- A step of a proper machine is proper. -/
theorem step_proper (h : m.Proper) (c : Cursor) : (m.step setting goal c).Proper := by
  have hlexeme : (m.lexemeStep setting goal c).Proper := lexemeStep_proper h c
  obtain ⟨level, stack⟩ := m
  unfold step
  split
  · split
    · exact conclude_proper h ..
    · split
      · exact conclude_proper h ..
      · exact hlexeme
  · rename_i outer stack hstack
    cases hstack
    obtain ⟨⟨-, houter, -⟩, hstack⟩ := List.forall_mem_cons.1 h.stack
    split
    · split
      · rename_i e he
        exact ⟨houter.fill (h.level.finish he) (by simp), hstack⟩
      · trivial
    · exact hlexeme
  · rename_i name place args outer stack hstack
    cases hstack
    obtain ⟨⟨⟨hname, hargs⟩, houter, hwaits⟩, hstack⟩ := List.forall_mem_cons.1 h.stack
    have hsuspended : Machine.Proper ⟨outer, stack⟩ := ⟨houter, hstack⟩
    split
    · split
      · rename_i e he
        have hargs : ∀ a ∈ e :: args, a.Proper :=
          List.forall_mem_cons.2 ⟨h.level.finish he, hargs⟩
        simp only
        split
        · exact finishCall_proper hsuspended hname place hargs _
        · exact descend_proper hsuspended hwaits (.call name place (e :: args)) ⟨hname, hargs⟩ _
      · trivial
    · exact hlexeme

/-- From a proper machine only a proper tree is read. -/
theorem run_proper (h : m.Proper) {c d : Cursor} {e : Expr}
    (hr : m.run setting goal c = .ok e d) : e.Proper := by
  fun_induction Machine.run setting goal m c with
  | case1 m c m' c' hs ih =>
    have hm : Step.Proper (.more m' c') := hs ▸ step_proper h c
    exact ih hm hr
  | case2 m c e' c' hs =>
    cases hr
    have he : Step.Proper (.done e d) := hs ▸ step_proper h c
    exact he
  | case3 => simp at hr

end Machine

theorem Read.expr_proper {setting : Setting} {goal : Goal} {c d : Cursor} {e : Expr}
    (h : Read.expr setting goal c = .ok e d) : e.Proper := by
  unfold Read.expr at h
  split at h
  · simp at h
  · exact Machine.run_proper ⟨.new _, by simp⟩ h

end Gamebook
