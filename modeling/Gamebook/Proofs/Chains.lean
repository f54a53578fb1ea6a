import Gamebook.Proofs.Failures

/-!
Chains of `and` and of `or`. However a chain is bracketed, its operands are evaluated one after
another up to the first that raises a fault or decides, and the last one if none does. So what a
chain gives, and which calls and draws it makes, is told by the list of its operands alone.
-/
namespace Gamebook

/-- Does the value of an operand decide a chain of the operator? -/
def BinaryOp.decides (op : BinaryOp) (v : Value) : Bool :=
  match op with
  | .and => !v.isTrue
  | .or => v.isTrue
  | _ => false

namespace Expr

/-- A way to bracket the operands, in their order, with the operator between them. -/
inductive Brackets (op : BinaryOp) : List Expr → Expr → Prop
  | operand (e : Expr) : Brackets op [e] e
  | join {es fs : List Expr} {l r : Expr} (hl : Brackets op es l) (hr : Brackets op fs r) :
      Brackets op (es ++ fs) (binary op l r)

theorem Brackets.ne_nil {op : BinaryOp} {es : List Expr} {e : Expr} (h : Brackets op es e) :
    es ≠ [] := by
  induction h with
  | operand => simp
  | join _ _ ih => simp [ih]

/-- Conditions that are joined group to the left. -/
theorem brackets_conjoin (last : Expr) (behind : List Expr) :
    Brackets .and (behind.reverse ++ [last]) (conjoin last behind) := by
  induction behind generalizing last with
  | nil => exact .operand last
  | cons e behind ih =>
    rw [List.reverse_cons]
    exact .join (ih e) (.operand last)

/-- The operands are evaluated in turn, up to the first that raises a fault or decides; that one,
or else the last, gives the outcome. -/
inductive InTurn (engine : Engine) (op : BinaryOp) :
    List Expr → History → EStateM.Result EvalFault History Value → Prop
  | raised {e : Expr} {s t : History} {f : EvalFault} (es : List Expr)
      (h : e.eval engine s = .error f t) : InTurn engine op (e :: es) s (.error f t)
  | decided {e : Expr} {s t : History} {v : Value} (es : List Expr)
      (h : e.eval engine s = .ok v t) (hv : op.decides v = true) :
      InTurn engine op (e :: es) s (.ok v t)
  | last {e : Expr} {s t : History} {v : Value} (h : e.eval engine s = .ok v t) :
      InTurn engine op [e] s (.ok v t)
  | next {e : Expr} {es : List Expr} {s t : History} {v : Value}
      {r : EStateM.Result EvalFault History Value} (h : e.eval engine s = .ok v t)
      (hv : op.decides v = false) (hrest : InTurn engine op es t r) :
      InTurn engine op (e :: es) s r

variable {engine : Engine} {op : BinaryOp} {es fs : List Expr} {e : Expr} {s : History}
  {r : EStateM.Result EvalFault History Value}

theorem inTurn_single : InTurn engine op [e] s r ↔ e.eval engine s = r := by
  constructor
  · intro h
    cases h with
    | raised _ h | decided _ h _ | last h => exact h
    | next _ _ hrest => cases hrest
  · rintro rfl
    cases h : e.eval engine s with
    | ok v t => exact .last h
    | error f t => exact .raised [] h

/-- The outcome ends a chain: it is a fault, or a value that decides. -/
def Settles (op : BinaryOp) (r : EStateM.Result EvalFault History Value) : Prop :=
  ∀ v t, r = .ok v t → op.decides v = true

theorem InTurn.append_of_settles (h : InTurn engine op es s r) (hr : Settles op r)
    (fs : List Expr) : InTurn engine op (es ++ fs) s r := by
  induction h with
  | raised es h => exact .raised (es ++ fs) h
  | decided es h hv => exact .decided (es ++ fs) h hv
  | last h => exact .decided fs h (hr _ _ rfl)
  | next h hv _ ih => exact .next h hv (ih hr)

theorem InTurn.append {v : Value} {t : History} (h : InTurn engine op es s (.ok v t))
    (hv : op.decides v = false) (hfs : InTurn engine op fs t r) :
    InTurn engine op (es ++ fs) s r := by
  generalize hx : EStateM.Result.ok v t = x at h
  induction h with
  | raised => cases hx
  | decided _ _ hv' =>
    cases hx
    rw [hv] at hv'
    cases hv'
  | last h =>
    cases hx
    exact .next h hv hfs
  | next h hv' _ ih => exact .next h hv' (ih hx)

/-- A chain behind another one is come to if that one does not settle the outcome. -/
theorem inTurn_append (hes : es ≠ []) (hfs : fs ≠ []) :
    InTurn engine op (es ++ fs) s r ↔
      InTurn engine op es s r ∧ Settles op r ∨
        ∃ v t, InTurn engine op es s (.ok v t) ∧ op.decides v = false ∧
          InTurn engine op fs t r := by
  constructor
  · intro h
    induction es generalizing s with
    | nil => exact absurd rfl hes
    | cons e es ih =>
      rw [List.cons_append] at h
      generalize hrest : es ++ fs = rest at h
      cases h with
      | raised _ h => exact .inl ⟨.raised es h, nofun⟩
      | decided _ h hv =>
        refine .inl ⟨.decided es h hv, ?_⟩
        rintro _ _ ⟨⟩
        exact hv
      | last => exact absurd (List.append_eq_nil_iff.1 hrest).2 hfs
      | next h hv hnext =>
        subst hrest
        by_cases hnil : es = []
        · subst hnil
          exact .inr ⟨_, _, .last h, hv, hnext⟩
        · rcases ih hnil hnext with ⟨hes, hr⟩ | ⟨w, t, hes, hw, hfs⟩
          · exact .inl ⟨.next h hv hes, hr⟩
          · exact .inr ⟨w, t, .next h hv hes, hw, hfs⟩
  · rintro (⟨h, hr⟩ | ⟨v, t, h, hv, hfs⟩)
    · exact h.append_of_settles hr fs
    · exact h.append hv hfs

theorem eval_logical (hop : op ∈ [BinaryOp.and, .or]) (left right : Expr) :
    (binary op left right).eval engine = (do
      let v ← left.eval engine
      if op.decides v then return v else right.eval engine) := by
  simp only [List.mem_cons, List.not_mem_nil, or_false] at hop
  rcases hop with rfl | rfl
  · rw [eval]
    refine bind_congr fun v => ?_
    cases hv : v.isTrue <;> simp [BinaryOp.decides, hv]
  · rw [eval]
    rfl

/-- The second operand is come to if the first one does not settle the outcome. -/
theorem eval_logical_iff (hop : op ∈ [BinaryOp.and, .or]) {left right : Expr} :
    (binary op left right).eval engine s = r ↔
      left.eval engine s = r ∧ Settles op r ∨
        ∃ v t, left.eval engine s = .ok v t ∧ op.decides v = false ∧
          right.eval engine t = r := by
  rw [eval_logical hop]
  cases hl : left.eval engine s with
  | error f t =>
    rw [bind_of_error hl]
    constructor
    · rintro rfl
      exact .inl ⟨rfl, nofun⟩
    · rintro (⟨h, -⟩ | ⟨v, t, h, -⟩)
      · exact h
      · cases h
  | ok v t =>
    rw [bind_of_ok hl]
    cases hv : op.decides v with
    | true =>
      constructor
      · rintro rfl
        refine .inl ⟨rfl, ?_⟩
        rintro _ _ ⟨⟩
        exact hv
      · rintro (⟨h, -⟩ | ⟨w, t', h, hw, -⟩)
        · exact h
        · cases h
          rw [hv] at hw
          cases hw
    | false =>
      constructor
      · intro h
        exact .inr ⟨v, t, rfl, hv, h⟩
      · rintro (⟨h, hr⟩ | ⟨w, t', h, -, hr⟩)
        · have := hr v t h.symm
          rw [hv] at this
          cases this
        · cases h
          exact hr

/-- A bracketed chain is evaluated as its operands are in turn. -/
theorem Brackets.eval_iff (hop : op ∈ [BinaryOp.and, .or]) (h : Brackets op es e) :
    e.eval engine s = r ↔ InTurn engine op es s r := by
  induction h generalizing s r with
  | operand e => exact inTurn_single.symm
  | join hl hr ihl ihr =>
    rw [eval_logical_iff hop, inTurn_append hl.ne_nil hr.ne_nil, ihl]
    refine or_congr_right ?_
    simp only [ihl, ihr]

/-- A chain of `and` or of `or` evaluates its operands in turn up to the one that settles it,
whatever its bracketing, and with the same calls and draws; the conditions that commas join are
such a chain. -/
theorem eval_chain (engine : Engine) :
    (∀ op ∈ [BinaryOp.and, .or], ∀ es e, Brackets op es e →
      (∀ s r, e.eval engine s = r ↔ InTurn engine op es s r) ∧
      ∀ e', Brackets op es e' → e'.eval engine = e.eval engine) ∧
    ∀ last behind, Brackets .and (behind.reverse ++ [last]) (conjoin last behind) := by
  refine ⟨fun op hop es e h => ⟨fun s r => h.eval_iff hop, fun e' h' => ?_⟩, brackets_conjoin⟩
  funext s
  exact (h'.eval_iff hop).2 ((h.eval_iff hop).1 rfl)

/-- The second of three operands decides, and the third, an unknown function, is not come to. -/
theorem eval_chain_decided_by_draw :
    let engine : Engine := ⟨fun _ _ => .text "set", fun _ _ => .null, fun _ => none,
      fun _ _ => .null, fun _ => 0.5, fun _ low _ => low, 0⟩
    let x := localVar "x"
    let draw := range 4 0
    let unknown := call "f" []
    BinaryOp.and ∈ [BinaryOp.and, .or] ∧
      Brackets .and [x, draw, unknown] (binary .and x (binary .and draw unknown)) ∧
      (binary .and x (binary .and draw unknown)).eval engine [] = .ok (.int 0) [.between 0 4] ∧
      (binary .and (binary .and x draw) unknown).eval engine [] = .ok (.int 0) [.between 0 4] := by
  intro engine x draw unknown
  have hop : BinaryOp.and ∈ [BinaryOp.and, .or] := by simp
  have hright : Brackets .and [x, draw, unknown] (binary .and x (binary .and draw unknown)) :=
    .join (.operand x) (.join (.operand draw) (.operand unknown))
  have hleft : Brackets .and [x, draw, unknown] (binary .and (binary .and x draw) unknown) :=
    .join (.join (.operand x) (.operand draw)) (.operand unknown)
  obtain ⟨hturn, hsame⟩ := (eval_chain engine).1 .and hop _ _ hright
  have hx : x.eval engine [] = .ok (.text "set") [] := rfl
  have hdraw : draw.eval engine [] = .ok (.int 0) [.between 0 4] := rfl
  have hvalue := (hturn [] _).2 (.next hx rfl (.decided [unknown] hdraw rfl))
  exact ⟨hop, hright, hvalue, (congrFun (hsame _ hleft) []).trans hvalue⟩

end Expr
end Gamebook
