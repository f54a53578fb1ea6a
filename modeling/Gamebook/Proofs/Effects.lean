import Gamebook.Proofs.Failures

/-!
Effects in the order of the source. The calls, tests and draws of a tree are listed from left to
right, a call behind its arguments. An evaluation has the effects of some of them, in this order
and each at most once, also if it fails midway. If it gives a value and nothing in the tree is
evaluated under a condition, it has had the effects of all of them.
-/
namespace Gamebook

namespace Expr

/-- The effect that a node has when its turn comes. -/
inductive Has : Expr → Effect → Prop
  | call (name : String) {args : List Expr} {values : List Value}
      (h : values.length = args.length) : Has (call name args) (.call name values)
  | hasItem (item : String) (negated : Bool) :
      Has (hasItem item negated) (.call "hasItem" [.text item, .bool negated])
  | atNode (node : String) (negated : Bool) :
      Has (atNode node negated) (.call "atNode" [.text node, .bool negated])
  | range (low high : Int) : Has (range low high) (.between (min low high) (max low high))
  | percent (n : Number) : Has (percent n) .uniform

mutual

/-- The nodes that have an effect, from left to right, and a call behind its arguments. -/
def sites : Expr → List Expr
  | property target _ => target.sites
  | call name args => sitesAll args ++ [call name args]
  | hasItem item negated => [hasItem item negated]
  | atNode node negated => [atNode node negated]
  | range low high => [range low high]
  | percent n => [percent n]
  | unary _ operand => operand.sites
  | binary _ left right => left.sites ++ right.sites
  | _ => []

def sitesAll : List Expr → List Expr
  | [] => []
  | e :: es => e.sites ++ sitesAll es

end

/-- No part of the tree is evaluated under a condition. -/
def Unconditional (e : Expr) : Prop :=
  ∀ left right, binary .and left right ∉ e.nodes ∧ binary .or left right ∉ e.nodes

theorem Unconditional.of_subset {e x : Expr} (h : e.Unconditional)
    (hx : x.nodes ⊆ e.nodes) : x.Unconditional := fun left right =>
  ⟨fun hy => (h left right).1 (hx hy), fun hy => (h left right).2 (hx hy)⟩

end Expr

namespace Eval

/-- The history that a result leaves behind. -/
def reached : EStateM.Result EvalFault History α → History
  | .ok _ s => s
  | .error _ s => s

/-- The effects of a computation are those of some of the nodes, in their order. If it is
`whole` and gives a value, they are those of all of them. -/
def Traces (x : Eval α) (sites : List Expr) (whole : Prop) : Prop :=
  ∀ s, ∃ nodes effects, nodes.Sublist sites ∧ List.Forall₂ Expr.Has nodes effects ∧
    reached (x s) = effects.reverse ++ s ∧ (whole → ∀ a t, x s = .ok a t → nodes = sites)

/-- A computation without effects. -/
def Quiet (x : Eval α) : Prop := ∀ s, reached (x s) = s

namespace Quiet

theorem pure (a : α) : Quiet (Pure.pure a) := fun _ => rfl

theorem throw (f : EvalFault) : Quiet (MonadExcept.throw f : Eval α) := fun _ => rfl

theorem bind {x : Eval α} {f : α → Eval β} (hx : Quiet x) (hf : ∀ a, Quiet (f a)) :
    Quiet (x >>= f) := by
  intro s
  have hs := hx s
  cases h : x s with
  | ok a t =>
    rw [h] at hs
    rw [bind_of_ok h, hf a t]
    exact hs
  | error e t =>
    rw [h] at hs
    rw [bind_of_error h]
    exact hs

theorem describe (v : Value) : Quiet (Eval.describe v) := by
  unfold Eval.describe
  split
  · exact pure _
  · exact throw _

theorem asText (v : Value) : Quiet (Eval.asText v) := by
  unfold Eval.asText
  split
  · exact pure _
  · exact throw _

theorem negate (v : Value) (node : Expr) : Quiet (Eval.negate v node) := by
  unfold Eval.negate
  split
  · exact pure _
  · exact bind (describe v) fun _ => throw _

theorem unsupported (op : BinaryOp) (v w : Value) (node : Expr) :
    Quiet (Eval.unsupported op v w node) :=
  bind (describe v) fun _ => bind (describe w) fun _ => throw _

theorem ordering (op : BinaryOp) (accepts : Ordering → Bool) (v w : Value) (node : Expr) :
    Quiet (Eval.ordering op accepts v w node) := by
  unfold Eval.ordering
  split
  · exact pure _
  · exact pure _
  · split
    · exact pure _
    · exact unsupported op v w node

theorem arithmetic (op : BinaryOp) (f : Value → Value → Except ArithmeticError Value)
    (v w : Value) (node : Expr) : Quiet (Eval.arithmetic op f v w node) := by
  unfold Eval.arithmetic
  split
  · exact pure _
  · exact unsupported op v w node
  · exact throw _
  · exact throw _
  · exact throw _

theorem sum (v w : Value) (node : Expr) : Quiet (Eval.sum v w node) := by
  have htexts : Quiet (do return .text ((← Eval.asText v) ++ (← Eval.asText w)) : Eval Value) :=
    bind (asText v) fun _ => bind (asText w) fun _ => pure _
  unfold Eval.sum
  split
  · exact htexts
  · exact htexts
  · exact arithmetic .add Value.add v w node

theorem strict (room : Nat) (op : BinaryOp) (v w : Value) (node : Expr) :
    Quiet (Eval.strict room op v w node) := by
  cases op with
  | eq | ne => exact pure _
  | lt | le | gt | ge => exact ordering _ _ v w node
  | add => exact sum v w node
  | sub | mul | div => exact arithmetic _ _ v w node
  | and | or | other => exact throw _

end Quiet

namespace Traces

variable {whole : Prop}

theorem quiet {x : Eval α} (h : Quiet x) : Traces x [] whole :=
  fun s => ⟨[], [], .slnil, .nil, h s, fun _ _ _ _ => rfl⟩

/-- What is left out was under a condition. -/
theorem skip {x : Eval α} (h : Quiet x) (hw : ¬ whole) (sites : List Expr) :
    Traces x sites whole :=
  fun s => ⟨[], [], List.nil_sublist _, .nil, h s, fun hwhole => absurd hwhole hw⟩

theorem mono {x : Eval α} {sites : List Expr} {whole' : Prop} (h : Traces x sites whole)
    (hw : whole' → whole) : Traces x sites whole' := by
  intro s
  obtain ⟨nodes, effects, hsub, heffects, hs, hall⟩ := h s
  exact ⟨nodes, effects, hsub, heffects, hs, fun hwhole => hall (hw hwhole)⟩

/-- The effects of what comes second are behind those of what comes first, if it is come to. -/
theorem bind {x : Eval α} {f : α → Eval β} {first second : List Expr}
    (hx : Traces x first whole)
    (hf : ∀ s a t, x s = .ok a t → Traces (f a) second whole) :
    Traces (x >>= f) (first ++ second) whole := by
  intro s
  obtain ⟨nodes, effects, hsub, heffects, hs, hall⟩ := hx s
  cases h : x s with
  | error e t =>
    rw [h] at hs
    refine ⟨nodes, effects, hsub.trans (List.sublist_append_left _ _), heffects, ?_, ?_⟩
    · rw [bind_of_error h]
      exact hs
    · rw [bind_of_error h]
      intro _ _ _ hok
      cases hok
  | ok a t =>
    rw [h] at hs
    obtain ⟨nodes', effects', hsub', heffects', hs', hall'⟩ := hf s a t h t
    refine ⟨nodes ++ nodes', effects ++ effects', hsub.append hsub',
      List.rel_append heffects heffects', ?_, ?_⟩
    · have ht : t = effects.reverse ++ s := hs
      rw [bind_of_ok h, hs', ht]
      simp
    · rw [bind_of_ok h]
      intro hwhole b u hok
      rw [hall hwhole a t h, hall' hwhole b u hok]

/-- A node has its effect, unless it fails before. -/
theorem call (engine : Engine) {name : String} {values : List Value} {node : Expr}
    (hnode : node.Has (.call name values)) :
    Traces (Eval.call engine name values node) [node] whole := by
  intro s
  cases hf : engine.functions name with
  | none =>
    simp only [Eval.call, hf]
    exact ⟨[], [], List.nil_sublist _, .nil, rfl, fun _ _ _ h => by cases h⟩
  | some f =>
    refine ⟨[node], [.call name values], .refl _, .cons hnode .nil, ?_, fun _ _ _ _ => rfl⟩
    rw [Eval.call_of_some hf]
    rcases f s values with (text | ⟨kind, message⟩) | v <;> rfl

end Traces
end Eval

namespace Expr

variable {engine : Engine}

theorem length_evalAll {es : List Expr} {vs : List Value} {s t : History}
    (h : evalAll engine es s = .ok vs t) : vs.length = es.length := by
  induction es generalizing s vs with
  | nil =>
    cases h
    rfl
  | cons e es ih =>
    rw [evalAll] at h
    obtain ⟨v, u, -, h⟩ := bind_eq_ok.1 h
    obtain ⟨ws, u', hws, h⟩ := bind_eq_ok.1 h
    cases h
    simp [ih hws]

open Eval in
mutual

/-- An evaluation has the effects of the tree in their order. -/
theorem eval_traces (engine : Engine) : (e : Expr) →
    Traces (e.eval engine) e.sites e.Unconditional
  | number _ | string _ => .quiet (.pure _)
  | localVar _ | globalVar _ => .quiet fun _ => rfl
  | blank => .quiet (.throw _)
  | constant name => by
    rw [eval]
    split
    · exact .quiet (.pure _)
    · exact .quiet (.throw _)
  | property target name => by
    have htarget := (eval_traces engine target).mono fun h : (property target name).Unconditional =>
      h.of_subset (nodes_property_subset target name)
    rw [eval]
    simpa only [sites, List.append_nil] using
      htarget.bind fun _ _ _ _ => .quiet (.pure _)
  | call name args => by
    have hargs := (evalAll_traces engine args).mono fun h : (call name args).Unconditional =>
      fun e he => h.of_subset (nodes_argument_subset he name)
    rw [eval]
    exact hargs.bind fun _ _ _ h => .call engine (.call name (length_evalAll h))
  | hasItem item negated => .call engine (.hasItem item negated)
  | atNode node negated => .call engine (.atNode node negated)
  | range low high => fun s =>
    ⟨_, [_], .refl _, .cons (.range low high) .nil, rfl, fun _ _ _ _ => rfl⟩
  | percent n => fun s => ⟨_, [_], .refl _, .cons (.percent n) .nil, rfl, fun _ _ _ _ => rfl⟩
  | unary op operand => by
    have hoperand := (eval_traces engine operand).mono fun h : (unary op operand).Unconditional =>
      h.of_subset (nodes_operand_subset op operand)
    rw [eval]
    simp only [sites]
    rw [← List.append_nil operand.sites]
    refine hoperand.bind fun _ v _ _ => .quiet ?_
    split
    · exact .pure _
    · exact .negate v _
  | binary op left right => by
    have hleft := (eval_traces engine left).mono fun h : (binary op left right).Unconditional =>
      h.of_subset (nodes_left_subset op left right)
    have hright := (eval_traces engine right).mono fun h : (binary op left right).Unconditional =>
      h.of_subset (nodes_right_subset op left right)
    rw [eval_binary]
    refine hleft.bind fun _ v _ _ => ?_
    split
    · -- the second operand is left out, so the tree has a condition
      rename_i hdecided
      refine .skip (.pure _) ?_ right.sites
      intro h
      rcases hdecided with ⟨rfl, -⟩ | ⟨rfl, -⟩
      · exact (h left right).1 (mem_nodes_self _)
      · exact (h left right).2 (mem_nodes_self _)
    · rw [← List.append_nil right.sites]
      refine hright.bind fun _ w _ _ => .quiet ?_
      split
      · exact .pure _
      · exact .strict engine.room op v w _

theorem evalAll_traces (engine : Engine) : (es : List Expr) →
    Traces (evalAll engine es) (sitesAll es) (∀ e ∈ es, e.Unconditional)
  | [] => .quiet (.pure _)
  | e :: es => by
    have he := (eval_traces engine e).mono fun h : ∀ x ∈ e :: es, x.Unconditional =>
      h e (by simp)
    have hes := (evalAll_traces engine es).mono fun h : ∀ x ∈ e :: es, x.Unconditional =>
      fun x hx => h x (by simp [hx])
    rw [evalAll]
    refine he.bind fun _ v _ _ => ?_
    rw [← List.append_nil (sitesAll es)]
    exact hes.bind fun _ vs _ _ => .quiet (.pure _)

end

/-- A draw is between bounds in their order. -/
theorem Has.bounds_le {node : Expr} {low high : Int} (h : node.Has (.between low high)) :
    low ≤ high := by
  cases h with
  | range a b => omega

/-- An evaluation has the effects of some of the nodes of the tree, in the order of the source
and each at most once; of all, if it gives a value and the tree is without conditions. Draws are
between bounds in their order. -/
theorem eval_effects (engine : Engine) (e : Expr) (s : History) :
    ∃ nodes effects, nodes.Sublist e.sites ∧ List.Forall₂ Has nodes effects ∧
      Eval.reached (e.eval engine s) = effects.reverse ++ s ∧
      (∀ v t, e.eval engine s = .ok v t → e.Unconditional → nodes = e.sites) ∧
      ∀ low high, .between low high ∈ effects → low ≤ high := by
  obtain ⟨nodes, effects, hsub, heffects, hs, hall⟩ := eval_traces engine e s
  have hbounds : ∀ x ∈ effects, ∀ low high, x = Effect.between low high → low ≤ high := by
    refine ((List.forall₂_and_left _ _).1 (heffects.flip.imp fun x node hx => ⟨?_, hx⟩)).1
    rintro low high rfl
    exact Has.bounds_le hx
  exact ⟨nodes, effects, hsub, heffects, hs, fun v t h he => hall he v t h,
    fun low high hx => hbounds _ hx low high rfl⟩

/-- A draw between bounds in the wrong order and a chance are arguments of a call, and a test
comes behind it. -/
theorem eval_effects_in_order :
    let engine : Engine := ⟨fun _ _ => .null, fun _ _ => .null, fun _ => some fun _ _ => .ok .null,
      fun _ _ => .null, fun _ => 0.5, fun _ low _ => low, 0⟩
    let e := binary .eq (call "f" [range 6 1, percent (.int 50)]) (hasItem "key" false)
    e.Unconditional ∧ (∃ v t, e.eval engine [] = .ok v t) ∧
      ∃ effects, List.Forall₂ Has [range 6 1, percent (.int 50),
          call "f" [range 6 1, percent (.int 50)], hasItem "key" false] effects ∧
        Eval.reached (e.eval engine []) = effects.reverse ++ [] := by
  intro engine e
  have hfree : e.Unconditional := by simp [Unconditional, e, nodes, nodesAll]
  have hvalue : ∃ v t, e.eval engine [] = .ok v t := ⟨_, _, rfl⟩
  obtain ⟨nodes, effects, -, heffects, hs, hall, -⟩ := eval_effects engine e []
  obtain ⟨v, t, h⟩ := hvalue
  rw [hall v t h hfree] at heffects
  exact ⟨hfree, ⟨v, t, h⟩, effects, heffects, hs⟩

end Expr
end Gamebook
