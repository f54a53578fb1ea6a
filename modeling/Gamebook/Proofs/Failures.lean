import Gamebook.Eval.Basic
import Gamebook.Proofs.Overflow
import Gamebook.Proofs.Turns

/-!
How an evaluation fails. A fault is raised by the own operation of one node, after its operands
have given their values, and every node around it hands the fault on as it is. Of a tree over
the operators and constants of the language the fault tells what went wrong there: a problem of
that very node, numbers or repetitions that are too large, or an integer too long to be written.
-/
namespace Gamebook

namespace Eval

/-- The faults of an operation, which leaves the history as it is. -/
def Faults (x : Eval α) (P : EvalFault → Prop) : Prop :=
  ∀ s f t, x s = .error f t → P f ∧ t = s

namespace Faults

variable {P : EvalFault → Prop}

theorem pure (a : α) : Faults (Pure.pure a) P := by
  intro s f t h
  cases h

theorem throw {f : EvalFault} (h : P f) : Faults (MonadExcept.throw f : Eval α) P := by
  intro s g t hg
  cases hg
  exact ⟨h, rfl⟩

/-- A value is written, and something is done with its text. -/
theorem written (text : String) {v : Value} {k : String → Eval α}
    (h : v.IsLong → P .longInteger) (hk : Faults (k text) P) :
    Faults ((if v.isWritable then Pure.pure text else MonadExcept.throw .longInteger) >>= k) P := by
  split
  · rw [pure_bind]
    exact hk
  · rename_i hw
    intro s f t hf
    cases hf
    exact ⟨h (v.isLong_iff.2 (by simpa using hw)), rfl⟩

end Faults

theorem negate_faults (v : Value) (node : Expr) :
    Faults (negate v node) fun f => (∃ p, f = .failed p node) ∨ f = .longInteger ∧ v.IsLong := by
  unfold negate
  split
  · exact .pure _
  · exact .written _ (fun h => .inr ⟨rfl, h⟩) (.throw (.inl ⟨_, rfl⟩))

/-- Operands that are too large for their operator. Two numbers are if an integer beyond all
doubles meets a double or if the quotient of integers is beyond them; what is repeated is if it
gets longer than can be counted or larger than the memory. -/
inductive TooLarge (room : Nat) (op : BinaryOp) (v w : Value) : EvalFault → Prop
  | mismatched (hop : op ∈ [BinaryOp.add, .sub, .mul, .div])
      (h : Value.AsNumbers Number.Mismatched v w) :
      TooLarge room op v w (.outOfRange .integerTooLarge)
  | oversized (hop : op = .div) (h : Value.AsNumbers Number.Oversized v w) :
      TooLarge room op v w (.outOfRange .quotientTooLarge)
  | overlong {e : ArithmeticError} (he : e ∈ [.countTooLarge, .textTooLong]) (hop : op = .mul)
      (h : Value.Overlong v w) : TooLarge room op v w (.outOfRange e)
  | overfull (hop : op = .mul) (h : Value.Overfull room v w) : TooLarge room op v w .outOfMemory

/-- What a fault of an operator says. -/
inductive Explained (room : Nat) (op : BinaryOp) (v w : Value) (node : Expr) : EvalFault → Prop
  | failed (p : Problem) : Explained room op v w node (.failed p node)
  | longInteger (h : v.IsLong ∨ w.IsLong) : Explained room op v w node .longInteger
  | large {f : EvalFault} (h : TooLarge room op v w f) : Explained room op v w node f

variable {room : Nat} {op : BinaryOp} {v w : Value} {node : Expr}

theorem unsupported_faults : Faults (unsupported op v w node) (Explained room op v w node) :=
  .written _ (fun h => .longInteger (.inl h)) <|
    .written _ (fun h => .longInteger (.inr h)) (.throw (.failed _))

theorem ordering_faults (accepts : Ordering → Bool) :
    Faults (ordering op accepts v w node) (Explained room op v w node) := by
  unfold ordering
  split
  · exact .pure _
  · exact .pure _
  · split
    · exact .pure _
    · exact unsupported_faults

theorem arithmetic_faults {f : Value → Value → Except ArithmeticError Value}
    (hop : op ∈ [BinaryOp.add, .sub, .mul, .div])
    (hf : ∀ e, f v w = .error e → Value.Fails room op v w e) :
    Faults (arithmetic op f v w node) (Explained room op v w node) := by
  unfold arithmetic
  split
  · exact .pure _
  · exact unsupported_faults
  · exact .throw (.failed _)
  · rename_i herror
    cases hf _ herror with
    | memory hmul ho => exact .throw (.large (.overfull hmul ho))
  · rename_i e hunsupported hzero hmemory herror
    cases hf e herror with
    | unsupported => exact absurd rfl hunsupported
    | divisionByZero => exact absurd rfl hzero
    | mismatched hm => exact .throw (.large (.mismatched hop hm))
    | oversized hdiv ho => exact .throw (.large (.oversized hdiv ho))
    | count hmul hl => exact .throw (.large (.overlong (by simp) hmul hl))
    | text hmul hl => exact .throw (.large (.overlong (by simp) hmul hl))
    | memory => exact absurd rfl hmemory

theorem sum_faults : Faults (sum v w node) (Explained room .add v w node) := by
  have htexts : Faults (do return .text ((← asText v) ++ (← asText w)) : Eval Value)
      (Explained room .add v w node) :=
    .written _ (fun h => .longInteger (.inl h)) <|
      .written _ (fun h => .longInteger (.inr h)) (.pure _)
  unfold sum
  split
  · exact htexts
  · exact htexts
  · exact arithmetic_faults (by simp) fun e h => Value.add_fails h

theorem strict_faults (hop : op ∈ BinaryOp.all) (hand : op ≠ .and) (hor : op ≠ .or) :
    Faults (strict room op v w node) (Explained room op v w node) := by
  cases op with
  | eq | ne => exact .pure _
  | lt | le | gt | ge => exact ordering_faults _
  | add => exact sum_faults
  | sub => exact arithmetic_faults (by simp) fun e h => Value.subtract_fails h
  | mul => exact arithmetic_faults (by simp) fun e h => Value.multiply_fails h
  | div => exact arithmetic_faults (by simp) fun e h => Value.divide_fails h
  | and => exact absurd rfl hand
  | or => exact absurd rfl hor
  | other => simp [BinaryOp.all] at hop

end Eval

namespace Expr

mutual

/-- A tree and all trees under it. -/
def nodes : Expr → List Expr
  | property target name => property target name :: target.nodes
  | call name args => call name args :: nodesAll args
  | unary op operand => unary op operand :: operand.nodes
  | binary op left right => binary op left right :: (left.nodes ++ right.nodes)
  | e => [e]

def nodesAll : List Expr → List Expr
  | [] => []
  | e :: es => e.nodes ++ nodesAll es

end

theorem mem_nodes_self (e : Expr) : e ∈ e.nodes := by
  cases e <;> simp [nodes]

theorem mem_nodesAll {es : List Expr} {x : Expr} : x ∈ nodesAll es ↔ ∃ e ∈ es, x ∈ e.nodes := by
  induction es with
  | nil => simp [nodesAll]
  | cons e es ih => simp [nodesAll, ih]

theorem nodes_property_subset (target : Expr) (name : String) :
    target.nodes ⊆ (property target name).nodes := List.subset_cons_self _ _

theorem nodes_argument_subset {e : Expr} {args : List Expr} (h : e ∈ args) (name : String) :
    e.nodes ⊆ (call name args).nodes :=
  fun _ hx => List.mem_cons_of_mem _ (mem_nodesAll.2 ⟨e, h, hx⟩)

theorem nodes_operand_subset (op : UnaryOp) (e : Expr) : e.nodes ⊆ (unary op e).nodes :=
  List.subset_cons_self _ _

theorem nodes_left_subset (op : BinaryOp) (l r : Expr) : l.nodes ⊆ (binary op l r).nodes :=
  fun _ hx => List.mem_cons_of_mem _ (List.mem_append_left _ hx)

theorem nodes_right_subset (op : BinaryOp) (l r : Expr) : r.nodes ⊆ (binary op l r).nodes :=
  fun _ hx => List.mem_cons_of_mem _ (List.mem_append_right _ hx)

/-- A node of one of the kinds of the language, with an operator or a constant of it. -/
def KnownNode : Expr → Prop
  | constant name => (constantValue? name).isSome = true
  | unary op _ => op ∈ [UnaryOp.minus, .not]
  | binary op _ _ => op ∈ BinaryOp.all
  | blank => False
  | _ => True

def Known (e : Expr) : Prop := ∀ x ∈ e.nodes, x.KnownNode

variable {engine : Engine}

/-- Evaluating a tree comes to evaluate another one: an operand or an argument of a node is met
after those before it gave their values, and the second operand of `and` and `or` only if the
first does not decide. -/
inductive Evaluates (engine : Engine) : Expr → History → Expr → History → Prop
  | here (e : Expr) (s : History) : Evaluates engine e s e s
  | property {target x : Expr} {s t : History} (name : String)
      (h : Evaluates engine target s x t) : Evaluates engine (property target name) s x t
  | argument {a x : Expr} {s s' t : History} {front : List Expr} {vs : List Value}
      (name : String) (back : List Expr) (hfront : evalAll engine front s = .ok vs s')
      (h : Evaluates engine a s' x t) : Evaluates engine (call name (front ++ a :: back)) s x t
  | operand {a x : Expr} {s t : History} (op : UnaryOp) (h : Evaluates engine a s x t) :
      Evaluates engine (unary op a) s x t
  | left {l x : Expr} {s t : History} (op : BinaryOp) (r : Expr) (h : Evaluates engine l s x t) :
      Evaluates engine (binary op l r) s x t
  | right {l r x : Expr} {s s' t : History} {v : Value} (op : BinaryOp)
      (hl : l.eval engine s = .ok v s') (hand : op = .and → v.isTrue = true)
      (hor : op = .or → v.isTrue = false) (h : Evaluates engine r s' x t) :
      Evaluates engine (binary op l r) s x t

theorem Evaluates.mem_nodes {e x : Expr} {s t : History} (h : Evaluates engine e s x t) :
    x ∈ e.nodes := by
  induction h with
  | here => exact mem_nodes_self _
  | property name _ ih => exact nodes_property_subset _ name ih
  | argument name _ _ _ ih => exact nodes_argument_subset (by simp) name ih
  | operand op _ ih => exact nodes_operand_subset op _ ih
  | left op r _ ih => exact nodes_left_subset op _ r ih
  | right op _ _ _ _ ih => exact nodes_right_subset op _ _ ih

/-- The first operand may decide; else the second one is evaluated too. -/
theorem eval_binary (op : BinaryOp) (l r : Expr) : (binary op l r).eval engine = (do
    let v ← l.eval engine
    if op = .and ∧ v.isTrue = false ∨ op = .or ∧ v.isTrue = true then return v
    let w ← r.eval engine
    if op = .and ∨ op = .or then return w
    Eval.strict engine.room op v w (.binary op l r)) := by
  cases op with
  | and | or =>
    rw [eval]
    refine bind_congr fun v => ?_
    cases v.isTrue <;> simp
  | _ => simp [eval]

theorem evalAll_error {front back : List Expr} {a : Expr} {s s' u : History} {vs : List Value}
    {f : EvalFault} (hfront : evalAll engine front s = .ok vs s')
    (ha : a.eval engine s' = .error f u) :
    evalAll engine (front ++ a :: back) s = .error f u := by
  induction front generalizing s vs with
  | nil =>
    cases hfront
    rw [List.nil_append, evalAll]
    exact bind_of_error ha
  | cons e front ih =>
    rw [evalAll] at hfront
    obtain ⟨v, t, hv, hrest⟩ := bind_eq_ok.1 hfront
    obtain ⟨ws, t', hws, hpure⟩ := bind_eq_ok.1 hrest
    cases hpure
    rw [List.cons_append, evalAll, bind_of_ok hv]
    exact bind_of_error (ih hws)

/-- A fault of a tree that is met is the fault of the whole, unchanged. -/
theorem Evaluates.eval_error {e x : Expr} {s t u : History} {f : EvalFault}
    (h : Evaluates engine e s x t) (hx : x.eval engine t = .error f u) :
    e.eval engine s = .error f u := by
  induction h with
  | here => exact hx
  | property _ _ ih =>
    rw [eval]
    exact bind_of_error (ih hx)
  | argument _ _ hfront _ ih =>
    rw [eval]
    exact bind_of_error (evalAll_error hfront (ih hx))
  | operand _ _ ih =>
    rw [eval]
    exact bind_of_error (ih hx)
  | left _ _ _ ih =>
    rw [eval_binary]
    exact bind_of_error (ih hx)
  | right op hl hand hor _ ih =>
    rw [eval_binary, bind_of_ok hl, if_neg (by grind)]
    exact bind_of_error (ih hx)

/-- The own operation of a node raises a fault, after all its operands gave their values. -/
inductive Raises (engine : Engine) : Expr → History → EvalFault → History → Prop
  | constant {name : String} (t : History) (h : constantValue? name = none) :
      Raises engine (constant name) t (.unknownConstant name) t
  | call {name : String} {args : List Expr} {vs : List Value} {t t' u : History} {f : EvalFault}
      (hargs : evalAll engine args t = .ok vs t')
      (h : Eval.call engine name vs (.call name args) t' = .error f u) :
      Raises engine (call name args) t f u
  | hasItem {item : String} {no : Bool} {t u : History} {f : EvalFault}
      (h : Eval.call engine "hasItem" [.text item, .bool no] (.hasItem item no) t = .error f u) :
      Raises engine (hasItem item no) t f u
  | atNode {node : String} {no : Bool} {t u : History} {f : EvalFault}
      (h : Eval.call engine "atNode" [.text node, .bool no] (.atNode node no) t = .error f u) :
      Raises engine (atNode node no) t f u
  | unary {op : UnaryOp} {a : Expr} {v : Value} {t t' u : History} {f : EvalFault}
      (hop : op ≠ .not) (ha : a.eval engine t = .ok v t')
      (h : Eval.negate v (.unary op a) t' = .error f u) : Raises engine (unary op a) t f u
  | binary {op : BinaryOp} {l r : Expr} {v w : Value} {t t' t'' u : History} {f : EvalFault}
      (hand : op ≠ .and) (hor : op ≠ .or) (hl : l.eval engine t = .ok v t')
      (hr : r.eval engine t' = .ok w t'')
      (h : Eval.strict engine.room op v w (.binary op l r) t'' = .error f u) :
      Raises engine (binary op l r) t f u
  | blank (t : History) :
      Raises engine blank t (.failed (.unsupportedNode blank.describe) blank) t

mutual

/-- Every fault is raised by a node that is met. -/
theorem exists_raises : (e : Expr) → {s u : History} → {f : EvalFault} →
    e.eval engine s = .error f u →
      ∃ x t, Evaluates engine e s x t ∧ Raises engine x t f u
  | number _, _, _, _, h | string _, _, _, _, h | localVar _, _, _, _, h
  | globalVar _, _, _, _, h | range .., _, _, _, h | percent _, _, _, _, h => nomatch h
  | constant name, s, u, f, h => by
    rw [eval] at h
    cases hv : constantValue? name with
    | some n =>
      simp only [hv] at h
      cases h
    | none =>
      simp only [hv] at h
      cases h
      exact ⟨_, s, .here _ s, .constant s hv⟩
  | hasItem item no, s, u, f, h => ⟨_, s, .here _ s, .hasItem h⟩
  | atNode node no, s, u, f, h => ⟨_, s, .here _ s, .atNode h⟩
  | blank, s, u, f, h => by
    cases h
    exact ⟨_, s, .here _ s, .blank s⟩
  | property target name, s, u, f, h => by
    rw [eval] at h
    rcases error_of_bind h with h | ⟨v, t, -, h⟩
    · obtain ⟨x, t, hx, hr⟩ := exists_raises target h
      exact ⟨x, t, .property name hx, hr⟩
    · cases h
  | call name args, s, u, f, h => by
    rw [eval] at h
    rcases error_of_bind h with h | ⟨vs, t, hargs, h⟩
    · obtain ⟨front, a, back, vs, t, rfl, hfront, x, t', hx, hr⟩ := exists_raisesAll args h
      exact ⟨x, t', .argument name back hfront hx, hr⟩
    · exact ⟨_, s, .here _ s, .call hargs h⟩
  | unary op a, s, u, f, h => by
    rw [eval] at h
    rcases error_of_bind h with h | ⟨v, t, ha, h⟩
    · obtain ⟨x, t, hx, hr⟩ := exists_raises a h
      exact ⟨x, t, .operand op hx, hr⟩
    · split at h
      · cases h
      · rename_i hop
        exact ⟨_, s, .here _ s, .unary hop ha h⟩
  | binary op l r, s, u, f, h => by
    rw [eval_binary] at h
    rcases error_of_bind h with h | ⟨v, t, hl, h⟩
    · obtain ⟨x, t, hx, hr⟩ := exists_raises l h
      exact ⟨x, t, .left op r hx, hr⟩
    split at h
    · cases h
    · rename_i hdecided
      rcases error_of_bind h with h | ⟨w, t', hw, h⟩
      · obtain ⟨x, t', hx, hr⟩ := exists_raises r h
        exact ⟨x, t', .right op hl (by grind) (by grind) hx, hr⟩
      · split at h
        · cases h
        · rename_i hop
          exact ⟨_, s, .here _ s, .binary (by grind) (by grind) hl hw h⟩

theorem exists_raisesAll : (es : List Expr) → {s u : History} → {f : EvalFault} →
    evalAll engine es s = .error f u →
      ∃ front a back vs t, es = front ++ a :: back ∧ evalAll engine front s = .ok vs t ∧
        ∃ x t', Evaluates engine a t x t' ∧ Raises engine x t' f u
  | [], _, _, _, h => nomatch h
  | e :: es, s, u, f, h => by
    rw [evalAll] at h
    rcases error_of_bind h with h | ⟨v, t, hv, h⟩
    · exact ⟨[], e, es, [], s, rfl, rfl, exists_raises e h⟩
    · rcases error_of_bind h with h | ⟨vs, t', -, h⟩
      · obtain ⟨front, a, back, vs, t', rfl, hfront, hx⟩ := exists_raisesAll es h
        refine ⟨e :: front, a, back, v :: vs, t', rfl, ?_, hx⟩
        rw [evalAll, bind_of_ok hv]
        exact bind_eq_ok.2 ⟨vs, t', hfront, rfl⟩
      · cases h

end

theorem Raises.eval_error {x : Expr} {t u : History} {f : EvalFault}
    (h : Raises engine x t f u) : x.eval engine t = .error f u := by
  cases h with
  | constant _ h =>
    rw [eval]
    simp only [h]
    rfl
  | call hargs h =>
    rw [eval, bind_of_ok hargs]
    exact h
  | hasItem h | atNode h => exact h
  | unary hop ha h =>
    rw [eval, bind_of_ok ha]
    split
    · exact absurd rfl hop
    · exact h
  | binary hand hor hl hr h =>
    rw [eval_binary, bind_of_ok hl, if_neg (by simp [hand, hor]), bind_of_ok hr,
      if_neg (by simp [hand, hor])]
    exact h
  | blank => rfl

end Expr

/-- An engine whose functions give a value or do not take their arguments. -/
def Engine.Tame (engine : Engine) : Prop :=
  ∀ name f, engine.functions name = some f →
    ∀ before args kind message, f before args ≠ .error (.raised kind message)

/-- A function that is there answers for the call, which has been recorded by then. -/
theorem Eval.call_of_some {engine : Engine} {name : String} {g : Function}
    (hg : engine.functions name = some g) (args : List Value) (node : Expr) (t : History) :
    Eval.call engine name args node t = match g t args with
      | .ok v => .ok v (.call name args :: t)
      | .error (.arguments text) =>
        .error (.failed (.callFailed name text) node) (.call name args :: t)
      | .error (.raised kind message) => .error (.raised kind message) (.call name args :: t) := by
  simp only [Eval.call, hg, bind, EStateM.bind, get, getThe, MonadStateOf.get, record, modify,
    modifyGet, MonadStateOf.modifyGet]
  unfold EStateM.get EStateM.modifyGet
  dsimp only
  rcases g t args with (text | ⟨kind, message⟩) | v <;> rfl

theorem Eval.call_failed {engine : Engine} (he : engine.Tame) {name : String} {args : List Value}
    {node : Expr} {t u : History} {f : EvalFault}
    (h : Eval.call engine name args node t = .error f u) : ∃ p, f = .failed p node := by
  cases hg : engine.functions name with
  | none =>
    simp only [Eval.call, hg] at h
    cases h
    exact ⟨_, rfl⟩
  | some g =>
    rw [Eval.call_of_some hg] at h
    cases hr : g t args with
    | ok v =>
      simp only [hr] at h
      cases h
    | error refusal =>
      cases refusal with
      | arguments text =>
        simp only [hr] at h
        cases h
        exact ⟨_, rfl⟩
      | raised kind message => exact absurd hr (he name g hg t args kind message)

namespace Expr

variable {engine : Engine}

/-- The value of an operand of a node. -/
inductive Operand (engine : Engine) : Expr → History → Value → Prop
  | only {op : UnaryOp} {a : Expr} {v : Value} {t u : History} (h : a.eval engine t = .ok v u) :
      Operand engine (unary op a) t v
  | first {op : BinaryOp} {l r : Expr} {v : Value} {t u : History} (h : l.eval engine t = .ok v u) :
      Operand engine (binary op l r) t v
  | second {op : BinaryOp} {l r : Expr} {v w : Value} {t t' u : History}
      (hl : l.eval engine t = .ok v t') (hr : r.eval engine t' = .ok w u) :
      Operand engine (binary op l r) t w

/-- What a fault tells of the node that raised it: a problem of that node, an operand that holds
an integer too long to be written, or two operands that are too large for their operator. -/
inductive Blames (engine : Engine) (x : Expr) (t u : History) : EvalFault → Prop
  | problem (p : Problem) : Blames engine x t u (.failed p x)
  | longInteger {v : Value} (hv : Operand engine x t v) (h : v.IsLong) :
      Blames engine x t u .longInteger
  | large {op : BinaryOp} {l r : Expr} {v w : Value} {t' : History} {f : EvalFault}
      (hx : x = binary op l r) (hl : l.eval engine t = .ok v t') (hr : r.eval engine t' = .ok w u)
      (h : Eval.TooLarge engine.room op v w f) : Blames engine x t u f

theorem Raises.blames (he : engine.Tame) {x : Expr} (hx : x.KnownNode) {t u : History}
    {f : EvalFault} (h : Raises engine x t f u) : Blames engine x t u f := by
  cases h with
  | constant _ h => simp [KnownNode, h] at hx
  | call _ h | hasItem h | atNode h =>
    obtain ⟨p, rfl⟩ := Eval.call_failed he h
    exact .problem p
  | unary _ ha h =>
    obtain ⟨⟨p, rfl⟩ | ⟨rfl, hv⟩, -⟩ := Eval.negate_faults _ _ _ _ _ h
    · exact .problem p
    · exact .longInteger (.only ha) hv
  | binary hand hor hl hr h =>
    obtain ⟨hf, rfl⟩ := Eval.strict_faults hx hand hor _ _ _ h
    cases hf with
    | failed p => exact .problem p
    | longInteger hlong =>
      rcases hlong with hv | hw
      · exact .longInteger (.first hl) hv
      · exact .longInteger (.second hl hr) hw
    | large hlarge => exact .large rfl hl hr hlarge
  | blank => exact hx.elim

/-- Evaluating a tree of the language with functions that raise nothing of their own gives a
value, or a fault that some node of the tree raises when its turn comes; the fault then is a
problem of that node, or its operands are too large, or one of them is too long to be written.
Whatever a tree that is met raises is raised by the whole, unchanged. -/
theorem eval_faults (he : engine.Tame) {e : Expr} (hk : e.Known) (s : History) :
    ((∃ v u, e.eval engine s = .ok v u) ∨
      ∃ f u, e.eval engine s = .error f u ∧ ∃ x ∈ e.nodes, ∃ t, Evaluates engine e s x t ∧
        x.eval engine t = .error f u ∧ Blames engine x t u f) ∧
    ∀ x t f u, Evaluates engine e s x t → x.eval engine t = .error f u →
      e.eval engine s = .error f u := by
  refine ⟨?_, fun x t f u hx hf => hx.eval_error hf⟩
  cases h : e.eval engine s with
  | ok v u => exact .inl ⟨v, u, rfl⟩
  | error f u =>
    obtain ⟨x, t, hx, hr⟩ := exists_raises e h
    have hknown : x.KnownNode := hk x hx.mem_nodes
    exact .inr ⟨f, u, rfl, x, hx.mem_nodes, t, hx, hr.eval_error, hr.blames he hknown⟩

/-- A quotient fails that is the second argument of a call under `and`. -/
theorem eval_faults_argument :
    let engine : Engine := ⟨fun _ _ => .bool true, fun _ _ => .null, fun _ => none,
      fun _ _ => .null, fun _ => 0.5, fun _ low _ => low, 0⟩
    let quotient := binary .div (number (.int 1)) (number (.int 0))
    let e := unary .not (binary .and (localVar "x") (call "f" [localVar "y", quotient]))
    engine.Tame ∧ e.Known ∧ quotient.eval engine [] = .error (.failed .divisionByZero quotient) [] ∧
      e.eval engine [] = .error (.failed .divisionByZero quotient) [] := by
  intro engine quotient e
  have htame : engine.Tame := fun _ _ h => by cases h
  have hknown : e.Known := by
    simp [Known, KnownNode, e, quotient, nodes, nodesAll, BinaryOp.all]
  have hquotient : quotient.eval engine [] = .error (.failed .divisionByZero quotient) [] := rfl
  have hargument : Evaluates engine (call "f" ([localVar "y"] ++ quotient :: [])) [] quotient [] :=
    .argument "f" [] rfl (.here _ _)
  have hmet : Evaluates engine e [] quotient [] :=
    .operand .not (.right .and rfl (fun _ => rfl) (by simp) hargument)
  exact ⟨htame, hknown, hquotient, (eval_faults htame hknown []).2 _ _ _ _ hmet hquotient⟩

/-- However much room there is, a list or a text that is repeated by an index can be too large
for the memory, and a text too long for any: neither is a problem of a node, and their operands
are not two numbers. -/
theorem eval_repeated_beyond_memory :
    let engine (room : Nat) (v : Value) : Engine := ⟨fun _ _ => v, fun _ _ => .null, fun _ => none,
      fun _ _ => .null, fun _ => 0.5, fun _ low _ => low, room⟩
    let e := binary .mul (localVar "a") (number (.int (pow2 62)))
    IsIndex (pow2 62) ∧ e.Known ∧ ∀ room, (∀ v, (engine room v).Tame) ∧
      e.eval (engine room (.list [.int 1])) [] = .error .outOfMemory [] ∧
      e.eval (engine room (.list [.int 1, .int 2])) [] = .error .outOfMemory [] ∧
      e.eval (engine room (.text "Ā")) [] = .error .outOfMemory [] ∧
      e.eval (engine room (.text "ab")) [] = .error (.outOfRange .textTooLong) [] := by
  intro engine e
  have hknown : e.Known := by
    simp [Known, KnownNode, e, nodes, BinaryOp.all]
  have hwide (room : Nat) : Value.repeatText room "Ā" (pow2 62) = .error .outOfMemory := by
    have hlength : "Ā".length = 1 := rfl
    have hbytes (n : Nat) : Value.textBytes "Ā" n = 72 + (n + 1) * 2 := rfl
    rw [Value.repeatText, hlength]
    simp only [hbytes]
    rfl
  have hlong (room : Nat) : Value.repeatText room "ab" (pow2 62) = .error .textTooLong := by
    have hlength : "ab".length = 2 := rfl
    rw [Value.repeatText, hlength]
    rfl
  have hraised {room : Nat} {s : String} {f : EvalFault} (h : Eval.arithmetic .mul
      (Value.multiply room) (.text s) (.number (.int (pow2 62))) e [] = .error f []) :
      e.eval (engine room (.text s)) [] = .error f [] := by
    have hraises : Raises (engine room (.text s)) e [] f [] :=
      .binary (by simp) (by simp) rfl rfl h
    exact hraises.eval_error
  refine ⟨by unfold IsIndex; decide, hknown,
    fun room => ⟨fun _ _ _ h => (by cases h), rfl, rfl, hraised ?_, hraised ?_⟩⟩
  · simp only [Eval.arithmetic, Value.multiply, Value.number?, hwide]
    rfl
  · simp only [Eval.arithmetic, Value.multiply, Value.number?, hlong]
    rfl

end Expr
end Gamebook
