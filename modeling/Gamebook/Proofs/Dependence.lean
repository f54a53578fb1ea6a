import Mathlib.Logic.Function.Basic
import Gamebook.Proofs.Failures

/-!
An evaluation depends on what its tree mentions, and on nothing else. Two states of a game that
agree on the variables and the functions that a tree names give it the same value or the same
fault, after the same calls and draws. Variables of the two kinds are kept apart: one never
answers for the other, even under the same name.
-/
namespace Gamebook

/-- What a game keeps under names, each of which may be missing. Variables may change with what
happens. -/
structure GameState where
  locals : String → History → Option Value
  globals : String → History → Option Value
  functions : String → Option Function

/-- What the game runs on: a source of random numbers, the attributes that values of each kind
have, and the memory. -/
structure Host where
  feature : Value → String → Value
  uniform : History → Float
  between : History → Int → Int → Int
  room : Nat

namespace GameState

/-- A state and what it runs on make an engine; a missing variable is null. -/
def engine (a : GameState) (host : Host) : Engine where
  locals name s := (a.locals name s).getD .null
  globals name s := (a.globals name s).getD .null
  functions := a.functions
  feature := host.feature
  uniform := host.uniform
  between := host.between
  room := host.room

/-- The variable is kept in both with the same value, where a missing one is null. -/
def SameValue (x y : Option Value) : Prop := x.getD .null = y.getD .null

/-- The states agree on all that the tree mentions. -/
structure AgreeOn (e : Expr) (a b : GameState) : Prop where
  locals : ∀ name, .localVar name ∈ e.nodes → ∀ s, SameValue (a.locals name s) (b.locals name s)
  globals : ∀ name, .globalVar name ∈ e.nodes → ∀ s, SameValue (a.globals name s) (b.globals name s)
  call : ∀ name args, .call name args ∈ e.nodes → a.functions name = b.functions name
  hasItem : ∀ item negated, .hasItem item negated ∈ e.nodes →
    a.functions "hasItem" = b.functions "hasItem"
  atNode : ∀ node negated, .atNode node negated ∈ e.nodes →
    a.functions "atNode" = b.functions "atNode"

namespace AgreeOn

variable {a b : GameState} {e x : Expr}

theorem of_subset (h : AgreeOn e a b) (hx : x.nodes ⊆ e.nodes) : AgreeOn x a b where
  locals name hy := h.locals name (hx hy)
  globals name hy := h.globals name (hx hy)
  call name args hy := h.call name args (hx hy)
  hasItem item negated hy := h.hasItem item negated (hx hy)
  atNode node negated hy := h.atNode node negated (hx hy)

end AgreeOn
end GameState

/-- A call depends on the function of its name. -/
theorem Eval.call_congr {a b : Engine} {name : String} (h : a.functions name = b.functions name)
    (args : List Value) (node : Expr) : Eval.call a name args node = Eval.call b name args node := by
  simp only [Eval.call, h]

namespace Expr

open GameState

mutual

theorem eval_congr {a b : GameState} (host : Host) : (e : Expr) → AgreeOn e a b →
    e.eval (a.engine host) = e.eval (b.engine host)
  | number _, _ | string _, _ | blank, _ | range .., _ | percent _, _ => rfl
  | constant _, _ => by rw [eval, eval]
  | localVar name, h => by
    rw [eval, eval]
    exact bind_congr fun s => congrArg pure (h.locals name (mem_nodes_self _) s)
  | globalVar name, h => by
    rw [eval, eval]
    exact bind_congr fun s => congrArg pure (h.globals name (mem_nodes_self _) s)
  | property target name, h => by
    rw [eval, eval, eval_congr host target (h.of_subset (nodes_property_subset target name))]
    rfl
  | call name args, h => by
    have hargs := evalAll_congr host args fun e he => h.of_subset (nodes_argument_subset he name)
    rw [eval, eval, hargs]
    exact bind_congr fun values => Eval.call_congr (h.call name args (mem_nodes_self _)) values _
  | hasItem item negated, h => by
    rw [eval, eval]
    exact Eval.call_congr (h.hasItem item negated (mem_nodes_self _)) _ _
  | atNode node negated, h => by
    rw [eval, eval]
    exact Eval.call_congr (h.atNode node negated (mem_nodes_self _)) _ _
  | unary op operand, h => by
    rw [eval, eval, eval_congr host operand (h.of_subset (nodes_operand_subset op operand))]
  | binary op left right, h => by
    have hleft := eval_congr host left (h.of_subset (nodes_left_subset op left right))
    have hright := eval_congr host right (h.of_subset (nodes_right_subset op left right))
    rw [eval_binary, eval_binary, hleft, hright]
    rfl

theorem evalAll_congr {a b : GameState} (host : Host) : (es : List Expr) →
    (∀ e ∈ es, AgreeOn e a b) →
    evalAll (a.engine host) es = evalAll (b.engine host) es
  | [], _ => by rw [evalAll, evalAll]
  | e :: es, h => by
    rw [evalAll, evalAll, eval_congr host e (h e (by simp)),
      evalAll_congr host es fun x hx => h x (by simp [hx])]

end

/-- An evaluation depends on what the tree mentions: states that agree on it give the same
result after the same effects. In particular a variable of one kind can be set to anything
unless the tree has a variable of that kind and name. -/
theorem eval_mentioned (e : Expr) (host : Host) (s : History) :
    (∀ a b, AgreeOn e a b → e.eval (a.engine host) s = e.eval (b.engine host) s) ∧
    (∀ (a : GameState) name value, .localVar name ∉ e.nodes →
      e.eval ({ a with locals := Function.update a.locals name value }.engine host) s =
        e.eval (a.engine host) s) ∧
    ∀ (a : GameState) name value, .globalVar name ∉ e.nodes →
      e.eval ({ a with globals := Function.update a.globals name value }.engine host) s =
        e.eval (a.engine host) s := by
  have hsame : ∀ {a b}, AgreeOn e a b → e.eval (a.engine host) s = e.eval (b.engine host) s :=
    fun h => congrFun (eval_congr host e h) s
  refine ⟨fun a b h => hsame h, fun a name value hname => hsame ?_,
    fun a name value hname => hsame ?_⟩
  · refine ⟨fun other hother s => ?_, fun _ _ _ => rfl, fun _ _ _ => rfl, fun _ _ _ => rfl,
      fun _ _ _ => rfl⟩
    have hne : other ≠ name := fun heq => hname (heq ▸ hother)
    exact congrArg (fun x => (x s).getD .null) (Function.update_of_ne hne value a.locals)
  · refine ⟨fun _ _ _ => rfl, fun other hother s => ?_, fun _ _ _ => rfl, fun _ _ _ => rfl,
      fun _ _ _ => rfl⟩
    have hne : other ≠ name := fun heq => hname (heq ▸ hother)
    exact congrArg (fun x => (x s).getD .null) (Function.update_of_ne hne value a.globals)

/-- A variable that is missing in one state and null in the other, one of the other kind under
the same name, and a function that only one state has. -/
theorem eval_mentioned_missing :
    let a : GameState := ⟨fun _ _ => none, fun _ _ => some (.int 3), fun _ => none⟩
    let b : GameState := ⟨fun name _ => if name = "x" then some .null else some (.int 1),
      fun name _ => if name = "x" then some (.int 3) else none, fun name =>
        if name = "f" then some fun _ _ => .ok .null else none⟩
    let e := binary .eq (property (localVar "x") "y") (call "g" [globalVar "x", range 1 6])
    AgreeOn e a b ∧ ∀ host : Host,
      e.eval (a.engine host) [] =
        .error (.failed (.unknownFunction "g") (call "g" [globalVar "x", range 1 6]))
          [.between 1 6] ∧
      e.eval (b.engine host) [] = e.eval (a.engine host) [] := by
  intro a b e
  have hagrees : AgreeOn e a b := by
    constructor <;> simp [e, nodes, nodesAll, SameValue, a, b]
  exact ⟨hagrees, fun host => ⟨rfl, ((eval_mentioned e host []).1 a b hagrees).symm⟩⟩

end Expr
end Gamebook
