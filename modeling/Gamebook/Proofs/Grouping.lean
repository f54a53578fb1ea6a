import Mathlib.Data.List.Induction
import Gamebook.Expr.Infix

/-!
Groupings of a chain of operands and operators. A grouping has the operands at its
leaves, and an operand may itself be an operation, so the nodes that stand for the
operators of the chain are kept apart from those inside its operands. A grouping is
ordered if every operator takes what binds at least as tightly on its left, and what
binds more tightly on its right. Each chain has exactly one ordered grouping, and
it is the tree that collapsing finds.
-/
namespace Gamebook.Infix

inductive Grouping where
  | operand (e : Expr)
  | node (op : BinaryOp) (left right : Grouping)

namespace Grouping

def expr : Grouping → Expr
  | operand e => e
  | node op l r => .binary op l.expr r.expr

/-- The operands in their order. -/
def operands : Grouping → List Expr
  | operand e => [e]
  | node _ l r => l.operands ++ r.operands

/-- The operators in their order. -/
def operators : Grouping → List BinaryOp
  | operand _ => []
  | node op l r => l.operators ++ op :: r.operators

/-- The operator at the root has at least this precedence; an operand always has. -/
def Binds (p : Nat) : Grouping → Prop
  | operand _ => True
  | node op _ _ => p ≤ op.precedence

def Ordered : Grouping → Prop
  | operand _ => True
  | node op l r => l.Binds op.precedence ∧ r.Binds (op.precedence + 1) ∧ l.Ordered ∧ r.Ordered

theorem Binds.mono {p q : Nat} {g : Grouping} (h : g.Binds q) (hpq : p ≤ q) : g.Binds p := by
  cases g with
  | operand e => trivial
  | node op l r => exact Nat.le_trans hpq h

def last : Grouping → Expr
  | operand e => e
  | node _ _ r => r.last

/-- All operands but the last, each with the operator after it. -/
def links : Grouping → List (Expr × BinaryOp)
  | operand _ => []
  | node op l r => l.links ++ (l.last, op) :: r.links

theorem operands_eq (g : Grouping) : g.operands = g.links.map Prod.fst ++ [g.last] := by
  induction g with
  | operand e => rfl
  | node op l r ihl ihr => simp [operands, links, last, ihl, ihr]

theorem operators_eq (g : Grouping) : g.operators = g.links.map Prod.snd := by
  induction g with
  | operand e => rfl
  | node op l r ihl ihr => simp [operators, links, ihl, ihr]

/-- The operands waiting on the stack once the grouping is read but for its last one. -/
def spine (stack : Stack) : Grouping → Stack
  | operand _ => stack
  | node op l r => spine ((l.expr, op) :: stack) r

/-- Collapsing what waits for the last operand gives the whole grouping back. -/
theorem collapse_spine {g : Grouping} {p : Nat} (ho : g.Ordered) (hp : g.Binds p)
    (stack : Stack) : collapse p (g.spine stack) g.last = collapse p stack g.expr := by
  induction g generalizing stack with
  | operand e => rfl
  | node op l r _ ihr =>
    obtain ⟨-, hr, -, hro⟩ := ho
    have hpr : r.Binds p := hr.mono (Nat.le_succ_of_le hp)
    have hop : p ≤ op.precedence := hp
    simp only [spine, last, ihr hro hpr, collapse, hop, if_true, expr]

/-- The stack lets the grouping be read whole: what waits binds less tightly. -/
def Open (stack : Stack) (g : Grouping) : Prop :=
  ∀ x ∈ stack.head?, g.Binds (x.2.precedence + 1)

theorem collapse_of_open {stack : Stack} {op : BinaryOp} {l r : Grouping}
    (h : (node op l r).Open stack) (e : Expr) :
    collapse op.precedence stack e = (stack, e) := by
  cases stack with
  | nil => rfl
  | cons x stack =>
    have hx : x.2.precedence + 1 ≤ op.precedence := h x (by simp)
    have hn : ¬ op.precedence ≤ x.2.precedence := by omega
    obtain ⟨left, op'⟩ := x
    simp only [collapse]
    rw [if_neg hn]

/-- Reading the links of an ordered grouping leaves its spine on the stack. -/
theorem build_links {g : Grouping} (ho : g.Ordered) {stack : Stack} (hs : g.Open stack)
    (chain : List (Expr × BinaryOp)) (last : Expr) :
    build stack (g.links ++ chain) last = build (g.spine stack) chain last := by
  induction g generalizing stack chain with
  | operand e => rfl
  | node op l r ihl ihr =>
    obtain ⟨hl, hr, hlo, hro⟩ := ho
    have hls : l.Open stack := fun x hx => hl.mono (hs x hx)
    have hrs : r.Open ((l.expr, op) :: stack) := by
      intro x hx
      simp only [List.head?_cons, Option.mem_some_iff] at hx
      exact hx ▸ hr
    simp only [links, List.append_assoc, List.cons_append]
    rw [ihl hlo hls, build, collapse_spine hlo hl, collapse_of_open hs]
    exact ihr hro hrs chain

/-- Collapsing gives an ordered grouping back. -/
theorem tree_links {g : Grouping} (h : g.Ordered) : tree g.links g.last = g.expr := by
  have hb : g.Binds 0 := by cases g <;> simp [Binds]
  have hs : g.Open [] := by simp [Open]
  have hr := build_links h hs [] g.last
  rw [List.append_nil] at hr
  rw [tree, hr, build, collapse_spine h hb, collapse]

/-- Put one more operator and operand behind a grouping. -/
def attach : Grouping → BinaryOp → Expr → Grouping
  | operand e, op, last => node op (operand e) (operand last)
  | node top l r, op, last =>
    if top.precedence < op.precedence then node top l (r.attach op last)
    else node op (node top l r) (operand last)

theorem links_attach (g : Grouping) (op : BinaryOp) (e : Expr) :
    (g.attach op e).links = g.links ++ [(g.last, op)] := by
  induction g with
  | operand d => rfl
  | node top l r _ ihr =>
    unfold attach
    split <;> simp [links, last, ihr]

theorem last_attach (g : Grouping) (op : BinaryOp) (e : Expr) :
    (g.attach op e).last = e := by
  induction g with
  | operand d => rfl
  | node top l r _ ihr =>
    unfold attach
    split
    · exact ihr
    · rfl

theorem binds_attach {g : Grouping} {op : BinaryOp} {p : Nat} (hg : g.Binds p)
    (hp : p ≤ op.precedence) (e : Expr) : (g.attach op e).Binds p := by
  cases g with
  | operand d => exact hp
  | node top l r =>
    unfold attach
    split
    · exact hg
    · exact hp

theorem ordered_attach {g : Grouping} (h : g.Ordered) (op : BinaryOp) (e : Expr) :
    (g.attach op e).Ordered := by
  induction g with
  | operand d => exact ⟨trivial, trivial, trivial, trivial⟩
  | node top l r _ ihr =>
    unfold attach
    split
    · rename_i hlt
      obtain ⟨hl, hr, hlo, hro⟩ := h
      exact ⟨hl, binds_attach hr hlt e, hlo, ihr hro⟩
    · rename_i hge
      exact ⟨Nat.le_of_not_lt hge, trivial, h, trivial⟩

/-- Every chain has an ordered grouping. -/
theorem exists_ordered (chain : List (Expr × BinaryOp)) (last : Expr) :
    ∃ g : Grouping, g.Ordered ∧ g.links = chain ∧ g.last = last := by
  -- the chain is read from its end, so that the operator last attached is the last one
  induction chain using List.reverseRecOn generalizing last with
  | nil => exact ⟨operand last, trivial, rfl, rfl⟩
  | append_singleton chain link ih =>
    obtain ⟨e, op⟩ := link
    obtain ⟨g, ho, hc, hl⟩ := ih e
    refine ⟨g.attach op last, ordered_attach ho op last, ?_, last_attach g op last⟩
    rw [links_attach, hc, hl]

end Grouping

/-- The expression groups the operands by the operators between them as their
precedences say. -/
def Groups (operands : List Expr) (operators : List BinaryOp) (e : Expr) : Prop :=
  ∃ g : Grouping, g.expr = e ∧ g.operands = operands ∧ g.operators = operators ∧ g.Ordered

/-- A chain is determined by its operands and its operators. -/
theorem links_unique {c d : List (Expr × BinaryOp)} {a b : Expr}
    (h : c.map Prod.fst ++ [a] = d.map Prod.fst ++ [b])
    (h' : c.map Prod.snd = d.map Prod.snd) : c = d ∧ a = b := by
  obtain ⟨hf, hl⟩ := List.append_inj' h rfl
  refine ⟨?_, by simpa using hl⟩
  induction c generalizing d with
  | nil => simpa using h'
  | cons x c ih =>
    cases d with
    | nil => simp at hf
    | cons y d =>
      simp only [List.map_cons, List.cons.injEq] at hf h'
      have hxy : x = y := Prod.ext hf.1 h'.1
      rw [hxy, ih (by rw [hf.2, hl]) h'.2 hf.2]

/-- The tree of a chain groups it as precedence says, and no other tree does. -/
theorem groups_iff (chain : List (Expr × BinaryOp)) (last e : Expr) :
    Groups (chain.map Prod.fst ++ [last]) (chain.map Prod.snd) e ↔ e = tree chain last := by
  constructor
  · rintro ⟨g, rfl, ho, hs, hg⟩
    rw [Grouping.operands_eq] at ho
    rw [Grouping.operators_eq] at hs
    obtain ⟨hc, hl⟩ := links_unique ho hs
    rw [← hc, ← hl, Grouping.tree_links hg]
  · rintro rfl
    obtain ⟨g, hg, rfl, rfl⟩ := Grouping.exists_ordered chain last
    exact ⟨g, (Grouping.tree_links hg).symm, g.operands_eq, g.operators_eq, hg⟩

end Gamebook.Infix
