import Gamebook.Expr.Basic
import Gamebook.Source.Grammar

/-!
Lexemes of an expression. They are tried in a fixed order, so that `1 to 6` is not
a number, `f(` not a name and `2%` not a number before a stray sign. A prefix
negation is only looked for where an operand is expected; elsewhere `!` can only
begin `!=`.
-/
namespace Gamebook

inductive Lexeme where
  | arithmetic (op : BinaryOp)
  | negation
  | comparison (op : BinaryOp)
  | logical (op : BinaryOp)
  | comma
  | range (low high : List Char)
  | callOpen (name : String)
  | parenOpen
  | hasItem
  | atNode
  | constant (name : String)
  | quote
  | percent (numeral : List Char)
  | number (numeral : List Char)
  | property (name : String)
  | varName
  | called
  | localName (name : String)
  | globalName (name : String)
  | blanks
  deriving DecidableEq, Repr

namespace Lexeme

structure Rule where
  pattern : Pattern
  make : Match → Lexeme

def lowered (text : List Char) : String := String.ofList (text.map Char.toLower)

def group (m : Match) (i : Nat) : List Char := m.groups.getD i []

def name (m : Match) : String := String.ofList (group m 0)

def comparisonOf (text : List Char) : BinaryOp :=
  if text = ['='] then .eq else .ofSymbol (String.ofList text)

def logicalOf (text : List Char) : BinaryOp :=
  if lowered text = "&&" ∨ lowered text = "and" then .and else .or

def rules (operandExpected : Bool) : List Rule :=
  ⟨Grammar.arithmetic, fun m => arithmetic (.ofSymbol (String.ofList m.text))⟩ ::
  (if operandExpected then [⟨Grammar.negation, fun _ => negation⟩] else []) ++
  [⟨Grammar.comparator, fun m => comparison (comparisonOf m.text)⟩,
    ⟨Grammar.logical, fun m => logical (logicalOf m.text)⟩,
    ⟨Grammar.comma, fun _ => comma⟩,
    ⟨Grammar.drawRange, fun m => range (group m 0) (group m 1)⟩,
    ⟨Grammar.callOpen, fun m => callOpen (lowered (group m 0))⟩,
    ⟨Grammar.parenOpen, fun _ => parenOpen⟩,
    ⟨Grammar.hasItem, fun _ => hasItem⟩,
    ⟨Grammar.atNode, fun _ => atNode⟩,
    ⟨Grammar.constant, fun m => constant (lowered m.text)⟩,
    ⟨Grammar.quote, fun _ => quote⟩,
    ⟨Grammar.percent, fun m => percent (group m 0)⟩,
    ⟨Grammar.numeral, fun m => number m.text⟩,
    ⟨Grammar.property, fun m => property (name m)⟩,
    ⟨Grammar.varName, fun _ => varName⟩,
    ⟨Grammar.keyword "called", fun _ => called⟩,
    ⟨Grammar.localName, fun m => localName (name m)⟩,
    ⟨Grammar.variableName, fun m => globalName (name m)⟩,
    ⟨Grammar.blanks, fun _ => blanks⟩]

def next? (operandExpected : Bool) (s : List Char) : Option (Lexeme × Match) :=
  (rules operandExpected).findSome? fun r => (r.pattern.run s).map fun m => (r.make m, m)

theorem rules_consume (operandExpected : Bool) :
    (rules operandExpected).all (·.pattern.consumes) = true := by
  cases operandExpected <;> decide

/-- The match of a lexeme is one of some pattern. -/
theorem next?_run {b : Bool} {s : List Char} {l : Lexeme} {m : Match}
    (h : next? b s = some (l, m)) : ∃ p : Pattern, p.run s = some m := by
  obtain ⟨r, -, h⟩ := List.exists_of_findSome?_eq_some h
  simp only [Option.map_eq_some_iff, Prod.mk.injEq] at h
  obtain ⟨m', hm, -, rfl⟩ := h
  exact ⟨r.pattern, hm⟩

theorem next?_length {b : Bool} {s : List Char} {l : Lexeme} {m : Match}
    (h : next? b s = some (l, m)) : m.rest.length < s.length := by
  obtain ⟨r, hr, h⟩ := List.exists_of_findSome?_eq_some h
  simp only [Option.map_eq_some_iff, Prod.mk.injEq] at h
  obtain ⟨m', hm, -, rfl⟩ := h
  exact Pattern.run_length_lt (List.all_eq_true.1 (rules_consume b) r hr) hm

end Lexeme
end Gamebook
