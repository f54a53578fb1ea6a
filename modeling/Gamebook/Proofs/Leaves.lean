import Gamebook.Proofs.Gathering
import Gamebook.Proofs.Placement

/-!
Where the leaves of a tree come from. The expression machine puts operands together without
touching their leaves: from left to right they are the operands in the order in which they were
read. So every number and every constant of a tree is spelled by a piece of the text.
-/
namespace Gamebook

open Grammar

namespace Expr

mutual

/-- The nodes that have no parts, from left to right. -/
def leaves : Expr → List Expr
  | property target _ => target.leaves
  | call _ args => leavesAll args
  | unary _ operand => operand.leaves
  | binary _ left right => left.leaves ++ right.leaves
  | e => [e]

def leavesAll : List Expr → List Expr
  | [] => []
  | e :: es => e.leaves ++ leavesAll es

end

theorem leavesAll_eq (es : List Expr) : leavesAll es = es.flatMap leaves := by
  induction es with
  | nil => rfl
  | cons e es ih => rw [leavesAll, ih, List.flatMap_cons]

/-- The text spells the number or the constant; every other leaf will do. -/
def SpelledBy (w : List Char) : Expr → Prop
  | number n | percent n => IsNumeral w ∧ Numeral.number? w = .ok n
  | constant name => name = Lexeme.lowered w ∧ name ∈ Lexeme.constantNames
  | blank => False
  | _ => True

/-- A piece of the text spells the leaf. -/
def Within (text : List Char) (e : Expr) : Prop := ∃ w, w <:+: text ∧ e.SpelledBy w

theorem Within.mono {text whole : List Char} {e : Expr} (h : e.Within text)
    (ht : text <:+: whole) : e.Within whole := by
  obtain ⟨w, hw, he⟩ := h
  exact ⟨w, hw.trans ht, he⟩

/-- A node that has no parts. -/
def isAtom : Expr → Bool
  | property .. | call .. | unary .. | binary .. => false
  | _ => true

theorem leaves_of_isAtom {e : Expr} (h : e.isAtom = true) : e.leaves = [e] := by
  cases e with
  | property | call | unary | binary => cases h
  | _ => rfl

theorem gathers_leaves : Gathers leaves fun _ _ => [] where
  property _ _ := rfl
  unary _ _ := rfl
  binary _ _ _ := rfl
  call name args := by rw [leaves, leavesAll_eq, List.append_nil]

end Expr

/-- What a lexeme comes to has no parts, and is spelled by a piece of the text that it begins. -/
theorem Found.ofLexeme_atom {c : Cursor} {s : List Char} {l : Lexeme} {t : Match} (here : Nat)
    (hl : Lexeme.next? true s = some (l, t)) :
    (ofLexeme here c l).Holds fun e => e.isAtom = true ∧ e.Within s := by
  obtain ⟨p, hp⟩ := Lexeme.next?_run hl
  have hmade := Lexeme.next?_madeOf hl
  have hwhole : t.text <:+: s := Pattern.run_split hp ▸ (List.prefix_append ..).isInfix
  have hpart : ∀ w ∈ t.groups, w <:+: s := fun w hw =>
    (Pattern.infix_of_shape (Pattern.run_shape hp) w hw).trans hwhole
  have hfree : ∀ {e : Expr}, e.SpelledBy [] → e.Within s := fun he => ⟨[], List.nil_infix, he⟩
  have hnumeral : ∀ {make : Number → Expr} {text : List Char}, (∀ n, (make n).isAtom = true) →
      (∀ n, Numeral.number? text = .ok n → (make n).Within s) →
      ∀ e, (Numeral.number? text).map make = .ok e → e.isAtom = true ∧ e.Within s := by
    intro make text hatom hwithin e he
    cases hn : Numeral.number? text with
    | error digits =>
      rw [hn] at he
      cases he
    | ok n =>
      rw [hn] at he
      cases he
      exact ⟨hatom n, hwithin n hn⟩
  cases l with
  | arithmetic op =>
    simp only [ofLexeme]
    split <;> trivial
  | range low high =>
    simp only [ofLexeme]
    cases Numeral.integer? low with
    | error => trivial
    | ok a =>
      cases Numeral.integer? high with
      | error => trivial
      | ok b => exact ⟨rfl, hfree trivial⟩
  | callOpen name =>
    simp only [ofLexeme]
    split
    · trivial
    · rfl
  | hasItem => exact subject_holds .hasItem (fun _ _ => ⟨rfl, hfree trivial⟩) _
  | atNode => exact subject_holds .atNode (fun _ _ => ⟨rfl, hfree trivial⟩) _
  | constant name => exact ⟨rfl, t.text, hwhole, hmade⟩
  | quote =>
    simp only [ofLexeme]
    split
    · exact ⟨rfl, hfree trivial⟩
    · trivial
  | percent text =>
    obtain ⟨hgroups, htext⟩ := hmade
    refine numeral_holds (hnumeral (fun _ => rfl) fun n hn => ⟨text, hpart text ?_, htext, hn⟩)
    simp [hgroups]
  | number text =>
    obtain ⟨rfl, htext⟩ := hmade
    exact numeral_holds (hnumeral (fun _ => rfl) fun n hn => ⟨t.text, hwhole, htext, hn⟩)
  | varName => exact word_holds .localVar (fun _ => ⟨rfl, hfree trivial⟩) true _
  | called | localName | globalName => exact ⟨rfl, hfree trivial⟩
  | _ => trivial

/-- Every number and every constant of a tree is spelled by a piece of the text that it was
read from. -/
theorem Read.expr_leaves {setting : Setting} {goal : Goal} {c d : Cursor} {e : Expr}
    (h : Read.expr setting goal c = .ok e d) : ∀ x ∈ e.leaves, x.Within c.rest := by
  refine Read.expr_gathers Expr.gathers_leaves (fun _ _ _ => List.forall_mem_nil _) ?_ h
  intro b hb l t hl
  refine (Found.ofLexeme_atom b.pos hl).mono fun e he => ?_
  rw [Expr.leaves_of_isAtom he.1]
  exact List.forall_mem_singleton.2 (he.2.mono hb)

end Gamebook
