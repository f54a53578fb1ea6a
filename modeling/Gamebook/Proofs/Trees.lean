import Gamebook.Expr.Machine
import Gamebook.Proofs.Numerals
import Gamebook.Proofs.Shapes

/-!
The trees of the language. A proper tree is made of the operators, words and numbers of the
language, and a property is only taken off what may have one. It is plain if its numbers are
integers of no more digits than may be read.
-/
namespace Gamebook

open Grammar

/-- A word that does not begin with a digit. -/
def IsName (name : String) : Prop :=
  Made isWordChar name.toList ∧ Free Char.isDigit name.toList

instance (name : String) : Decidable (IsName name) :=
  decidable_of_iff ((name.toList ≠ [] ∧ name.toList.all isWordChar = true) ∧
    name.toList.head?.all (!·.isDigit) = true) (by simp [IsName, Made, Free, Option.all_eq_true])

def IsWord (name : String) : Prop := Made isWordChar name.toList

instance (name : String) : Decidable (IsWord name) :=
  decidable_of_iff (name.toList ≠ [] ∧ name.toList.all isWordChar = true) (by simp [IsWord, Made])

theorem isWord_ofList {w : List Char} (h : Made isWordChar w) : IsWord (String.ofList w) := by
  rw [IsWord, String.toList_ofList]
  exact h

theorem isUpper_iff {c : Char} : c.isUpper = true ↔ 65 ≤ c.toNat ∧ c.toNat ≤ 90 := by
  unfold Char.isUpper
  simp [UInt32.le_iff_toNat_le]

theorem isLower_iff {c : Char} : c.isLower = true ↔ 97 ≤ c.toNat ∧ c.toNat ≤ 122 := by
  unfold Char.isLower
  simp [UInt32.le_iff_toNat_le]

theorem toNat_toLower (c : Char) :
    c.toLower.toNat = if c.isUpper then c.toNat + 32 else c.toNat := by
  unfold Char.isUpper Char.toLower
  simp only [decide_eq_true_eq]
  split
  · rename_i h
    have hz : c.val.toNat ≤ 90 := h.2
    have hshift : ('a'.val - 'A'.val).toNat = 32 := rfl
    simp only [Char.toNat, UInt32.toNat_add, hshift]
    omega
  · rfl

theorem toNat_toUpper (c : Char) :
    c.toUpper.toNat = if c.isLower then c.toNat - 32 else c.toNat := by
  unfold Char.isLower Char.toUpper
  simp only [Bool.and_eq_true, decide_eq_true_eq]
  split
  · rename_i h
    have ha : 97 ≤ c.val.toNat := h.1
    have hz : c.val.toNat ≤ 122 := h.2
    have hshift : ('A'.val - 'a'.val).toNat = 2 ^ 32 - 32 := rfl
    simp only [Char.toNat, UInt32.toNat_add, hshift]
    omega
  · rfl

theorem isUpper_toLower (c : Char) : c.toLower.isUpper = false := by
  rw [← Bool.not_eq_true, isUpper_iff, toNat_toLower]
  split
  · rename_i h
    have := isUpper_iff.1 h
    omega
  · rename_i h
    exact fun hc => h (isUpper_iff.2 hc)

theorem isLower_toUpper (c : Char) : c.toUpper.isLower = false := by
  rw [← Bool.not_eq_true, isLower_iff, toNat_toUpper]
  split
  · rename_i h
    have := isLower_iff.1 h
    omega
  · rename_i h
    exact fun hc => h (isLower_iff.2 hc)

/-- A letter that is small already is the small letter of its capital. -/
theorem toLower_toUpper {c : Char} (h : c.isUpper = false) : c.toUpper.toLower = c := by
  rw [← Char.toNat_inj, toNat_toLower]
  have hn := toNat_toUpper c
  by_cases hl : c.isLower = true
  · have := isLower_iff.1 hl
    rw [if_pos hl] at hn
    rw [if_pos (isUpper_iff.2 (by omega))]
    omega
  · rw [if_neg hl] at hn
    have hu : ¬ c.toUpper.isUpper = true := by
      rw [isUpper_iff, hn, ← isUpper_iff, h]
      decide
    rw [if_neg hu, hn]

theorem isWordChar_toLower {c : Char} (h : isWordChar c = true) : isWordChar c.toLower = true := by
  by_cases hu : c.isUpper = true
  · have hl : c.toLower.isLower = true := by
      have := isUpper_iff.1 hu
      rw [isLower_iff, toNat_toLower, if_pos hu]
      omega
    have ha : c.toLower.isAlpha = true := by
      unfold Char.isAlpha
      rw [hl, Bool.or_true]
    simp [isWordChar, Char.isAlphanum, ha]
  · have hc : c.toLower = c := by rw [← Char.toNat_inj, toNat_toLower, if_neg hu]
    rwa [hc]

theorem isWordChar_toUpper {c : Char} (h : isWordChar c = true) : isWordChar c.toUpper = true := by
  by_cases hl : c.isLower = true
  · have hu : c.toUpper.isUpper = true := by
      have := isLower_iff.1 hl
      rw [isUpper_iff, toNat_toUpper, if_pos hl]
      omega
    have ha : c.toUpper.isAlpha = true := by
      unfold Char.isAlpha
      rw [hu, Bool.true_or]
    simp [isWordChar, Char.isAlphanum, ha]
  · have hc : c.toUpper = c := by rw [← Char.toNat_inj, toNat_toUpper, if_neg hl]
    rwa [hc]

/-- The text in capital letters. -/
def capitals (name : String) : List Char := name.toList.map Char.toUpper

theorem isLower_of_mem_capitals {name : String} {c : Char} (h : c ∈ capitals name) :
    c.isLower = false := by
  obtain ⟨d, -, rfl⟩ := List.mem_map.1 h
  exact isLower_toUpper d

/-- The words that can name a call. -/
structure IsCallName (name : String) : Prop where
  word : IsWord name
  small : ∀ c ∈ name.toList, c.isUpper = false
  noOperator : name ∉ ["not", "and", "or"]

instance (name : String) : Decidable (IsCallName name) :=
  decidable_of_iff (IsWord name ∧ name.toList.all (!·.isUpper) = true ∧
    name ∉ ["not", "and", "or"]) ⟨fun h => ⟨h.1, by simpa using h.2.1, h.2.2⟩,
      fun h => ⟨h.word, by simpa using h.small, h.noOperator⟩⟩

namespace IsCallName

variable {name : String}

theorem lowered_capitals (h : IsCallName name) : Lexeme.lowered (capitals name) = name := by
  have hc : ∀ c ∈ name.toList, (Char.toLower ∘ Char.toUpper) c = c :=
    fun c hc => toLower_toUpper (h.small c hc)
  rw [Lexeme.lowered, capitals, List.map_map, List.map_congr_left hc, List.map_id',
    String.ofList_toList]

theorem made_capitals (h : IsCallName name) : Made isWordChar (capitals name) := by
  refine ⟨by simpa [capitals] using h.word.1, ?_⟩
  intro d hd
  obtain ⟨c, hc, rfl⟩ := List.mem_map.1 hd
  exact isWordChar_toUpper (h.word.2 c hc)

end IsCallName

namespace Expr

/-- Can a property be read off the expression? -/
def isChainable : Expr → Bool
  | localVar _ | globalVar _ | call .. | property .. => true
  | _ => false

mutual

/-- The trees that can be read. -/
def Proper : Expr → Prop
  | number n | percent n => n.Nonneg
  | range low high => 0 ≤ low ∧ 0 ≤ high
  | string _ => True
  | constant name => name ∈ Lexeme.constantNames
  | localVar name | globalVar name => IsWord name
  | hasItem name negated | atNode name negated => IsWord name ∧ (name = "no" → negated = true)
  | property target name => target.isChainable = true ∧ IsWord name ∧ Proper target
  | call name args => IsCallName name ∧ ProperAll args
  | unary op e => op ∈ [UnaryOp.minus, .not] ∧ Proper e
  | binary op l r => op ∈ BinaryOp.all ∧ Proper l ∧ Proper r
  | blank => False

def ProperAll : List Expr → Prop
  | [] => True
  | e :: es => Proper e ∧ ProperAll es

end

theorem properAll_iff {es : List Expr} : ProperAll es ↔ ∀ e ∈ es, e.Proper := by
  induction es with
  | nil => simp [ProperAll]
  | cons e es ih => simp [ProperAll, ih]

mutual

/-- All numbers of the tree are integers, of no more digits than may be read. -/
def Plain : Expr → Prop
  | number (.int n) | percent (.int n) => Numeral.Fits n.toNat
  | range low high => Numeral.Fits low.toNat ∧ Numeral.Fits high.toNat
  | number (.real _) | percent (.real _) => False
  | property target _ => Plain target
  | call _ args => PlainAll args
  | unary _ e => Plain e
  | binary _ l r => Plain l ∧ Plain r
  | string _ | constant _ | localVar _ | globalVar _ | hasItem .. | atNode .. | blank => True

def PlainAll : List Expr → Prop
  | [] => True
  | e :: es => Plain e ∧ PlainAll es

end

mutual

/-- The calls in a tree, each with the number of its arguments, and behind those in them. -/
def calls : Expr → List (String × Nat)
  | property target _ => target.calls
  | call name args => callsAll args ++ [(name, args.length)]
  | unary _ operand => operand.calls
  | binary _ left right => left.calls ++ right.calls
  | _ => []

def callsAll : List Expr → List (String × Nat)
  | [] => []
  | e :: es => e.calls ++ callsAll es

end

end Expr
end Gamebook
