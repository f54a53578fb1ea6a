import Gamebook.Expr.Basic
import Gamebook.Proofs.Doubles
import Gamebook.Value.Arithmetic

/-!
What is too large for the operations on values, stated without them: an integer of more digits
than are written, an integer beyond all doubles beside a double, a quotient beyond them, and a
repetition that is longer than can be counted or larger than the memory. An operation fails for
these reasons only.
-/
namespace Gamebook

namespace Value

mutual

/-- The integers that show when a value is written. -/
def integers : Value → List Int
  | number (.int n) => [n]
  | list items => integersAll items
  | map entries => integersEntries entries
  | _ => []

def integersAll : List Value → List Int
  | [] => []
  | v :: vs => v.integers ++ integersAll vs

def integersEntries : List (String × Value) → List Int
  | [] => []
  | (_, v) :: entries => v.integers ++ integersEntries entries

end

/-- A value that holds an integer of too many digits. -/
def IsLong (v : Value) : Prop := ∃ n ∈ v.integers, pow10 Numeral.digitLimit ≤ n.natAbs

mutual

theorem isWritable_iff : (v : Value) →
    (v.isWritable = true ↔ ∀ n ∈ v.integers, n.natAbs < pow10 Numeral.digitLimit)
  | number (.int n) => by simp [isWritable, Number.isWritable, integers]
  | number (.real x) => by simp [isWritable, Number.isWritable, integers]
  | list items => by
    rw [isWritable, integers]
    exact areWritable_iff items
  | map entries => by
    rw [isWritable, integers]
    exact entriesWritable_iff entries
  | null | bool _ | nan _ | text _ | object .. => by simp [isWritable, integers]

theorem areWritable_iff : (vs : List Value) →
    (areWritable vs = true ↔ ∀ n ∈ integersAll vs, n.natAbs < pow10 Numeral.digitLimit)
  | [] => by simp [areWritable, integersAll]
  | v :: vs => by
    rw [areWritable, integersAll, Bool.and_eq_true, List.forall_mem_append, isWritable_iff v,
      areWritable_iff vs]

theorem entriesWritable_iff : (entries : List (String × Value)) →
    (entriesWritable entries = true ↔
      ∀ n ∈ integersEntries entries, n.natAbs < pow10 Numeral.digitLimit)
  | [] => by simp [entriesWritable, integersEntries]
  | (_, v) :: entries => by
    rw [entriesWritable, integersEntries, Bool.and_eq_true, List.forall_mem_append,
      isWritable_iff v, entriesWritable_iff entries]

end

theorem isLong_iff (v : Value) : v.IsLong ↔ v.isWritable = false := by
  rw [← Bool.not_eq_true, isWritable_iff, IsLong]
  push Not
  rfl

end Value

namespace Number

/-- An integer beyond all doubles has to become one. -/
inductive Mismatched : Number → Number → Prop
  | left {n : Int} (x : Float) (h : Nearest.limit ≤ n.natAbs) : Mismatched (int n) (real x)
  | right {n : Int} (x : Float) (h : Nearest.limit ≤ n.natAbs) : Mismatched (real x) (int n)

theorem toDouble_error {n : Number} {e : ArithmeticError} (h : n.toDouble = .error e) :
    e = .integerTooLarge ∧ ∃ k, n = int k ∧ Nearest.limit ≤ k.natAbs := by
  cases n with
  | real x => cases h
  | int k =>
    rw [toDouble] at h
    split at h
    · cases h
    · cases h
      exact ⟨rfl, k, rfl, double?_eq_none.1 ‹_›⟩

/-- Numbers that are not both integers fail to become doubles only if one of them is one. -/
theorem doubles_error {a b : Number} {e : ArithmeticError} {f : Float → Float → Except _ Number}
    (hab : ¬ ∃ m n, a = int m ∧ b = int n)
    (h : (do let x ← a.toDouble; let y ← b.toDouble; f x y) = .error e) :
    e = .integerTooLarge ∧ Mismatched a b ∨ ∃ x y, f x y = .error e := by
  cases hx : a.toDouble with
  | error e' =>
    obtain ⟨rfl, m, rfl, hm⟩ := toDouble_error hx
    rw [hx] at h
    cases h
    cases b with
    | int n => exact absurd ⟨m, n, rfl, rfl⟩ hab
    | real y => exact .inl ⟨rfl, .left y hm⟩
  | ok x =>
    rw [hx] at h
    cases hy : b.toDouble with
    | error e' =>
      obtain ⟨rfl, n, rfl, hn⟩ := toDouble_error hy
      rw [hy] at h
      cases h
      cases a with
      | int m => exact absurd ⟨m, n, rfl, rfl⟩ hab
      | real x => exact .inl ⟨rfl, .right x hn⟩
    | ok y =>
      rw [hy] at h
      exact .inr ⟨x, y, h⟩

theorem combine_error {exact : Int → Int → Int} {rounded : Float → Float → Float} {a b : Number}
    {e : ArithmeticError} (h : combine exact rounded a b = .error e) :
    e = .integerTooLarge ∧ Mismatched a b := by
  have hab : ¬ ∃ m n, a = int m ∧ b = int n := by
    rintro ⟨m, n, rfl, rfl⟩
    cases h
  have hdoubles : (do
      let x ← a.toDouble
      let y ← b.toDouble
      return real (rounded x y)) = Except.error e := by
    cases a with
    | real => cases b <;> exact h
    | int m =>
      cases b with
      | int n => exact absurd ⟨m, n, rfl, rfl⟩ hab
      | real => exact h
  rcases doubles_error hab hdoubles with h | ⟨_, _, h⟩
  · exact h
  · cases h

/-- The quotient of integers is beyond all doubles. -/
inductive Oversized : Number → Number → Prop
  | mk {a b : Int} (hb : b ≠ 0) (h : Nearest.limit * b.natAbs ≤ a.natAbs) :
      Oversized (int a) (int b)

theorem quotient_error {a b : Int} {e : ArithmeticError} (h : quotient a b = .error e) :
    e = .divisionByZero ∨ e = .quotientTooLarge ∧ Oversized (int a) (int b) := by
  rw [quotient] at h
  split at h
  · cases h
    exact .inl rfl
  · rename_i hb
    split at h
    · cases h
    · rename_i hbits
      cases h
      have hlarge := (Nearest.bits_lt_iff (Int.natAbs_pos.2 hb) a.natAbs).not.1 hbits
      exact .inr ⟨rfl, .mk hb (Nat.not_lt.1 hlarge)⟩

theorem divide_error {a b : Number} {e : ArithmeticError} (h : divide a b = .error e) :
    e = .divisionByZero ∨ e = .integerTooLarge ∧ Mismatched a b ∨
      e = .quotientTooLarge ∧ Oversized a b := by
  by_cases hab : ∃ m n, a = int m ∧ b = int n
  · obtain ⟨m, n, rfl, rfl⟩ := hab
    exact (quotient_error h).imp_right .inr
  · have hdoubles : (do
        let x ← a.toDouble
        let y ← b.toDouble
        if (real y).isZero then .error .divisionByZero else return real (x / y)) =
          Except.error e := by
      cases a with
      | real => cases b <;> exact h
      | int m =>
        cases b with
        | int n => exact absurd ⟨m, n, rfl, rfl⟩ hab
        | real => exact h
    rcases doubles_error hab hdoubles with h | ⟨x, y, h⟩
    · exact .inr (.inl h)
    · split at h <;> cases h
      exact .inl rfl

end Number

/-- A number that can count what is in memory. -/
def IsIndex (n : Int) : Prop := -(pow2 63 : Int) ≤ n ∧ n < pow2 63

namespace Value

/-- One of two factors is repeated by the other. -/
inductive Repeats (whole : Value) (n : Int) : Value → Value → Prop
  | left {w : Value} (h : w.number? = some (.int n)) : Repeats whole n whole w
  | right {v : Value} (h : v.number? = some (.int n)) : Repeats whole n v whole

/-- A repetition that is refused: the count is no index, or a text becomes longer than one. -/
inductive Overlong : Value → Value → Prop
  | count {v w : Value} {whole : Value} {n : Int} (h : Repeats whole n v w) (hn : ¬ IsIndex n)
      (hwhole : (∃ s, whole = text s) ∨ ∃ items, whole = list items) : Overlong v w
  | text {v w : Value} {s : String} {n : Int} (h : Repeats (text s) n v w) (hn : IsIndex n)
      (hs : pow2 63 ≤ s.length * n.toNat) : Overlong v w

/-- So many bytes are more than there are addresses for, or more than there is room for. -/
def Exceeds (room bytes : Nat) : Prop := pow2 63 ≤ bytes ∨ room < bytes

/-- A repetition by an index that does not fit into memory. -/
inductive Overfull (room : Nat) : Value → Value → Prop
  | text {v w : Value} {s : String} {n : Int} (h : Repeats (text s) n v w) (hn : IsIndex n)
      (hs : Exceeds room (textBytes s (s.length * n.toNat))) : Overfull room v w
  | list {v w : Value} {items : List Value} {n : Int} (h : Repeats (list items) n v w)
      (hn : IsIndex n) (hs : Exceeds room (listBytes (items.length * n.toNat))) :
      Overfull room v w

theorem fits_eq_false {room bytes : Nat} (h : fits room bytes = false) : Exceeds room bytes := by
  simp only [fits, Bool.and_eq_false_iff, decide_eq_false_iff_not, Nat.not_le, Nat.not_lt] at h
  exact h

/-- Both are numbers, and as such related. -/
def AsNumbers (P : Number → Number → Prop) (v w : Value) : Prop :=
  ∃ a b, v.number? = some a ∧ w.number? = some b ∧ P a b

/-- What is made of a result fails only if there is none. -/
theorem error_of_map {x : Except ε α} {f : α → β} {e : ε} (h : x.map f = .error e) :
    x = .error e := by
  cases x with
  | ok a => cases h
  | error e' =>
    cases h
    rfl

theorem numeric_error {f : Number → Number → Except ArithmeticError Number} {v w : Value}
    {e : ArithmeticError} (h : numeric f v w = .error e) :
    e = .unsupported ∨ AsNumbers (fun a b => f a b = .error e) v w := by
  rw [numeric] at h
  split at h
  · rename_i a b hv hw
    exact .inr ⟨a, b, hv, hw, error_of_map h⟩
  · cases h
    exact .inl rfl

theorem repeatCount_error {length : Nat} {tooLong e : ArithmeticError} {holds : Nat → Bool}
    {n : Int} (h : repeatCount length tooLong holds n = .error e) :
    e = .countTooLarge ∧ ¬ IsIndex n ∨
      e = tooLong ∧ IsIndex n ∧ pow2 63 ≤ length * n.toNat ∨
      e = .outOfMemory ∧ IsIndex n ∧ holds (length * n.toNat) = false := by
  rw [repeatCount] at h
  split at h
  · rename_i hn
    cases h
    refine .inl ⟨rfl, fun hi => ?_⟩
    have := hi.1
    have := hi.2
    omega
  · rename_i hn
    have hi : IsIndex n := by
      constructor <;> omega
    split at h
    · cases h
    · split at h
      · rename_i hlong
        cases h
        exact .inr (.inl ⟨rfl, hi, hlong⟩)
      · split at h
        · cases h
        · rename_i hholds
          cases h
          exact .inr (.inr ⟨rfl, hi, Bool.eq_false_of_not_eq_true hholds⟩)

/-- What an operation can fail with, in memory of the size. -/
inductive Fails (room : Nat) (op : BinaryOp) (v w : Value) : ArithmeticError → Prop
  | unsupported : Fails room op v w .unsupported
  | divisionByZero (h : op = .div) : Fails room op v w .divisionByZero
  | mismatched (h : AsNumbers Number.Mismatched v w) : Fails room op v w .integerTooLarge
  | oversized (hop : op = .div) (h : AsNumbers Number.Oversized v w) :
      Fails room op v w .quotientTooLarge
  | count (hop : op = .mul) (h : Overlong v w) : Fails room op v w .countTooLarge
  | text (hop : op = .mul) (h : Overlong v w) : Fails room op v w .textTooLong
  | memory (hop : op = .mul) (h : Overfull room v w) : Fails room op v w .outOfMemory

variable {room : Nat}

theorem combine_fails {exact : Int → Int → Int} {rounded : Float → Float → Float} {v w : Value}
    {e : ArithmeticError} (op : BinaryOp)
    (h : numeric (Number.combine exact rounded) v w = .error e) : Fails room op v w e := by
  rcases numeric_error h with rfl | ⟨a, b, hv, hw, hab⟩
  · exact .unsupported
  · obtain ⟨rfl, hm⟩ := Number.combine_error hab
    exact .mismatched ⟨a, b, hv, hw, hm⟩

theorem add_fails {v w : Value} {e : ArithmeticError} (h : add v w = .error e) :
    Fails room .add v w e := by
  rw [add.eq_def] at h
  split at h
  · cases h
  · exact combine_fails .add h

theorem subtract_fails {v w : Value} {e : ArithmeticError} (h : subtract v w = .error e) :
    Fails room .sub v w e :=
  combine_fails .sub h

theorem divide_fails {v w : Value} {e : ArithmeticError} (h : divide v w = .error e) :
    Fails room .div v w e := by
  rcases numeric_error h with rfl | ⟨a, b, hv, hw, hab⟩
  · exact .unsupported
  · rcases Number.divide_error hab with rfl | ⟨rfl, hm⟩ | ⟨rfl, ho⟩
    · exact .divisionByZero rfl
    · exact .mismatched ⟨a, b, hv, hw, hm⟩
    · exact .oversized rfl ⟨a, b, hv, hw, ho⟩

theorem repeatText_fails {s : String} {n : Int} {v w : Value} {e : ArithmeticError}
    (hr : Repeats (.text s) n v w) (h : repeatText room s n = .error e) :
    Fails room .mul v w e := by
  have hc : repeatCount s.length .textTooLong
      (fun length => length == s.length || fits room (textBytes s length)) n = .error e :=
    error_of_map h
  rcases repeatCount_error hc with ⟨rfl, hn⟩ | ⟨rfl, hn, hs⟩ | ⟨rfl, hn, hs⟩
  · exact .count rfl (.count hr hn (.inl ⟨s, rfl⟩))
  · exact .text rfl (.text hr hn hs)
  · exact .memory rfl (.text hr hn (fits_eq_false (Bool.or_eq_false_iff.1 hs).2))

theorem repeatList_fails {items : List Value} {n : Int} {v w : Value} {e : ArithmeticError}
    (hr : Repeats (.list items) n v w) (h : repeatList room items n = .error e) :
    Fails room .mul v w e := by
  have hc : repeatCount items.length .outOfMemory (fun length => fits room (listBytes length)) n =
      .error e :=
    error_of_map h
  rcases repeatCount_error hc with ⟨rfl, hn⟩ | ⟨rfl, hn, hs⟩ | ⟨rfl, hn, hs⟩
  · exact .count rfl (.count hr hn (.inr ⟨items, rfl⟩))
  · -- as many items take even more bytes
    refine .memory rfl (.list hr hn (.inl ?_))
    rw [listBytes]
    omega
  · exact .memory rfl (.list hr hn (fits_eq_false hs))

theorem multiply_fails {v w : Value} {e : ArithmeticError} (h : multiply room v w = .error e) :
    Fails room .mul v w e := by
  rw [multiply.eq_def] at h
  split at h
  · exact repeatText_fails (.left ‹_›) h
  · exact repeatList_fails (.left ‹_›) h
  · exact repeatText_fails (.right ‹_›) h
  · exact repeatList_fails (.right ‹_›) h
  · exact combine_fails .mul h

end Value

end Gamebook
