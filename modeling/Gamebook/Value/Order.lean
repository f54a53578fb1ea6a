import Gamebook.Value.Basic

/-!
Equality and order of values. Equality always has an answer: values of different
kinds differ, truth values are numbers, and mappings agree when they answer every
key alike. Numbers, texts and lists are ordered; lists by the first place where
they differ. A nan equals nothing and is in no order with anything, yet a list or
a mapping that holds a kept nan does not differ from itself there.
-/
namespace Gamebook.Value

/-- Is it the very same nan? -/
def isSameNan : Value → Value → Bool
  | nan p, nan q => p == q
  | _, _ => false

/-- Are both the same number? -/
def sameNumber (v w : Value) : Bool :=
  match v.number?, w.number? with
  | some a, some b => a.same b
  | _, _ => false

mutual

def same : Value → Value → Bool
  | null, null => true
  | text a, text b => a == b
  | list a, list b => sameAll a b
  | map a, map b => a.length == b.length && sameEntries a b
  | object _ a, object _ b => a.length == b.length && sameEntries a b
  | v, w => sameNumber v w

def sameAll : List Value → List Value → Bool
  | [], [] => true
  | v :: vs, w :: ws => (isSameNan v w || same v w) && sameAll vs ws
  | _, _ => false

/-- Every entry of the first is one of the second. -/
def sameEntries : List (String × Value) → List (String × Value) → Bool
  | [], _ => true
  | (k, v) :: entries, others =>
    (match others.lookup k with
      | some w => isSameNan v w || same v w
      | none => false) && sameEntries entries others

end

/-- Equality of what lists and mappings hold. -/
def alike (v w : Value) : Bool := isSameNan v w || same v w

def orderNumbers? (v w : Value) : Option (Option Ordering) :=
  match v.number?, w.number? with
  | some a, some b => some (a.compare? b)
  | _, _ => none

mutual

/-- The order of two values, if their kinds have one; within it a nan has none. -/
def order? : Value → Value → Option (Option Ordering)
  | text a, text b => some (some (compare a b))
  | list a, list b => orderAll? a b
  | v, w => orderNumbers? v w

def orderAll? : List Value → List Value → Option (Option Ordering)
  | v :: vs, w :: ws => if alike v w then orderAll? vs ws else order? v w
  | [], [] => some (some .eq)
  | [], _ :: _ => some (some .lt)
  | _ :: _, [] => some (some .gt)

end

end Gamebook.Value
