import Mathlib.Algebra.Ring.Nat
import Gamebook.Number.Numeral
import Gamebook.Proofs.Spelling

/-!
What numerals stand for. A numeral has no sign, so its number is never below zero: for an
integer by its type, and for a decimal because the bits of the nearest double have no sign
and are at most those of infinity. The digits of an integer are read as that integer, unless they
are more than may be read.
-/
namespace Gamebook

/-- Not below zero in the order of numbers; a nan has no place in it. -/
def Number.Nonneg (n : Number) : Prop :=
  n.compare? (.int 0) = some .gt ∨ n.compare? (.int 0) = some .eq

instance (n : Number) : Decidable n.Nonneg :=
  inferInstanceAs (Decidable (_ ∨ _))

theorem Decoded.signedMantissa_natAbs (n : Int) :
    Decoded.signedMantissa (decide (n < 0)) n.natAbs = n := by
  unfold Decoded.signedMantissa
  by_cases h : n < 0
  · simp only [h, decide_true, if_true]
    omega
  · simp only [h, decide_false, Bool.false_eq_true, if_false]
    omega

theorem Number.compare?_int (a b : Int) :
    (Number.int a).compare? (.int b) = some (compare a b) := by
  simp [compare?, decoded, Decoded.compare?, Decoded.compareFinite,
    Decoded.signedMantissa_natAbs, pow2]

theorem Number.nonneg_int {n : Int} : (Number.int n).Nonneg ↔ 0 ≤ n := by
  rw [Nonneg, compare?_int, Option.some.injEq, Option.some.injEq, Int.compare_eq_gt,
    Int.compare_eq_eq]
  omega

namespace Decoded

/-- A number without a sign. -/
def Unsigned : Decoded → Prop
  | nan => False
  | infinite negative | finite negative _ _ => negative = false

theorem compare?_zero {d : Decoded} (h : d.Unsigned) :
    d.compare? (.finite false 0 0) = some .gt ∨ d.compare? (.finite false 0 0) = some .eq := by
  cases d with
  | nan => exact h.elim
  | infinite negative =>
    cases h
    exact .inl rfl
  | finite negative m e =>
    cases h
    have hm : ∀ p : Nat, compare ((m : Int) * p) 0 = .gt ∨ compare ((m : Int) * p) 0 = .eq := by
      intro p
      have hpos : 0 ≤ (m : Int) * p := Int.mul_nonneg (by omega) (by omega)
      rcases Int.lt_or_eq_of_le hpos with h | h
      · exact .inl (Int.compare_eq_gt.2 h)
      · exact .inr (Int.compare_eq_eq.2 h.symm)
    simpa [compare?, compareFinite, signedMantissa] using hm _

/-- Bits without a sign, up to those of infinity, are a number without a sign. -/
theorem unsigned_ofBits {e m : Nat} (he : e < pow2 11) (hm : m < pow2 52)
    (hn : e = 2047 → m = 0) : (ofBits (e * pow2 52 + m)).Unsigned := by
  have h52 : pow2 52 = 4503599627370496 := by decide
  have h11 : pow2 11 = 2048 := by decide
  have h63 : pow2 63 = 9223372036854775808 := by decide
  rw [h52] at hm
  rw [h11] at he
  have hfield : (e * 4503599627370496 + m) / 4503599627370496 % 2048 = e := by omega
  have hfraction : (e * 4503599627370496 + m) % 4503599627370496 = m := by omega
  have hsign : ¬ 9223372036854775808 ≤ e * 4503599627370496 + m := by omega
  simp only [ofBits, h52, h11, h63, hfield, hfraction, hsign]
  split
  · rename_i he
    simp [hn he, Unsigned]
  · split <;> simp [Unsigned]

end Decoded

namespace Nearest

open Float.Model Float.Model.UnpackedFloat

/-- A double without a sign that is a number. -/
def Positive : UnpackedFloat → Prop
  | .notANumber => False
  | .infinity s | .zero s | .finite s _ _ _ => s = .positive

theorem toNat_unpackExponent (b : BitVec 64) :
    (@unpackExponent .binary64 b).toNat = b.toNat / 2 ^ 52 % 2 ^ 11 := by
  simp [unpackExponent, BitVec.extractLsb_toNat, Nat.shiftRight_eq_div_pow]

theorem toNat_unpackMantissa (b : BitVec 64) :
    (@unpackMantissa .binary64 b).toNat = b.toNat % 2 ^ 52 := by
  simp [unpackMantissa, BitVec.extractLsb_toNat, Nat.shiftRight_eq_div_pow]

section UpToInfinity

-- Up to infinity the sign bit is clear, and a full exponent leaves no mantissa.
variable {b : BitVec 64} (h : b.toNat ≤ 0x7ff0000000000000)
include h

theorem unpackSign_eq_zero : @unpackSign .binary64 b = 0#1 := by
  apply BitVec.eq_of_toNat_eq
  unfold unpackSign
  simp [BitVec.extractLsb_toNat, Nat.shiftRight_eq_div_pow]
  omega

theorem unpackMantissa_eq_zero (hones : @unpackExponent .binary64 b = -1) :
    @unpackMantissa .binary64 b = 0#52 := by
  have he := toNat_unpackExponent b
  have hmax : (@unpackExponent .binary64 b).toNat = 2047 := by rw [hones]; rfl
  apply BitVec.eq_of_toNat_eq
  rw [toNat_unpackMantissa]
  simp
  omega

/-- What such bits stand for, by their exponent: at its ends infinity, zero or a mantissa without
a leading one, and else a mantissa with one. -/
theorem unpack_cases :
    let e := @unpackExponent .binary64 b
    let m := @unpackMantissa .binary64 b
    (e = -1 ∧ m = 0 ∧ UnpackedFloat.unpack .binary64 b = .infinity .positive) ∨
      (e = 0 ∧ m = 0 ∧ UnpackedFloat.unpack .binary64 b = .zero .positive) ∨
      (e = 0 ∧ ∃ hm, UnpackedFloat.unpack .binary64 b = .finite .positive m.toNat (-1074) hm) ∨
      (e ≠ -1 ∧ ∃ hm, UnpackedFloat.unpack .binary64 b =
        .finite .positive (1#1 ++ m).toNat ((e.toNat : Int) - 1075) hm) := by
  intro e m
  unfold UnpackedFloat.unpack
  rw [unpackSign_eq_zero h]
  by_cases hones : e = -1
  · have hzero : m = 0 := unpackMantissa_eq_zero h hones
    exact .inl ⟨hones, hzero, (if_pos hones).trans (if_pos hzero)⟩
  · by_cases hexp : e = 0
    · by_cases hzero : m = 0
      · exact .inr (.inl ⟨hexp, hzero, (if_neg hones).trans ((if_pos hexp).trans (dif_pos hzero))⟩)
      · refine .inr (.inr (.inl ⟨hexp, ?_, ?_⟩))
        · exact Nat.pos_of_ne_zero fun hm => hzero (BitVec.eq_of_toNat_eq hm)
        · refine (if_neg hones).trans ((if_pos hexp).trans ((dif_neg hzero).trans ?_))
          have hvalue : e.toNat = 0 := congrArg BitVec.toNat hexp
          change UnpackedFloat.finite .positive m.toNat ((e.toNat : Int) - 1075 + 1) _ = _
          rw [hvalue]
          rfl
    · refine .inr (.inr (.inr ⟨hones, ?_, (if_neg hones).trans ?_⟩))
      · rw [BitVec.toNat_append]
        exact Nat.lt_of_lt_of_le (by decide) Nat.left_le_or
      · exact if_neg hexp

theorem positive_unpack : Positive (UnpackedFloat.unpack .binary64 b) := by
  rcases unpack_cases h with ⟨-, -, hb⟩ | ⟨-, -, hb⟩ | ⟨-, _, hb⟩ | ⟨-, _, hb⟩ <;> rw [hb] <;> rfl

end UpToInfinity

theorem toNat_packComponents (e : BitVec 11) (m : BitVec 52) :
    (packComponents .binary64 .positive e m).toNat = e.toNat * pow2 52 + m.toNat := by
  simp only [packComponents, Sign.toBitVec]
  rw [BitVec.toNat_append, BitVec.toNat_append]
  simp
  rw [← Nat.shiftLeft_add_eq_or_of_lt (by simpa using m.isLt), Nat.shiftLeft_eq]
  rfl

/-- The bits of such a double: an exponent and a mantissa, with no sign before them. -/
theorem toNat_pack {f : UnpackedFloat} (h : Positive f) :
    ∃ e m : Nat, e < pow2 11 ∧ m < pow2 52 ∧ (e = 2047 → m = 0) ∧
      (UnpackedFloat.pack .binary64 f).toNat = e * pow2 52 + m := by
  obtain ⟨e, m, hn, hpack⟩ : ∃ (e : BitVec 11) (m : BitVec 52), (e = -1 → m = 0) ∧
      UnpackedFloat.pack .binary64 f = packComponents .binary64 .positive e m := by
    cases f with
    | notANumber => exact h.elim
    | infinity s => cases h; exact ⟨-1, 0, fun _ => rfl, rfl⟩
    | zero s => cases h; exact ⟨0, 0, fun _ => rfl, rfl⟩
    | finite s m e hm =>
      cases h
      unfold UnpackedFloat.pack
      dsimp only
      split
      · exact ⟨-1, 0, fun _ => rfl, rfl⟩
      · rename_i hbias
        split
        · refine ⟨_, _, fun he => ?_, rfl⟩
          have hones := congrArg BitVec.toNat he
          have hmax : (-1 : BitVec 11).toNat = 2047 := rfl
          rw [BitVec.toNat_ofNat, hmax, Nat.mod_eq_of_lt (by omega)] at hones
          omega
        · exact ⟨0, _, fun h => absurd h (by decide), rfl⟩
  refine ⟨e.toNat, m.toNat, e.isLt, m.isLt, fun he => ?_, ?_⟩
  · rw [hn (BitVec.eq_of_toNat_eq he)]
    rfl
  · rw [hpack, toNat_packComponents]

theorem bits_le (num den : Nat) : bits num den ≤ 0x7ff0000000000000 := by
  unfold bits
  split
  · omega
  · exact Nat.min_le_right _ _

theorem unsigned_ratio (num den : Nat) : (Decoded.ofFloat (ratio num den)).Unsigned := by
  have hle := bits_le num den
  have hb : (bits num den).toUInt64.toBitVec.toNat = bits num den := by
    change bits num den % 2 ^ 64 = _
    omega
  obtain ⟨e, m, he, hm, hn, hbits⟩ := toNat_pack (positive_unpack (hb ▸ hle))
  change (Decoded.ofBits (UnpackedFloat.pack .binary64 _).toNat).Unsigned
  rw [hbits]
  exact Decoded.unsigned_ofBits he hm hn

end Nearest

namespace Numeral

/-- Numerals have no sign. -/
theorem nonneg_of_number? {text : List Char} {n : Number} (h : number? text = .ok n) :
    n.Nonneg := by
  unfold number? at h
  split at h
  · cases h
    exact Decoded.compare?_zero (Nearest.unsigned_ratio ..)
  · cases hi : integer? text with
    | error digits => simp [hi, Except.map] at h
    | ok k =>
      rw [hi] at h
      cases h
      exact Number.nonneg_int.2 (Int.natCast_nonneg k)

/-- The decimal digits of a number. -/
def digitsOf (n : Nat) : List Char := Nat.toDigits 10 n

/-- The number has no more digits than may be read. -/
def Fits (n : Nat) : Prop := (digitsOf n).length ≤ digitLimit

instance (n : Nat) : Decidable (Fits n) :=
  inferInstanceAs (Decidable ((digitsOf n).length ≤ digitLimit))

theorem made_digitsOf (n : Nat) : Made Char.isDigit (digitsOf n) :=
  ⟨Nat.toDigits_ne_nil, fun _ hc => Nat.isDigit_of_mem_toDigits (by decide) (by decide) hc⟩

theorem length_digitsOf_pow10 (k : Nat) : (digitsOf (pow10 k)).length = k + 1 := by
  have hle : (digitsOf (pow10 k)).length ≤ k + 1 :=
    (Nat.length_toDigits_le_iff (by decide) (Nat.succ_pos k)).2 (Nat.pow_lt_pow_succ (by decide))
  refine Nat.le_antisymm hle (Nat.succ_le_of_lt (Nat.lt_of_not_le fun h => ?_))
  cases k with
  | zero => exact absurd h (by decide)
  | succ k => exact Nat.lt_irrefl _ ((Nat.length_toDigits_le_iff (by decide) (Nat.succ_pos k)).1 h)

theorem integer?_digitsOf {n : Nat} (h : Fits n) : integer? (digitsOf n) = .ok n := by
  have hv : digitsValue (digitsOf n) = n :=
    Nat.ofDigitChars_eq_foldl.symm.trans (Nat.ofDigitChars_toDigits (by decide) (by decide))
  have h : (digitsOf n).length ≤ digitLimit := h
  rw [integer?, if_pos h, hv]

theorem integer?_of_not_fits {n : Nat} (h : ¬ Fits n) :
    integer? (digitsOf n) = .error (digitsOf n).length :=
  if_neg h

/-- Digits without a point are an integer. -/
theorem number?_of_digits {t : List Char} (ht : Made Char.isDigit t) :
    number? t = (integer? t).map fun n => .int n := by
  have hpoint : ∀ c ∈ t, (c != '.') = true := by
    intro c hc
    have hdigit := ht.2 c hc
    have hne : c ≠ '.' := by
      rintro rfl
      exact absurd hdigit (by decide)
    simpa using hne
  have hd : t.dropWhile (· != '.') = [] := by
    simpa using Pattern.dropWhile_of_free (u := []) hpoint (by simp [Free])
  simp only [number?, hd]
  cases integer? t <;> rfl

theorem number?_digitsOf {n : Nat} (h : Fits n) : number? (digitsOf n) = .ok (.int n) := by
  rw [number?_of_digits (made_digitsOf n), integer?_digitsOf h]
  rfl

end Numeral
end Gamebook
