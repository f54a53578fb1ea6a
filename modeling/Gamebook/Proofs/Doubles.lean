import Mathlib.Tactic.Ring
import Gamebook.Proofs.Numerals

/-!
How far doubles reach. The nearest double of a ratio is finite exactly when the ratio is below
`2 ^ 1024 - 2 ^ 970`, which lies half a unit of the last place above the greatest finite
double: there a tie goes to the even neighbour, and that one is no double any more.
-/
namespace Gamebook

theorem pow2_add (m n : Nat) : pow2 (m + n) = pow2 m * pow2 n := Nat.pow_add 2 m n

theorem pow2_one : pow2 1 = 2 := rfl

theorem pow2_succ (n : Nat) : pow2 (n + 1) = pow2 n * 2 := Nat.pow_succ 2 n

theorem pow2_pos (n : Nat) : 0 < pow2 n := Nat.two_pow_pos n

namespace Nearest

/-- The bits of infinity. -/
def infinityBits : Nat := 0x7ff0000000000000

/-- The least size that is beyond all doubles. -/
def limit : Nat := pow2 1024 - pow2 970

theorem limit_eq : limit = (2 * pow2 53 - 1) * pow2 970 := by
  have h : pow2 1024 = 2 * pow2 53 * pow2 970 := by
    rw [show (1024 : Nat) = 1 + 53 + 970 from rfl, pow2_add, pow2_add, pow2_one]
  rw [limit, h, Nat.sub_mul, Nat.one_mul]

variable {num den : Nat}

theorem roundDiv_bounds (num den : Nat) :
    num / den ≤ roundDiv num den ∧ roundDiv num den ≤ num / den + 1 := by
  unfold roundDiv
  simp only
  split <;> omega

/-- An even number is not reached below the half before it. -/
theorem roundDiv_lt_iff (hden : 0 < den) {k : Nat} (hk : k % 2 = 0) (hpos : 0 < k) :
    roundDiv num den < k ↔ 2 * num < (2 * k - 1) * den := by
  have hnum : num = num / den * den + num % den := by
    rw [Nat.mul_comm]
    exact (Nat.div_add_mod num den).symm
  have hmod : num % den < den := Nat.mod_lt num hden
  have hround := roundDiv_bounds num den
  have hedge : (2 * k - 1) * den + den = 2 * (k * den) := by
    rw [← Nat.succ_mul, ← Nat.mul_assoc]
    congr 1
    omega
  rcases Nat.lt_trichotomy (num / den + 1) k with hlt | heq | hgt
  · have hmul : (num / den + 2) * den ≤ k * den := Nat.mul_le_mul_right den (by omega)
    rw [Nat.add_mul] at hmul
    constructor <;> intro <;> omega
  · -- the quotient is odd, so a tie goes up to the even number
    have hmul : k * den = num / den * den + den := by rw [← heq, Nat.succ_mul]
    unfold roundDiv
    simp only
    split <;> constructor <;> intro <;> omega
  · have hmul : k * den ≤ num / den * den := Nat.mul_le_mul_right den (by omega)
    constructor <;> intro <;> omega

/-- The logarithms of a ratio of at least `2 ^ 52` are that far apart, so the quotient has 53
bits at the exponent or at the one below it. -/
theorem exponent_of_large {n : Nat} (h : num.log2 = den.log2 + 52 + n) :
    exponent num den = if num < den * pow2 (52 + n) then (n : Int) - 1 else n := by
  have he : (num.log2 : Int) - den.log2 - 52 = n := by omega
  unfold exponent
  simp only [he, Int.natCast_nonneg, if_true, Int.toNat_natCast]
  split <;> omega

theorem exponent_of_small {k : Nat} (hk : 0 < k) (h : num.log2 + k = den.log2 + 52) :
    exponent num den =
      max (-1074) (if num * pow2 k < den * pow2 52 then -(k : Int) - 1 else -(k : Int)) := by
  have he : (num.log2 : Int) - den.log2 - 52 = -(k : Int) := by omega
  have hneg : ¬ (0 : Int) ≤ -(k : Int) := by omega
  have hnat : (- -(k : Int)).toNat = k := by omega
  unfold exponent
  simp only [he, hneg, hnat, if_false]

theorem pow2_log2_le {n : Nat} (h : n ≠ 0) : pow2 n.log2 ≤ n := Nat.log2_self_le h

theorem lt_pow2_log2 (n : Nat) : n < pow2 n.log2 * 2 := by
  rw [← pow2_succ]
  exact Nat.lt_log2_self

theorem pow2_53 : pow2 53 = 2 * pow2 52 := by decide

/-- A ratio that has no negative exponent has a quotient of 53 bits there. -/
theorem exponent_spec (hnum : num ≠ 0) (hden : den ≠ 0) {n : Nat}
    (h : exponent num den = n) :
    den * (pow2 52 * pow2 n) ≤ num ∧ num < den * (pow2 53 * pow2 n) := by
  have hn := lt_pow2_log2 num
  have hn' := pow2_log2_le hnum
  have hd := lt_pow2_log2 den
  have hd' := pow2_log2_le hden
  by_cases hl : den.log2 + 52 ≤ num.log2
  · obtain ⟨k, hk⟩ := Nat.exists_eq_add_of_le hl
    rw [exponent_of_large hk, pow2_add] at h
    rw [hk, pow2_add, pow2_add] at hn hn'
    rw [pow2_53]
    split at h
    · rename_i hfits
      obtain rfl : k = n + 1 := by omega
      rw [pow2_succ] at hfits hn'
      constructor
      · -- the ratio is at least the ratio of the two powers below it
        calc den * (pow2 52 * pow2 n)
            ≤ pow2 den.log2 * 2 * (pow2 52 * pow2 n) := Nat.mul_le_mul_right _ hd.le
          _ = pow2 den.log2 * pow2 52 * (pow2 n * 2) := by ring
          _ ≤ num := hn'
      · calc num < den * (pow2 52 * (pow2 n * 2)) := hfits
          _ = den * (2 * pow2 52 * pow2 n) := by ring
    · rename_i hfits
      obtain rfl : k = n := by omega
      refine ⟨Nat.not_lt.1 hfits, ?_⟩
      calc num < pow2 den.log2 * pow2 52 * pow2 k * 2 := hn
        _ = pow2 den.log2 * (2 * pow2 52 * pow2 k) := by ring
        _ ≤ den * (2 * pow2 52 * pow2 k) := Nat.mul_le_mul_right _ hd'
  · obtain ⟨k, hk⟩ := Nat.exists_eq_add_of_lt (Nat.not_le.1 hl)
    rw [exponent_of_small (Nat.succ_pos k) (by omega)] at h
    split at h <;> omega

/-- A ratio with a negative exponent has a quotient of at most 53 bits there. -/
theorem exponent_spec_neg (hden : den ≠ 0) {n : Nat} (hpos : 0 < n)
    (h : exponent num den = -(n : Int)) : num * pow2 n < den * pow2 53 := by
  have hn := lt_pow2_log2 num
  have hd := pow2_log2_le hden
  rw [pow2_53]
  by_cases hl : den.log2 + 52 ≤ num.log2
  · obtain ⟨k, hk⟩ := Nat.exists_eq_add_of_le hl
    rw [exponent_of_large hk] at h
    split at h
    · rename_i hfits
      obtain ⟨rfl, rfl⟩ : k = 0 ∧ n = 1 := by omega
      rw [Nat.add_zero] at hfits
      rw [pow2_one, Nat.mul_comm, Nat.mul_left_comm]
      exact Nat.mul_lt_mul_of_pos_left hfits Nat.two_pos
    · omega
  · obtain ⟨k, hk⟩ := Nat.exists_eq_add_of_lt (Nat.not_le.1 hl)
    rw [exponent_of_small (k := k + 1) (Nat.succ_pos k) (by omega)] at h
    -- the least exponent is not below the one at which the quotient would have 53 bits
    have hmono : ∀ {i j : Nat}, i ≤ j → num * pow2 i ≤ num * pow2 j := fun hij =>
      Nat.mul_le_mul_left num (Nat.pow_le_pow_right Nat.two_pos hij)
    split at h
    · rename_i hfits
      calc num * pow2 n ≤ num * pow2 (k + 1 + 1) := hmono (by omega)
        _ = 2 * (num * pow2 (k + 1)) := by rw [pow2_succ (k + 1)]; ring
        _ < 2 * (den * pow2 52) := Nat.mul_lt_mul_of_pos_left hfits Nat.two_pos
        _ = den * (2 * pow2 52) := by ring
    · have hsum : num.log2 + (k + 1) = den.log2 + 52 := by omega
      calc num * pow2 n ≤ num * pow2 (k + 1) := hmono (by omega)
        _ < pow2 num.log2 * 2 * pow2 (k + 1) := Nat.mul_lt_mul_of_pos_right hn (pow2_pos _)
        _ = 2 * (pow2 num.log2 * pow2 (k + 1)) := by ring
        _ = 2 * (pow2 den.log2 * pow2 52) := by rw [← pow2_add, hsum, pow2_add]
        _ ≤ 2 * (den * pow2 52) := by gcongr
        _ = den * (2 * pow2 52) := by ring

theorem bits_of_exponent (hnum : num ≠ 0) {n : Nat} (h : exponent num den = n) :
    bits num den =
      min ((n + 1074) * pow2 52 + roundDiv num (den * pow2 n)) infinityBits := by
  have he : ((n : Int) + 1074).toNat = n + 1074 := by omega
  unfold bits
  rw [if_neg hnum]
  simp only [h, he, Int.natCast_nonneg, if_true, Int.toNat_natCast]
  rfl

theorem bits_of_exponent_neg (hnum : num ≠ 0) {n : Nat} (hpos : 0 < n)
    (h : exponent num den = -(n : Int)) :
    bits num den =
      min ((1074 - n) * pow2 52 + roundDiv (num * pow2 n) den) infinityBits := by
  have he : (-(n : Int) + 1074).toNat = 1074 - n := by omega
  have hneg : ¬ (0 : Int) ≤ -(n : Int) := by omega
  have hnat : (- -(n : Int)).toNat = n := by omega
  unfold bits
  rw [if_neg hnum]
  simp only [h, he, hneg, hnat, if_false]
  rfl

theorem pow2_le_pow2 {m n : Nat} (h : m ≤ n) : pow2 m ≤ pow2 n :=
  Nat.pow_le_pow_right Nat.two_pos h

theorem le_limit : pow2 53 * pow2 970 ≤ limit := by
  rw [limit_eq]
  exact Nat.mul_le_mul_right _ (by decide)

theorem limit_le : limit ≤ pow2 52 * pow2 972 := by
  rw [limit, show (1024 : Nat) = 52 + 972 from rfl, pow2_add]
  exact Nat.sub_le _ _

/-- At the last exponent the quotient may not be rounded up to one bit more. -/
theorem roundDiv_lt_limit (hden : 0 < den) (num : Nat) :
    roundDiv num (den * pow2 971) < pow2 53 ↔ num < limit * den := by
  have hpow : pow2 971 = 2 * pow2 970 := by rw [Nat.mul_comm]; exact pow2_succ 970
  rw [roundDiv_lt_iff (Nat.mul_pos hden (pow2_pos _)) (by decide) (by decide), limit_eq, hpow]
  have heq : (2 * pow2 53 - 1) * (den * (2 * pow2 970)) =
      2 * ((2 * pow2 53 - 1) * pow2 970 * den) := by ring
  omega

theorem infinityBits_eq : infinityBits = 2047 * pow2 52 := by decide

theorem bits_lt_iff_of_exponent (hnum : num ≠ 0) (hden : 0 < den) {n : Nat}
    (hn : exponent num den = n) : bits num den < infinityBits ↔ num < limit * den := by
  have h52 : 0 < pow2 52 := pow2_pos 52
  obtain ⟨hlow, hhigh⟩ := exponent_spec hnum hden.ne' hn
  have hbounds := roundDiv_bounds num (den * pow2 n)
  have hdpos : 0 < den * pow2 n := Nat.mul_pos hden (pow2_pos n)
  have hq : pow2 52 ≤ num / (den * pow2 n) := by
    rw [Nat.le_div_iff_mul_le hdpos, Nat.mul_left_comm]
    exact hlow
  have hq' : num / (den * pow2 n) < pow2 53 := by
    rw [Nat.div_lt_iff_lt_mul hdpos, Nat.mul_left_comm]
    exact hhigh
  rw [pow2_53] at hq'
  rw [bits_of_exponent hnum hn, min_lt_iff, infinityBits_eq, or_iff_left (lt_irrefl _)]
  rcases Nat.lt_trichotomy n 971 with hlt | rfl | hgt
  · have hbelow : num < limit * den := by
      calc num < den * (pow2 53 * pow2 n) := hhigh
        _ ≤ den * (pow2 53 * pow2 970) := by gcongr; exact pow2_le_pow2 (by omega)
        _ ≤ den * limit := by gcongr; exact le_limit
        _ = limit * den := Nat.mul_comm _ _
    have hexp : (n + 1074) * pow2 52 ≤ 2044 * pow2 52 := Nat.mul_le_mul_right _ (by omega)
    exact iff_of_true (by omega) hbelow
  · rw [← roundDiv_lt_limit hden, pow2_53]
    omega
  · have habove : limit * den ≤ num := by
      calc limit * den = den * limit := Nat.mul_comm _ _
        _ ≤ den * (pow2 52 * pow2 972) := by gcongr; exact limit_le
        _ ≤ den * (pow2 52 * pow2 n) := by gcongr; exact pow2_le_pow2 hgt
        _ ≤ num := hlow
    have hexp : 2046 * pow2 52 ≤ (n + 1074) * pow2 52 := Nat.mul_le_mul_right _ (by omega)
    exact iff_of_false (by omega) (Nat.not_lt.2 habove)

theorem bits_lt_iff_of_exponent_neg (hnum : num ≠ 0) (hden : 0 < den) {n : Nat} (hpos : 0 < n)
    (hn : exponent num den = -(n : Int)) : bits num den < infinityBits ↔ num < limit * den := by
  have h52 : 0 < pow2 52 := pow2_pos 52
  have hhigh := exponent_spec_neg hden.ne' hpos hn
  have hbounds := roundDiv_bounds (num * pow2 n) den
  have hq : num * pow2 n / den < pow2 53 := by
    rw [Nat.div_lt_iff_lt_mul hden, Nat.mul_comm (pow2 53)]
    exact hhigh
  rw [pow2_53] at hq
  have hbelow : num < limit * den := by
    calc num ≤ num * pow2 n := Nat.le_mul_of_pos_right num (pow2_pos n)
      _ < den * pow2 53 := hhigh
      _ ≤ den * (pow2 53 * pow2 970) := by gcongr; exact Nat.le_mul_of_pos_right _ (pow2_pos _)
      _ ≤ den * limit := by gcongr; exact le_limit
      _ = limit * den := Nat.mul_comm _ _
  have hexp : (1074 - n) * pow2 52 ≤ 1074 * pow2 52 := Nat.mul_le_mul_right _ (by omega)
  rw [bits_of_exponent_neg hnum hpos hn, min_lt_iff, infinityBits_eq, or_iff_left (lt_irrefl _)]
  exact iff_of_true (by omega) hbelow

/-- The nearest double of a ratio is finite exactly below the limit. -/
theorem bits_lt_iff (hden : 0 < den) (num : Nat) :
    bits num den < infinityBits ↔ num < limit * den := by
  by_cases hnum : num = 0
  · have hlimit : 0 < limit := Nat.lt_of_lt_of_le (Nat.mul_pos (pow2_pos _) (pow2_pos _)) le_limit
    have hzero : bits 0 den = 0 := rfl
    rw [hnum, hzero]
    exact iff_of_true (by decide) (Nat.mul_pos hlimit hden)
  by_cases hsign : 0 ≤ exponent num den
  · obtain ⟨n, hn⟩ := Int.eq_ofNat_of_zero_le hsign
    exact bits_lt_iff_of_exponent hnum hden hn
  · obtain ⟨n, hn⟩ := Int.eq_ofNat_of_zero_le (show 0 ≤ -exponent num den by omega)
    exact bits_lt_iff_of_exponent_neg hnum hden (n := n) (by omega) (by omega)

open Float.Model Float.Model.UnpackedFloat

theorem pack_finite {m : Nat} {e : Int} (hm : 0 < m) (he : (e + 1075).toNat < 2047) :
    UnpackedFloat.pack .binary64 (.finite .positive m e hm) =
      packComponents .binary64 .positive
        (if m.log2 = 52 then BitVec.ofNat 11 (e + 1075).toNat else 0#11) (BitVec.ofNat 52 m) := by
  have hbias : e + (Format.binary64.exponentBias : Int) +
      (Format.binary64.mantissaBitsWithoutImplicit : Int) = e + 1075 :=
    Int.add_assoc e 1023 52
  have hbits : m.log2 + 1 = Format.binary64.mantissaBits ↔ m.log2 = 52 :=
    Nat.add_right_cancel_iff (n := 1) (k := 52)
  unfold UnpackedFloat.pack
  simp only [hbias, hbits]
  rw [if_neg (by change ¬ 2048 ≤ _; omega)]
  split <;> rfl

theorem pack_subnormal {m : BitVec 52} (h : 0 < m.toNat) :
    UnpackedFloat.pack .binary64 (.finite .positive m.toNat (-1074) h) =
      packComponents .binary64 .positive 0 m := by
  have hlog : m.toNat.log2 < 52 := (Nat.log2_lt h.ne').2 m.isLt
  rw [pack_finite h (by decide), if_neg hlog.ne, BitVec.ofNat_toNat, BitVec.setWidth_eq]
  rfl

theorem pack_normal {e : BitVec 11} (he : e ≠ -1) (m : BitVec 52) (h : 0 < (1#1 ++ m).toNat) :
    UnpackedFloat.pack .binary64 (.finite .positive (1#1 ++ m).toNat ((e.toNat : Int) - 1075) h) =
      packComponents .binary64 .positive e m := by
  have hm : (1#1 ++ m).toNat = 2 ^ 52 + m.toNat := by
    rw [BitVec.toNat_append, ← Nat.shiftLeft_add_eq_or_of_lt m.isLt, Nat.shiftLeft_eq]
    rfl
  have hlog : (1#1 ++ m).toNat.log2 = 52 := by
    rw [hm, Nat.log2_eq_iff (by omega)]
    omega
  have hmax : e.toNat ≠ 2047 := fun h => he (BitVec.eq_of_toNat_eq h)
  have hexp : ((e.toNat : Int) - 1075 + 1075).toNat = e.toNat := by omega
  have hfraction : BitVec.ofNat 52 (1#1 ++ m).toNat = m := by
    apply BitVec.eq_of_toNat_eq
    rw [BitVec.toNat_ofNat, hm]
    omega
  rw [pack_finite h (by omega), if_pos hlog, hexp, hfraction, BitVec.ofNat_toNat,
    BitVec.setWidth_eq]

/-- Bits that stand for a number without a sign are what the number is packed to again. -/
theorem pack_unpack {b : BitVec 64} (h : b.toNat ≤ infinityBits) :
    UnpackedFloat.pack .binary64 (UnpackedFloat.unpack .binary64 b) = b := by
  unfold infinityBits at h
  have hparts : packComponents .binary64 .positive (@unpackExponent .binary64 b)
      (@unpackMantissa .binary64 b) = b := by
    apply BitVec.eq_of_toNat_eq
    rw [toNat_packComponents, toNat_unpackExponent, toNat_unpackMantissa]
    change b.toNat / 2 ^ 52 % 2 ^ 11 * 2 ^ 52 + b.toNat % 2 ^ 52 = b.toNat
    omega
  refine Eq.trans ?_ hparts
  rcases unpack_cases h with ⟨he, hm, hb⟩ | ⟨he, hm, hb⟩ | ⟨he, _, hb⟩ | ⟨he, _, hb⟩
  · rw [hb, he, hm]
    rfl
  · rw [hb, he, hm]
    rfl
  · rw [hb, he]
    exact pack_subnormal _
  · rw [hb]
    exact pack_normal he _ _

/-- The nearest double of a ratio has the bits that were worked out for it. -/
theorem ofFloat_ratio (num den : Nat) :
    Decoded.ofFloat (ratio num den) = Decoded.ofBits (bits num den) := by
  have hle : bits num den ≤ infinityBits := bits_le num den
  have hb : (bits num den).toUInt64.toBitVec.toNat = bits num den := by
    change bits num den % 2 ^ 64 = _
    unfold infinityBits at hle
    omega
  have hpack := pack_unpack (b := (bits num den).toUInt64.toBitVec) (hb.symm ▸ hle)
  change Decoded.ofBits (UnpackedFloat.pack .binary64 (UnpackedFloat.unpack .binary64 _)).toNat = _
  rw [hpack, hb]

end Nearest

/-- Neither a nan nor an infinity. -/
def Decoded.IsFinite : Decoded → Prop
  | finite .. => True
  | _ => False

instance (d : Decoded) : Decidable d.IsFinite := by
  cases d <;> unfold Decoded.IsFinite <;> infer_instance

theorem Decoded.isFinite_ofBits {b : Nat} (h : b ≤ Nearest.infinityBits) :
    (ofBits b).IsFinite ↔ b < Nearest.infinityBits := by
  have h52 : pow2 52 = 4503599627370496 := by decide
  have h11 : pow2 11 = 2048 := by decide
  unfold Nearest.infinityBits at *
  simp only [ofBits, h52, h11]
  split
  · split <;> simp only [IsFinite, false_iff] <;> omega
  · split <;> simp only [IsFinite, true_iff] <;> omega

/-- Every integer, and every double that is a number and no infinity. -/
def Number.IsFinite (n : Number) : Prop := n.decoded.IsFinite

instance (n : Number) : Decidable n.IsFinite := inferInstanceAs (Decidable n.decoded.IsFinite)

namespace Number

theorem isFinite_int (n : Int) : (int n).IsFinite := trivial

theorem isFinite_ratio {den : Nat} (hden : 0 < den) (num : Nat) :
    (real (Nearest.ratio num den)).IsFinite ↔ num < Nearest.limit * den := by
  rw [IsFinite, decoded, Nearest.ofFloat_ratio, Decoded.isFinite_ofBits (Nearest.bits_le num den),
    Nearest.bits_lt_iff hden]

/-- An integer has no double exactly from the limit on. -/
theorem double?_eq_none {n : Int} : double? n = none ↔ Nearest.limit ≤ n.natAbs := by
  have h := Nearest.bits_lt_iff Nat.one_pos n.natAbs
  rw [Nat.mul_one] at h
  rw [double?, ite_eq_right_iff, ← Nat.not_lt, ← h]
  simp [Nearest.infinityBits]

end Number

namespace Numeral

theorem foldl_digits_lt {digits : List Char} (h : ∀ c ∈ digits, c.isDigit = true) (n : Nat) :
    digits.foldl (fun n c => 10 * n + (c.toNat - '0'.toNat)) n < (n + 1) * pow10 digits.length := by
  induction digits generalizing n with
  | nil => simp [pow10]
  | cons c digits ih =>
    obtain ⟨hc, hdigits⟩ := List.forall_mem_cons.1 h
    have hdigit : c.toNat - '0'.toNat ≤ 9 := by
      simp only [Char.isDigit, Bool.and_eq_true, decide_eq_true_eq] at hc
      have hmax : c.val.toNat ≤ 57 := hc.2
      change c.val.toNat - 48 ≤ 9
      omega
    calc digits.foldl _ (10 * n + (c.toNat - '0'.toNat))
        < (10 * n + (c.toNat - '0'.toNat) + 1) * pow10 digits.length := ih hdigits _
      _ ≤ (10 * (n + 1)) * pow10 digits.length := Nat.mul_le_mul_right _ (by omega)
      _ = (n + 1) * pow10 (digits.length + 1) := by
        change _ = (n + 1) * 10 ^ (digits.length + 1)
        rw [Nat.pow_succ]
        simp only [pow10, Nat.pow_eq]
        ring

theorem digitsValue_lt {digits : List Char} (h : ∀ c ∈ digits, c.isDigit = true) :
    digitsValue digits < pow10 digits.length := by
  have hlt := foldl_digits_lt h 0
  rwa [Nat.zero_add, Nat.one_mul] at hlt

/-- So many digits before the point leave a decimal finite, whatever follows it. -/
def wholeLimit : Nat := 308

theorem pow10_le_pow10 {m n : Nat} (h : m ≤ n) : pow10 m ≤ pow10 n :=
  Nat.pow_le_pow_right (by decide) h

theorem pow10_wholeLimit_le : pow10 wholeLimit ≤ Nearest.limit := by decide +kernel

theorem isFinite_decimal {whole fraction : List Char} (hw : ∀ c ∈ whole, c.isDigit = true)
    (hf : ∀ c ∈ fraction, c.isDigit = true) (h : whole.length ≤ wholeLimit) :
    (Number.real (decimal whole fraction)).IsFinite := by
  have hden : 0 < pow10 fraction.length := Nat.pow_pos (by decide)
  rw [decimal, Number.isFinite_ratio hden]
  calc digitsValue (whole ++ fraction)
      < pow10 (whole ++ fraction).length := digitsValue_lt (List.forall_mem_append.2 ⟨hw, hf⟩)
    _ = pow10 whole.length * pow10 fraction.length := by
      rw [List.length_append]
      exact Nat.pow_add 10 _ _
    _ ≤ pow10 wholeLimit * pow10 fraction.length :=
      Nat.mul_le_mul_right _ (pow10_le_pow10 h)
    _ ≤ Nearest.limit * pow10 fraction.length := Nat.mul_le_mul_right _ pow10_wholeLimit_le

end Numeral
end Gamebook
