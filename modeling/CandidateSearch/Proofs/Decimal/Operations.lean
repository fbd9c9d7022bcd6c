/-
  CandidateSearch/Proofs/Decimal/Operations.lean
  ==============================================
  **The values of differences, products and whole parts.**

  Differences and products are exact, also where a factor of one drops the trailing zeros
  of the other (`value_exactMul`).  Truncating leaves the whole part of the value
  (`value_truncate`), so a decimal is an integer exactly if its value is one.
-/
import CandidateSearch.Proofs.Decimal.Rounding
import Mathlib.Data.Sign.Basic
import Mathlib.Algebra.Order.Ring.Cast

namespace CandidateSearch

/-! ### Trailing zeros -/

namespace Number

theorem dropZerosFrom_eq (fuel n dropped : Nat) :
    (dropZerosFrom fuel n dropped).1 * 10 ^ (dropZerosFrom fuel n dropped).2 =
      n * 10 ^ dropped := by
  induction fuel generalizing n dropped with
  | zero => rfl
  | succ fuel ih =>
    rw [dropZerosFrom]
    split
    · rename_i hzero
      have htenth : n = n / 10 * 10 := (Nat.div_mul_cancel (Nat.dvd_of_mod_eq_zero hzero)).symm
      rw [ih, pow_succ', ← mul_assoc, ← htenth]
    · rfl

/-- The zeros that are dropped are counted. -/
theorem dropZeros_eq (n : Nat) : (dropZeros n).1 * 10 ^ (dropZeros n).2 = n := by
  unfold dropZeros
  split
  · rename_i hzero
    simp [hzero]
  · simpa using dropZerosFrom_eq n.log2 n 0

end Number

namespace Decimal

open Number

/-! ### Negation, one and zero -/

@[simp] theorem value_neg (d : Decimal) : d.neg.value = -d.value := by simp [neg, value]

@[simp] theorem value_one : one.value = 1 := by simp [one]

theorem digits_pos (d : Decimal) : 0 < d.digits := by simp [digits, digitCount_eq]

theorem isOne_iff {d : Decimal} : d.isOne = true ↔ d.value = 1 := by
  rw [isOne, Bool.and_eq_true, beq_iff_eq, beq_iff_eq]
  constructor
  · rintro ⟨hdigits, hcoefficient⟩
    have := d.digits_pos
    have hscale : (d.scale.toNat : ℤ) = d.scale := Int.toNat_of_nonneg (by omega)
    rw [value, hcoefficient, tenTo_eq]
    push_cast
    rw [← zpow_natCast, hscale, ← zpow_add₀ (by norm_num), add_neg_cancel, zpow_zero]
  · intro hvalue
    have hne : d.coefficient ≠ 0 := fun h => by simp [value_eq_zero_iff.mpr h] at hvalue
    -- the first digit of one is the last one in front of the point
    have hleading : d.leading = 1 := by simp [leading_eq hne, hvalue]
    have hdigits : d.scale + 1 = d.digits := by
      rw [leading] at hleading
      omega
    refine ⟨hdigits, ?_⟩
    have := d.digits_pos
    have hscale : (d.scale.toNat : ℤ) = d.scale := Int.toNat_of_nonneg (by omega)
    have hpower : (d.coefficient : ℚ) = 10 ^ d.scale := by
      rwa [value, zpow_neg, mul_inv_eq_one₀ (unit_pos _).ne'] at hvalue
    rw [← hscale, zpow_natCast] at hpower
    rw [tenTo_eq]
    exact_mod_cast hpower

theorem same_iff {a b : Decimal} : a.same b = true ↔ a.value = b.value := by
  rw [same, compare_eq, beq_iff_eq, compare_eq_iff_eq]

/-! ### Exact differences and products -/

@[simp] theorem value_exactSub (a b : Decimal) : (exactSub a b).value = a.value - b.value := by
  have ha := value_coefficientAt (le_max_left a.scale b.scale)
  have hb := value_coefficientAt (le_max_right a.scale b.scale)
  rw [value_mk] at ha hb
  rw [exactSub, value_mk, Int.cast_sub, sub_mul, ha, hb]

theorem value_product (a b : Decimal) :
    (⟨a.coefficient * b.coefficient, a.scale + b.scale⟩ : Decimal).value = a.value * b.value := by
  rw [value_mk, value, value, neg_add, zpow_add₀ (by norm_num)]
  push_cast
  ring

@[simp] theorem value_normalized (d : Decimal) : d.normalized.value = d.value := by
  unfold normalized
  split
  · rename_i hzero
    rw [value_eq_zero_iff.mpr hzero]
    simp
  · have hkept : ((dropZeros d.coefficient.natAbs).1 : ℚ) * 10 ^ (dropZeros d.coefficient.natAbs).2 =
        d.coefficient.natAbs := by exact_mod_cast dropZeros_eq d.coefficient.natAbs
    have hsign : (d.coefficient.sign : ℚ) * d.coefficient.natAbs = d.coefficient := by
      rw [← Int.cast_natCast, ← Int.cast_mul, Int.sign_mul_natAbs]
    show ((d.coefficient.sign * (dropZeros d.coefficient.natAbs).1 : Int) : ℚ) *
      10 ^ (-(d.scale - (dropZeros d.coefficient.natAbs).2)) = _
    rw [neg_sub, sub_eq_add_neg, zpow_add₀ (by norm_num), zpow_natCast, value, ← hsign, ← hkept]
    push_cast
    ring

/-- **Exact products.** -/
@[simp] theorem value_exactMul (a b : Decimal) : (exactMul a b).value = a.value * b.value := by
  unfold exactMul
  split
  · rename_i ha
    rw [value_normalized, isOne_iff.mp ha, one_mul]
  split
  · rename_i hb
    rw [value_normalized, isOne_iff.mp hb, mul_one]
  · exact value_product a b

@[simp] theorem value_times (b q : Decimal) : (times b q).value = b.value * q.value := by
  unfold times
  split
  · rename_i hb
    rw [isOne_iff.mp hb, one_mul]
  · exact value_product b q

/-! ### Whole parts -/

/-- The whole part of a number, toward zero. -/
def wholePart (v : ℚ) : ℤ := SignType.sign v * ⌊|v|⌋

theorem wholePart_neg (v : ℚ) : wholePart (-v) = -wholePart v := by
  simp [wholePart, Left.sign_neg]

theorem wholePart_of_nonneg {v : ℚ} (h : 0 ≤ v) : wholePart v = ⌊v⌋ := by
  rcases h.eq_or_lt with rfl | hpos
  · simp [wholePart]
  · simp [wholePart, sign_pos hpos, abs_of_pos hpos]

@[simp] theorem wholePart_intCast (n : ℤ) : wholePart n = n := by
  rcases le_total 0 n with hn | hn
  · rw [wholePart_of_nonneg (by exact_mod_cast hn), Int.floor_intCast]
  · have hneg : (n : ℚ) = -((-n : ℤ) : ℚ) := by push_cast; ring
    rw [hneg, wholePart_neg, wholePart_of_nonneg (by exact_mod_cast neg_nonneg.mpr hn),
      Int.floor_intCast, neg_neg]

/-- Division of integers that truncates gives the whole part of the quotient. -/
theorem wholePart_div (c : ℤ) (n : ℕ) : wholePart (c / n) = c.tdiv n := by
  have hnonneg : ∀ c : ℤ, 0 ≤ c → wholePart (c / n) = c.tdiv n := by
    intro c hc
    have hquotient : (0 : ℚ) ≤ c / n := div_nonneg (by exact_mod_cast hc) n.cast_nonneg
    rw [wholePart_of_nonneg hquotient, Rat.floor_intCast_div_natCast, Int.tdiv_eq_ediv_of_nonneg hc]
  rcases le_total 0 c with hc | hc
  · exact hnonneg c hc
  · have hflip : (c / n : ℚ) = -(((-c : ℤ) : ℚ) / n) := by push_cast; ring
    rw [hflip, wholePart_neg, hnonneg (-c) (neg_nonneg.mpr hc), Int.neg_tdiv, neg_neg]

theorem coefficient_truncate (d : Decimal) : d.truncate.coefficient = wholePart d.value := by
  unfold truncate
  split
  · rename_i hscale
    have hvalue : d.value = d.coefficient / (10 ^ d.scale.toNat : ℕ) := by
      rw [value, zpow_neg, ← div_eq_mul_inv, ← Int.toNat_of_nonneg hscale]
      push_cast
      rw [zpow_natCast, Int.toNat_natCast]
    rw [hvalue, wholePart_div]
    rfl
  · rename_i hscale
    have hvalue : d.value = (d.coefficient * tenTo (-d.scale).toNat : ℤ) := by
      have hplaces : ((-d.scale).toNat : ℤ) = -d.scale := Int.toNat_of_nonneg (by omega)
      rw [value, tenTo_eq]
      push_cast
      rw [← zpow_natCast, hplaces]
    rw [hvalue, wholePart_intCast]

theorem scale_truncate (d : Decimal) : d.truncate.scale = 0 := by
  unfold truncate
  split <;> rfl

/-- **Truncating leaves the whole part.** -/
@[simp] theorem value_truncate (d : Decimal) : d.truncate.value = wholePart d.value := by
  rw [value, scale_truncate, coefficient_truncate]
  simp

theorem isInteger_of_value {d : Decimal} {n : ℤ} (h : d.value = n) : d.isInteger = true := by
  rw [isInteger, same_iff, value_truncate, h, wholePart_intCast]

/-! ### The operations of programs -/

theorem value_sub (a b : Decimal) : (a.sub b).value = roundTo precision (a.value - b.value) := by
  rw [sub, round, value_toPrecision, value_exactSub]

theorem value_mul (a b : Decimal) : (a.mul b).value = roundTo precision (a.value * b.value) := by
  rw [mul, round, value_toPrecision, value_exactMul]

end Decimal

end CandidateSearch
