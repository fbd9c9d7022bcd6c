/-
  CandidateSearch/Proofs/Decimal/Values.lean
  ==========================================
  **The rational number that a decimal stands for.**

  `value ⟨c, s⟩ = c · 10 ^ (-s)`.  Comparing decimals is comparing their values
  (`compare_eq`), although the magnitudes are compared by the places of their first
  digits and only then by coefficients; the place of the first digit is a logarithm of the
  value (`leading_eq`), so it does not depend on how the number is written.

  Exact sums and padding are exact on values.
-/
import CandidateSearch.Decimal.Arithmetic
import Mathlib.Data.Int.Log
import Mathlib.Data.Rat.Floor
import Mathlib.Tactic.Linarith
import Mathlib.Tactic.FieldSimp
import Mathlib.Tactic.NormNum

namespace CandidateSearch

/-! ### Counting digits -/

namespace Number

theorem tenTo_eq (n : Nat) : tenTo n = 10 ^ n := rfl

theorem tenTo_pos (n : Nat) : 0 < tenTo n := Nat.pow_pos (by decide)

theorem digitCountFrom_eq {n : Nat} (hn : n ≠ 0) {fuel e : Nat} (hlow : e ≤ Nat.log 10 n)
    (hhigh : Nat.log 10 n ≤ e + fuel) : digitCountFrom n fuel e = Nat.log 10 n + 1 := by
  induction fuel generalizing e with
  | zero =>
    rw [digitCountFrom]
    omega
  | succ fuel ih =>
    have hnext : tenTo (e + 1) ≤ n ↔ e + 1 ≤ Nat.log 10 n :=
      (Nat.le_log_iff_pow_le (by decide) hn).symm
    rw [digitCountFrom]
    split
    · exact ih (by omega) (by omega)
    · omega

theorem pow_div_le {a b : Nat} (hb : b ≠ 0) (h : tenTo a ≤ twoTo b) (l : Nat) :
    10 ^ (l * a / b) ≤ 2 ^ l := by
  refine (Nat.pow_le_pow_iff_left hb).mp ?_
  calc (10 ^ (l * a / b)) ^ b
      = 10 ^ (l * a / b * b) := (Nat.pow_mul ..).symm
    _ ≤ 10 ^ (a * l) := Nat.pow_le_pow_right (by decide)
        ((Nat.div_mul_le_self ..).trans (Nat.mul_comm ..).le)
    _ = (10 ^ a) ^ l := Nat.pow_mul ..
    _ ≤ (2 ^ b) ^ l := Nat.pow_le_pow_left h l
    _ = (2 ^ l) ^ b := Nat.pow_right_comm ..

/-- The digits are counted from a guess that is not too large. -/
theorem pow_guess_le (l : Nat) : 10 ^ (l * 1233 / 4096) ≤ 2 ^ l :=
  pow_div_le (by decide) (by decide +kernel) l

theorem digitCount_eq (n : Nat) : digitCount n = Nat.log 10 n + 1 := by
  rcases Nat.eq_zero_or_pos n with rfl | hpos
  · rfl
  have hn : n ≠ 0 := hpos.ne'
  refine digitCountFrom_eq hn ?_ ?_
  · rw [Nat.le_log_iff_pow_le (by decide) hn]
    exact (pow_guess_le _).trans (Nat.log2_self_le hn)
  · have hlog : Nat.log 10 n ≤ n.log2 := by
      rw [Nat.log2_eq_log_two]
      exact Nat.log_anti_left (by decide) (by decide)
    omega

end Number

namespace Decimal

open Number

/-! ### Values -/

/-- The number that a decimal stands for. -/
def value (d : Decimal) : ℚ := d.coefficient * 10 ^ (-d.scale)

/-- The unit of a place behind the point. -/
theorem unit_pos (k : ℤ) : (0 : ℚ) < 10 ^ k := zpow_pos (by norm_num) k

@[simp] theorem value_mk (c s : Int) : (⟨c, s⟩ : Decimal).value = c * 10 ^ (-s) := rfl

@[simp] theorem value_ofInt (n : Int) : (ofInt n).value = n := by simp [ofInt]

theorem value_eq_zero_iff {d : Decimal} : d.value = 0 ↔ d.coefficient = 0 := by
  rw [value, mul_eq_zero_iff_right (unit_pos _).ne', Int.cast_eq_zero]

theorem value_pos_iff {d : Decimal} : 0 < d.value ↔ 0 < d.coefficient := by
  rw [value, mul_pos_iff_of_pos_right (unit_pos _), Int.cast_pos]

theorem value_neg_iff {d : Decimal} : d.value < 0 ↔ d.coefficient < 0 := by
  rw [← not_le, ← not_le, value, mul_nonneg_iff_of_pos_right (unit_pos _), Int.cast_nonneg_iff]

theorem isZero_iff {d : Decimal} : d.isZero = true ↔ d.value = 0 := by
  rw [value_eq_zero_iff, isZero, beq_iff_eq]

theorem abs_value (d : Decimal) : |d.value| = d.coefficient.natAbs * 10 ^ (-d.scale) := by
  rw [value, abs_mul, abs_of_pos (unit_pos _), Nat.cast_natAbs, Int.cast_abs]

/-- The coefficient at a larger scale counts smaller units. -/
theorem coefficientAt_eq {d : Decimal} {scale : Int} (h : d.scale ≤ scale) :
    (d.coefficientAt scale : ℚ) = d.value * 10 ^ scale := by
  have hscale : ((scale - d.scale).toNat : ℤ) = scale - d.scale := Int.toNat_of_nonneg (by omega)
  rw [coefficientAt, value, tenTo_eq]
  push_cast
  rw [mul_assoc, ← zpow_add₀ (by norm_num), ← zpow_natCast, hscale]
  congr 2
  omega

theorem value_coefficientAt {d : Decimal} {scale : Int} (h : d.scale ≤ scale) :
    (⟨d.coefficientAt scale, scale⟩ : Decimal).value = d.value := by
  rw [value_mk, coefficientAt_eq h, mul_assoc, ← zpow_add₀ (by norm_num)]
  simp

/-! ### The place of the first digit -/

theorem zpow_leading {d : Decimal} (h : d.coefficient ≠ 0) :
    10 ^ (d.leading - 1) ≤ |d.value| ∧ |d.value| < 10 ^ d.leading := by
  have hn : d.coefficient.natAbs ≠ 0 := Int.natAbs_ne_zero.mpr h
  have hlow : (10 : ℚ) ^ Nat.log 10 d.coefficient.natAbs ≤ d.coefficient.natAbs := by
    exact_mod_cast Nat.pow_log_le_self 10 hn
  have hhigh : (d.coefficient.natAbs : ℚ) < 10 ^ (Nat.log 10 d.coefficient.natAbs + 1) := by
    exact_mod_cast Nat.lt_pow_succ_log_self (by decide) d.coefficient.natAbs
  have hdigits : (d.digits : ℤ) = Nat.log 10 d.coefficient.natAbs + 1 := by
    simp [digits, digitCount_eq]
  have hunit := unit_pos (-d.scale)
  rw [abs_value]
  refine ⟨?_, ?_⟩
  · have hsplit : d.leading - 1 = (Nat.log 10 d.coefficient.natAbs : ℤ) + -d.scale := by
      rw [leading, hdigits]
      omega
    rw [hsplit, zpow_add₀ (by norm_num), zpow_natCast]
    exact mul_le_mul_of_nonneg_right hlow hunit.le
  · have hsplit : d.leading = ((Nat.log 10 d.coefficient.natAbs + 1 : ℕ) : ℤ) + -d.scale := by
      rw [leading, hdigits]
      push_cast
      omega
    rw [hsplit, zpow_add₀ (by norm_num), zpow_natCast]
    exact mul_lt_mul_of_pos_right hhigh hunit

theorem leading_le_iff {d : Decimal} (h : d.coefficient ≠ 0) {k : ℤ} :
    d.leading ≤ k ↔ |d.value| < 10 ^ k := by
  obtain ⟨hlow, hhigh⟩ := zpow_leading h
  refine ⟨fun hk => hhigh.trans_le (zpow_le_zpow_right₀ (by norm_num) hk), fun hk => ?_⟩
  have := (zpow_lt_zpow_iff_right₀ (a := (10 : ℚ)) (by norm_num)).mp (hlow.trans_lt hk)
  omega

theorem leading_eq {d : Decimal} (h : d.coefficient ≠ 0) :
    d.leading = Int.log 10 |d.value| + 1 := by
  have hpos : 0 < |d.value| := abs_pos.mpr (mt value_eq_zero_iff.mp h)
  refine le_antisymm ?_ ?_
  · rw [leading_le_iff h]
    exact_mod_cast Int.lt_zpow_succ_log_self (by decide : 1 < 10) |d.value|
  · have hlog := Int.zpow_log_le_self (by decide : 1 < 10) hpos
    have hhigh := (zpow_leading h).2
    have := (zpow_lt_zpow_iff_right₀ (a := (10 : ℚ)) (by norm_num)).mp
      (lt_of_le_of_lt (by exact_mod_cast hlog) hhigh)
    omega

/-! ### Comparing -/

theorem compareMagnitudes_eq {a b : Decimal} (ha : a.coefficient ≠ 0) (hb : b.coefficient ≠ 0) :
    compareMagnitudes a b = Ord.compare |a.value| |b.value| := by
  unfold compareMagnitudes
  cases horder : Ord.compare a.leading b.leading with
  | lt =>
    have hlead := compare_lt_iff_lt.mp horder
    refine (compare_lt_iff_lt.mpr ?_).symm
    calc |a.value| < 10 ^ a.leading := (zpow_leading ha).2
      _ ≤ 10 ^ (b.leading - 1) := zpow_le_zpow_right₀ (by norm_num) (by omega)
      _ ≤ |b.value| := (zpow_leading hb).1
  | gt =>
    have hlead := compare_gt_iff_gt.mp horder
    refine (compare_gt_iff_gt.mpr ?_).symm
    calc |b.value| < 10 ^ b.leading := (zpow_leading hb).2
      _ ≤ 10 ^ (a.leading - 1) := zpow_le_zpow_right₀ (by norm_num) (by omega)
      _ ≤ |a.value| := (zpow_leading ha).1
  | eq =>
    -- at one scale the coefficients are the values in the same unit
    have hunit := unit_pos (max a.scale b.scale)
    have hcoefficient : ∀ d : Decimal, d.scale ≤ max a.scale b.scale →
        ((d.coefficientAt (max a.scale b.scale)).natAbs : ℚ) =
          |d.value| * 10 ^ max a.scale b.scale := by
      intro d hd
      rw [Nat.cast_natAbs, Int.cast_abs, coefficientAt_eq hd, abs_mul, abs_of_pos hunit]
    have hleft := hcoefficient a (le_max_left _ _)
    have hright := hcoefficient b (le_max_right _ _)
    show Ord.compare (a.coefficientAt _).natAbs (b.coefficientAt _).natAbs = _
    rw [← cmp_eq_compare, ← cmp_eq_compare, ← cmp_mul_pos_right hunit |a.value| |b.value|,
      ← hleft, ← hright]
    exact (Nat.strictMono_cast.cmp_map_eq _ _).symm

theorem sign_mono {a b : Decimal} (h : a.value ≤ b.value) :
    a.coefficient.sign ≤ b.coefficient.sign := by
  rcases lt_trichotomy b.coefficient 0 with hb | hb | hb
  · have ha := value_neg_iff.mp (h.trans_lt (value_neg_iff.mpr hb))
    rw [Int.sign_eq_neg_one_of_neg ha, Int.sign_eq_neg_one_of_neg hb]
  · have ha : ¬ 0 < a.coefficient := by
      rw [← value_pos_iff, not_lt]
      exact h.trans_eq (value_eq_zero_iff.mpr hb)
    rw [hb, Int.sign_zero, Int.sign_nonpos_iff]
    omega
  · rw [Int.sign_eq_one_of_pos hb]
    rcases Int.sign_trichotomy a.coefficient with ha | ha | ha <;> omega

/-- **Comparing goes by value.** -/
theorem compare_eq (a b : Decimal) : compare a b = Ord.compare a.value b.value := by
  unfold compare
  cases hsign : Ord.compare a.coefficient.sign b.coefficient.sign with
  | lt =>
    refine (compare_lt_iff_lt.mpr (lt_of_not_ge fun h => ?_)).symm
    exact absurd (sign_mono h) (not_le.mpr (compare_lt_iff_lt.mp hsign))
  | gt =>
    refine (compare_gt_iff_gt.mpr (lt_of_not_ge fun h => ?_)).symm
    exact absurd (sign_mono h) (not_le.mpr (compare_gt_iff_gt.mp hsign))
  | eq =>
    have hsigns := compare_eq_iff_eq.mp hsign
    show (if _ then _ else if _ then _ else _) = _
    rcases lt_trichotomy a.coefficient 0 with ha | ha | ha
    · have hb : b.coefficient < 0 := by
        rwa [← Int.sign_eq_neg_one_iff_neg, ← hsigns, Int.sign_eq_neg_one_iff_neg]
      rw [if_neg ha.ne, if_neg (by omega), compareMagnitudes_eq hb.ne ha.ne,
        abs_of_neg (value_neg_iff.mpr ha), abs_of_neg (value_neg_iff.mpr hb)]
      have hanti : StrictAnti fun x : ℚ => -x := fun _ _ h => neg_lt_neg h
      rw [← cmp_eq_compare, ← cmp_eq_compare]
      exact hanti.cmp_map_eq _ _
    · have hb : b.coefficient = 0 := by
        rwa [← Int.sign_eq_zero_iff_zero, ← hsigns, Int.sign_eq_zero_iff_zero]
      rw [if_pos ha, value_eq_zero_iff.mpr ha, value_eq_zero_iff.mpr hb,
        compare_eq_iff_eq.mpr rfl]
    · have hb : 0 < b.coefficient := by
        rwa [← Int.sign_eq_one_iff_pos, ← hsigns, Int.sign_eq_one_iff_pos]
      rw [if_neg ha.ne', if_pos ha, compareMagnitudes_eq ha.ne' hb.ne',
        abs_of_pos (value_pos_iff.mpr ha), abs_of_pos (value_pos_iff.mpr hb)]

theorem atMost_iff {a b : Decimal} : a.atMost b = true ↔ a.value ≤ b.value := by
  rw [atMost, compare_eq, bne_iff_ne, compare_le_iff_le]

/-! ### Padding and exact sums -/

@[simp] theorem value_pad (d : Decimal) (n : Nat) : (d.pad n).value = d.value := by
  have hcoefficient : d.coefficient * tenTo n = d.coefficientAt (d.scale + n) := by
    simp [coefficientAt]
  rw [pad, hcoefficient, value_coefficientAt (by omega)]

/-- **Exact sums.** -/
@[simp] theorem value_exactAdd (a b : Decimal) : (exactAdd a b).value = a.value + b.value := by
  unfold exactAdd
  split
  · rename_i hb
    rw [padToward, value_pad, isZero_iff.mp hb, add_zero]
  split
  · rename_i ha
    rw [padToward, value_pad, isZero_iff.mp ha, zero_add]
  · have ha := value_coefficientAt (le_max_left a.scale b.scale)
    have hb := value_coefficientAt (le_max_right a.scale b.scale)
    rw [value_mk] at ha hb
    rw [value_mk, Int.cast_add, add_mul, ha, hb]

end Decimal

end CandidateSearch
