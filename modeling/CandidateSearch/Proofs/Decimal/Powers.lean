/-
  CandidateSearch/Proofs/Decimal/Powers.lean
  ==========================================
  **Whole powers are exact within the guard digits.**

  Every product of the repeated squaring is cut to thirty digits, also the last square,
  which is never used.  A power of a number has at least as many significant digits as the
  powers before it (`HasDigits.pow_of_le`), since the digits left of its trailing zeros are a
  power of the digits left of those of the number:

      1.20 ^ 3 = 1.728000        12 ^ 3 = 1728, and no power of 12 ends with a zero

  So if the power fits into thirty digits, no product that is used is cut, and the result
  is the exact power, rounded once (`pow_exact`).
-/
import CandidateSearch.Decimal.Binary
import CandidateSearch.Proofs.Decimal.Quotients
import Mathlib.RingTheory.Int.Basic
import Mathlib.RingTheory.Multiplicity

namespace CandidateSearch.Decimal

open Number

/-! ### Significant digits of powers -/

section Digits

variable {p : Nat} {v : ℚ}

theorem hasDigits_zero (p : Nat) : HasDigits p 0 := ⟨0, ⟨0, by simp⟩, by simp⟩

theorem hasDigits_one (hp : 0 < p) : HasDigits p 1 := by
  refine ⟨0, ⟨1, by simp⟩, ?_⟩
  rw [abs_one, add_zero, zpow_natCast]
  exact one_lt_pow₀ (by norm_num) hp.ne'

/-- Every decimal that is not zero has a last digit that is not zero. -/
theorem exists_significand {d : Decimal} (h : d.value ≠ 0) :
    ∃ (m : ℤ) (k : ℤ), ¬ 10 ∣ m ∧ d.value = m * 10 ^ k := by
  have hcoefficient : d.coefficient ≠ 0 := mt value_eq_zero_iff.mpr h
  have hfinite : FiniteMultiplicity (10 : ℤ) d.coefficient :=
    Int.finiteMultiplicity_iff.mpr ⟨by decide, hcoefficient⟩
  obtain ⟨m, hm, hdvd⟩ := hfinite.exists_eq_pow_mul_and_not_dvd
  refine ⟨m, multiplicity 10 d.coefficient - d.scale, hdvd, ?_⟩
  have hcast : (d.coefficient : ℚ) = 10 ^ multiplicity 10 d.coefficient * m := by exact_mod_cast hm
  rw [value, hcast, sub_eq_add_neg, zpow_add₀ (by norm_num), zpow_natCast]
  ring

/-- A power ends with a zero only if the number does. -/
theorem not_dvd_pow {m : ℤ} (h : ¬ 10 ∣ m) (n : Nat) : ¬ 10 ∣ m ^ n := by
  intro hdvd
  have htwo := Int.Prime.dvd_pow' Nat.prime_two ((by decide : (2 : ℤ) ∣ 10).trans hdvd)
  have hfive := Int.Prime.dvd_pow' Nat.prime_five ((by decide : (5 : ℤ) ∣ 10).trans hdvd)
  omega

/-- A significand is shorter than any other way to write the number. -/
theorem abs_lt_of_hasDigits {m k : ℤ} (hm : ¬ 10 ∣ m) (h : HasDigits p (m * 10 ^ k)) :
    |m| < 10 ^ p := by
  obtain ⟨j, ⟨n, hn⟩, hlt⟩ := h
  have hunit := unit_pos j
  have hjk : j ≤ k := by
    by_contra hkj
    refine hm ?_
    have hexponent : ((j - k).toNat : ℤ) = j - k := Int.toNat_of_nonneg (by omega)
    have hcast : (m : ℚ) = n * 10 ^ (j - k).toNat := by
      rw [← zpow_natCast, hexponent, zpow_sub₀ (by norm_num), ← mul_div_assoc, ← hn,
        mul_div_cancel_right₀ _ (unit_pos k).ne']
    have hm' : m = n * 10 ^ (j - k).toNat := by exact_mod_cast hcast
    rw [hm']
    exact Dvd.dvd.mul_left (dvd_pow_self 10 (by omega)) n
  have hsize : |(m : ℚ)| * 10 ^ k < 10 ^ (p : ℤ) * 10 ^ j := by
    rwa [← zpow_add₀ (by norm_num), ← abs_of_pos (unit_pos k), ← abs_mul]
  have hle : (10 : ℚ) ^ j ≤ 10 ^ k := zpow_le_zpow_right₀ (by norm_num) hjk
  have habs : |(m : ℚ)| < 10 ^ (p : ℤ) := by
    refine lt_of_mul_lt_mul_right (lt_of_le_of_lt ?_ hsize) hunit.le
    exact mul_le_mul_of_nonneg_left hle (abs_nonneg _)
  rw [zpow_natCast] at habs
  exact_mod_cast habs

/-- **Smaller powers do not have more digits.** -/
theorem HasDigits.pow_of_le (hp : 0 < p) {d : Decimal} {m n : Nat} (hle : m ≤ n)
    (h : HasDigits p (d.value ^ n)) : HasDigits p (d.value ^ m) := by
  rcases eq_or_ne d.value 0 with hzero | hne
  · rw [hzero]
    rcases Nat.eq_zero_or_pos m with rfl | hm
    · simpa using hasDigits_one hp
    · rw [zero_pow hm.ne']
      exact hasDigits_zero p
  · obtain ⟨c, k, hc, hvalue⟩ := exists_significand hne
    have hpow : ∀ j : Nat, d.value ^ j = ((c ^ j : ℤ) : ℚ) * 10 ^ (k * j) := by
      intro j
      rw [hvalue, mul_pow, zpow_mul, zpow_natCast]
      push_cast
      rfl
    rw [hpow] at h
    have hlt := abs_lt_of_hasDigits (not_dvd_pow hc n) h
    have hone : 1 ≤ |c| := Int.one_le_abs fun h => hc (h ▸ dvd_zero 10)
    have hless : |c ^ m| < 10 ^ p := by
      rw [abs_pow] at hlt ⊢
      exact (pow_le_pow_right₀ hone hle).trans_lt hlt
    refine ⟨k * m, ⟨c ^ m, hpow m⟩, ?_⟩
    rw [hpow, abs_mul, abs_of_pos (unit_pos _), zpow_add₀ (by norm_num), zpow_natCast]
    refine mul_lt_mul_of_pos_right ?_ (unit_pos _)
    exact_mod_cast hless

end Digits

/-! ### Repeated squaring -/

section Squaring

variable {b : Decimal} {total : Nat}

/-- A product of two powers is not cut if it is at most the power that is formed. -/
theorem value_keep (hdigits : HasDigits (precision + guardDigits) (b.value ^ total))
    {x y : Decimal} {i j : Nat} (hx : x.value = b.value ^ i) (hy : y.value = b.value ^ j)
    (hle : i + j ≤ total) :
    ((exactMul x y).toPrecision (precision + guardDigits)).value = b.value ^ (i + j) := by
  rw [value_toPrecision, value_exactMul, hx, hy, ← pow_add]
  exact (hdigits.pow_of_le (by decide) hle).roundTo_eq

/-- The invariant of the loop: `result` is the power formed so far, `square` is the one that
    the next bit of `n` stands for, as long as there is one, and both make up the whole. -/
theorem value_powNat (hdigits : HasDigits (precision + guardDigits) (b.value ^ total))
    (done width : Nat) {fuel n : Nat} {result square : Decimal} (hfuel : n < 2 ^ fuel)
    (hresult : result.value = b.value ^ done) (hsquare : 0 < n → square.value = b.value ^ width)
    (htotal : done + width * n = total) :
    (powNat fuel result square n).value = b.value ^ total := by
  induction fuel generalizing n done width result square with
  | zero =>
    obtain rfl : n = 0 := by simpa using hfuel
    rw [powNat, hresult, ← htotal, mul_zero, add_zero]
  | succ fuel ih =>
    rw [powNat]
    split
    · rename_i hzero
      rw [hresult, ← htotal, hzero, mul_zero, add_zero]
    rename_i hpos
    have hn : 0 < n := Nat.pos_of_ne_zero hpos
    have hbits := Nat.div_add_mod n 2
    have hhalf : n / 2 < 2 ^ fuel := by
      rw [pow_succ] at hfuel
      omega
    -- the square is only right while there are bits left
    have hnext : 0 < n / 2 →
        ((exactMul square square).toPrecision (precision + guardDigits)).value =
          b.value ^ (width + width) := by
      intro hmore
      refine value_keep hdigits (hsquare hn) (hsquare hn) ?_
      have : width * 2 ≤ width * n := Nat.mul_le_mul_left width (by omega)
      omega
    have hsplit : width * n = (width + width) * (n / 2) + width * (n % 2) := by
      conv_lhs => rw [← hbits]
      ring
    split
    · rename_i hodd
      rw [hodd, mul_one] at hsplit
      refine ih _ _ hhalf (value_keep hdigits hresult (hsquare hn) ?_) hnext ?_
      · omega
      · omega
    · rename_i heven
      have hzero : n % 2 = 0 := by omega
      rw [hzero, mul_zero, add_zero] at hsplit
      exact ih _ _ hhalf hresult hnext (by omega)

theorem value_power (hdigits : HasDigits (precision + guardDigits) (b.value ^ total)) :
    (powNat (total.log2 + 1) one b total).value = b.value ^ total :=
  value_powNat hdigits 0 1 Nat.lt_log2_self (by simp) (fun _ => by simp) (by simp)

end Squaring

/-! ### Reciprocals -/

/-- The reciprocal is carried to a hundred digits, however the number is written. -/
theorem quotientPlace_one {x : Decimal} (hx : x.value ≠ 0) :
    quotientPlace one x = lastPlace quotientDigits (1 / x.value) := by
  rw [quotientPlace, value_one]
  refine min_eq_left ?_
  rw [lastPlace_le_iff (one_div_ne_zero hx), abs_div, abs_one, one_div, abs_value]
  have hcoefficient : (1 : ℚ) ≤ x.coefficient.natAbs := by
    exact_mod_cast Int.natAbs_pos.mpr (mt value_eq_zero_iff.mpr hx)
  have hunit := unit_pos (-x.scale)
  calc ((x.coefficient.natAbs : ℚ) * 10 ^ (-x.scale))⁻¹ ≤ (10 ^ (-x.scale))⁻¹ := by
        refine inv_anti₀ hunit ?_
        exact le_mul_of_one_le_left hunit.le hcoefficient
    _ = 10 ^ x.scale := by rw [zpow_neg, inv_inv]
    _ < 10 ^ (quotientDigits + (x.scale - one.scale)) := by
        refine zpow_lt_zpow_right₀ (by norm_num) ?_
        show x.scale < (100 : ℕ) + (x.scale - 0)
        omega

/-- **Reciprocals depend on the value alone.** -/
theorem div_one_congr {x y : Decimal} (h : x.value = y.value) : div? one x = div? one y := by
  have hzero : x.isZero = y.isZero := by rw [Bool.eq_iff_iff, isZero_iff, isZero_iff, h]
  rw [div?, div?, hzero]
  split
  · rfl
  rename_i hne
  have hy : y.value ≠ 0 := by rwa [isZero_iff] at hne
  have hx : x.value ≠ 0 := h ▸ hy
  have hvalue : (quotient one x).value = (quotient one y).value ∧ (quotient one x).value ≠ 0 := by
    rw [value_quotient hx, value_quotient hy]
    by_cases hone : y.value = 1
    · rw [carried_of_eq (h.trans hone), carried_of_eq hone]
      simp
    · rw [carried_of_ne (h ▸ hone), carried_of_ne hone, quotientPlace_one hx, quotientPlace_one hy,
        value_one, h]
      exact ⟨rfl, nearest_lastPlace_ne_zero (one_div_ne_zero hy) (by decide)⟩
  rw [round, round, toPrecision_congr hvalue.1 hvalue.2]

/-! ### Powers of programs -/

theorem pow_of_value {b e : Decimal} {n : ℤ} (he : e.value = n) (hfits : fitsSigned 64 n = true) :
    b.pow? e = powInt b n := by
  have hn : e.truncate.coefficient = n := by rw [coefficient_truncate, he, wholePart_intCast]
  rw [pow?, hn, isInteger_of_value he, hfits]
  rfl

/-- **Whole powers.**  If the power of a number has no more than thirty significant digits,
    the result is that power, rounded once; it is the power itself if that has no more than
    twenty.  For a negative exponent it is the reciprocal of the power, and there is none
    exactly if the number is zero.  How the exponent and the power are written does not
    matter. -/
theorem pow_exact {b e : Decimal} {n : ℤ} (he : e.value = n) (hlow : -2 ^ 63 ≤ n) (hhigh : n < 2 ^ 63)
    (hdigits : HasDigits (precision + guardDigits) (b.value ^ n.natAbs)) :
    ∀ x : Decimal, x.value = b.value ^ n.natAbs →
      (0 ≤ n → ∃ r, b.pow? e = .ok r ∧ r.value = x.round.value ∧
        (HasDigits precision (b.value ^ n.natAbs) → r.value = b.value ^ n.natAbs)) ∧
      (n < 0 → b.pow? e = div? one x ∧
        (b.pow? e = .error .divisionByZero ↔ b.value = 0)) := by
  intro x hx
  have hfits : fitsSigned 64 n = true := by
    rw [fitsSigned, Bool.and_eq_true, decide_eq_true_iff, decide_eq_true_iff]
    exact ⟨hlow, hhigh⟩
  have hpower := value_power hdigits
  rw [pow_of_value he hfits, powInt]
  refine ⟨fun hn => ?_, fun hn => ?_⟩
  · rw [if_neg (not_lt.mpr hn)]
    refine ⟨_, rfl, ?_, fun hfew => ?_⟩
    · rw [round, round, value_toPrecision, value_toPrecision, hpower, hx]
    · rw [round, value_toPrecision, hpower, hfew.roundTo_eq]
  · rw [if_pos hn, div_one_congr (hpower.trans hx.symm)]
    refine ⟨rfl, ?_⟩
    have hexponent : n.natAbs ≠ 0 := by omega
    rw [← pow_eq_zero_iff hexponent, ← hx, ← isZero_iff, div?]
    split <;> simp_all

-- a power of thirty digits
theorem pow_exact_two :
    HasDigits (precision + guardDigits) (2 ^ 99) ∧
      (∃ r, (⟨2, 0⟩ : Decimal).pow? ⟨990, 1⟩ = .ok r ∧
        r.value = (⟨633825300114114700748351602688, 0⟩ : Decimal).round.value) ∧
      (⟨2, 0⟩ : Decimal).pow? ⟨-99, 0⟩ = div? one ⟨633825300114114700748351602688, 0⟩ ∧
      (⟨0, 0⟩ : Decimal).pow? ⟨-1, 0⟩ = .error .divisionByZero := by
  have htwo : (⟨2, 0⟩ : Decimal).value = 2 := by norm_num [value]
  have hpower : (⟨633825300114114700748351602688, 0⟩ : Decimal).value = 2 ^ 99 := by
    norm_num [value]
  have hdigits : HasDigits (precision + guardDigits) (2 ^ 99) :=
    ⟨0, ⟨2 ^ 99, by norm_num⟩, by norm_num [precision, guardDigits]⟩
  refine ⟨hdigits, ?_, ?_, ?_⟩
  · obtain ⟨hup, -⟩ := pow_exact (b := ⟨2, 0⟩) (e := ⟨990, 1⟩) (n := 99) (by norm_num [value])
      (by norm_num) (by norm_num) (by rwa [htwo]) _ (hpower.trans (by rw [htwo]; rfl))
    obtain ⟨r, hr, hvalue, -⟩ := hup (by norm_num)
    exact ⟨r, hr, hvalue⟩
  · obtain ⟨-, hdown⟩ := pow_exact (b := ⟨2, 0⟩) (e := ⟨-99, 0⟩) (n := -99) (by norm_num [value])
      (by norm_num) (by norm_num) (by rwa [htwo]) _ (hpower.trans (by rw [htwo]; rfl))
    exact (hdown (by norm_num)).1
  · obtain ⟨-, hdown⟩ := pow_exact (b := ⟨0, 0⟩) (e := ⟨-1, 0⟩) (n := -1) (by norm_num [value])
      (by norm_num) (by norm_num) (by simpa using hasDigits_zero _) ⟨0, 0⟩ (by simp)
    exact (hdown (by norm_num)).2.mpr (by simp)

end CandidateSearch.Decimal
