/-
  CandidateSearch/Proofs/Decimal/Quotients.lean
  =============================================
  **Long division.**

  A quotient is the nearest multiple of the unit of its last digit, where half a unit is
  rounded away from zero (`carried`, `value_quotient`).  The last digit is the hundredth one:

      2 / 3     ⟶  0.66…67          (a hundred digits)
      1e100 / 7 ⟶  14285…715        (a hundred digits, the last one in front of the point)

  A coefficient that is so long that the division of the coefficients alone has more than a
  hundred digits is divided in full, so that the last digit stands at `quotientPlace`: which
  digits are carried depends on how the numbers are written.  Division by one is exact.
-/
import CandidateSearch.Proofs.Decimal.Operations
import Mathlib.Algebra.Order.Floor.Semifield

namespace CandidateSearch.Decimal

open Number

/-! ### The nearest multiple -/

/-- `v` to the nearest multiple of `10 ^ k`; half a unit is rounded away from zero. -/
def nearest (k : ℤ) (v : ℚ) : ℚ := SignType.sign v * (⌊|v| / 10 ^ k + 1 / 2⌋ * 10 ^ k)

theorem nearest_neg (k : ℤ) (v : ℚ) : nearest k (-v) = -nearest k v := by
  simp [nearest, Left.sign_neg]

@[simp] theorem nearest_zero (k : ℤ) : nearest k 0 = 0 := by simp [nearest]

theorem nearest_of_pos {k : ℤ} {v : ℚ} (h : 0 < v) :
    nearest k v = ⌊v / 10 ^ k + 1 / 2⌋ * 10 ^ k := by
  rw [nearest, sign_pos h, abs_of_pos h, SignType.coe_one, one_mul]

theorem sign_mul_nearest_abs (k : ℤ) (v : ℚ) : SignType.sign v * nearest k |v| = nearest k v := by
  rcases eq_or_ne v 0 with rfl | hv
  · simp
  · rw [nearest_of_pos (abs_pos.mpr hv), nearest]

/-- Moving the point moves the multiples. -/
theorem nearest_mul_zpow (k j : ℤ) (v : ℚ) : nearest (k + j) (v * 10 ^ j) = nearest k v * 10 ^ j := by
  have hunit := unit_pos j
  have hsign : SignType.sign (v * (10 : ℚ) ^ j) = SignType.sign v := by
    rw [sign_mul, sign_pos hunit, mul_one]
  have hquotient : |v * 10 ^ j| / 10 ^ (k + j) = |v| / 10 ^ k := by
    rw [abs_mul, abs_of_pos hunit, zpow_add₀ (by norm_num), mul_div_mul_right _ _ hunit.ne']
  rw [nearest, nearest, hsign, hquotient, zpow_add₀ (by norm_num)]
  ring

theorem Multiple.nearest_eq {k : ℤ} {v : ℚ} (h : Multiple k v) : nearest k v = v := by
  obtain ⟨n, rfl⟩ := h
  have hquotient : |(n : ℚ) * 10 ^ k| / 10 ^ k = |n| := by
    rw [abs_mul, abs_of_pos (unit_pos k), mul_div_cancel_right₀ _ (unit_pos k).ne', Int.cast_abs]
  have hfloor : ⌊((|n| : ℤ) : ℚ) + 1 / 2⌋ = |n| := by
    rw [Int.floor_intCast_add]
    norm_num
  rw [nearest, hquotient, hfloor, Int.cast_abs, ← abs_of_pos (unit_pos k), ← abs_mul,
    abs_of_pos (unit_pos k)]
  exact sign_mul_abs _

section Bounds

variable {k : ℤ} {v w : ℚ}

theorem multiple_nearest (k : ℤ) (v : ℚ) : Multiple k (nearest k v) :=
  ⟨SignType.sign v * ⌊|v| / 10 ^ k + 1 / 2⌋, by rw [nearest]; push_cast; ring⟩

theorem nearest_nonneg (h : 0 < v) : 0 ≤ nearest k v := by
  have hunit := unit_pos k
  rw [nearest_of_pos h]
  exact mul_nonneg (Int.cast_nonneg (Int.floor_nonneg.mpr (by positivity))) hunit.le

/-- What is at least a multiple of the unit stays so. -/
theorem le_nearest (h : 0 < v) (hw : Multiple k w) (hle : w ≤ v) : w ≤ nearest k v := by
  have hunit := unit_pos k
  obtain ⟨n, rfl⟩ := hw
  have hn : (n : ℚ) ≤ v / 10 ^ k := (le_div_iff₀ hunit).mpr hle
  have hfloor : n ≤ ⌊v / 10 ^ k + 1 / 2⌋ := Int.le_floor.mpr (by linarith)
  rw [nearest_of_pos h]
  exact mul_le_mul_of_nonneg_right (by exact_mod_cast hfloor) hunit.le

theorem nearest_le (h : 0 < v) : nearest k v ≤ v + 10 ^ k / 2 := by
  have hunit := unit_pos k
  have hfloor := Int.floor_le (v / 10 ^ k + 1 / 2)
  rw [nearest_of_pos h]
  calc (⌊v / 10 ^ k + 1 / 2⌋ : ℚ) * 10 ^ k ≤ (v / 10 ^ k + 1 / 2) * 10 ^ k :=
        mul_le_mul_of_nonneg_right hfloor hunit.le
    _ = v + 10 ^ k / 2 := by field_simp

theorem lt_nearest_add (h : 0 < v) : v < nearest k v + 10 ^ k / 2 := by
  have hunit := unit_pos k
  have hfloor := Int.lt_floor_add_one (v / 10 ^ k + 1 / 2)
  rw [nearest_of_pos h]
  calc v = v / 10 ^ k * 10 ^ k := (div_mul_cancel₀ v hunit.ne').symm
    _ < (⌊v / 10 ^ k + 1 / 2⌋ + 1 / 2) * 10 ^ k :=
        mul_lt_mul_of_pos_right (by linarith) hunit
    _ = _ := by ring

end Bounds

theorem lastPlace_mul_zpow {v : ℚ} (hv : v ≠ 0) (p : Nat) (j : ℤ) :
    lastPlace p (v * 10 ^ j) = lastPlace p v + j := by
  have hunit := unit_pos j
  refine eq_of_forall_ge_iff fun k => ?_
  rw [lastPlace_le_iff (mul_ne_zero hv hunit.ne'), ← le_sub_iff_add_le, lastPlace_le_iff hv, abs_mul,
    abs_of_pos hunit, ← lt_div_iff₀ hunit, ← zpow_sub₀ (by norm_num), add_sub_assoc]

/-- The first of `p` digits stands `p - 1` places in front of the last one. -/
theorem zpow_le_abs {v : ℚ} (hv : v ≠ 0) {p : Nat} {k : ℤ} (hk : k ≤ lastPlace p v) :
    10 ^ (k + (p - 1)) ≤ |v| := by
  have hlog := Int.zpow_log_le_self (b := 10) (by decide) (abs_pos.mpr hv)
  rw [Nat.cast_ofNat] at hlog
  refine le_trans (zpow_le_zpow_right₀ (by norm_num) ?_) hlog
  rw [lastPlace] at hk
  omega

theorem lastPlace_abs (p : Nat) (v : ℚ) : lastPlace p |v| = lastPlace p v := by
  rw [lastPlace, lastPlace, abs_abs]

theorem lastPlace_neg (p : Nat) (v : ℚ) : lastPlace p (-v) = lastPlace p v := by
  rw [lastPlace, lastPlace, abs_neg]

/-- A number that is not zero is not rounded to zero. -/
theorem nearest_lastPlace_ne_zero {v : ℚ} (hv : v ≠ 0) {p : Nat} (hp : 0 < p) :
    nearest (lastPlace p v) v ≠ 0 := by
  have hle : (10 : ℚ) ^ lastPlace p v ≤ |v| := by
    refine le_trans (zpow_le_zpow_right₀ (by norm_num) ?_) (zpow_le_abs hv (le_refl (lastPlace p v)))
    omega
  have hpos : 0 < nearest (lastPlace p v) |v| :=
    (unit_pos _).trans_le (le_nearest (abs_pos.mpr hv) (Multiple.zpow le_rfl) hle)
  have hsign : (SignType.sign v : ℚ) ≠ 0 := by
    rcases lt_or_gt_of_ne hv with h | h <;> simp [h]
  rw [← sign_mul_nearest_abs]
  exact mul_ne_zero hsign hpos.ne'

/-! ### The digits of a quotient -/

section LongDivision

variable {d n : Nat}

theorem exists_raise {fuel : Nat} (h : d ≤ n * 10 ^ fuel) (places : Nat) :
    ∃ j, raise d fuel n places = (n * 10 ^ j, places + j) ∧ d ≤ n * 10 ^ j ∧
      (j = 0 ∨ n * 10 ^ j < 10 * d) := by
  induction fuel generalizing n places with
  | zero => exact ⟨0, by simp [raise], by simpa using h, Or.inl rfl⟩
  | succ fuel ih =>
    rw [raise]
    split
    · rename_i hlt
      obtain ⟨j, hraise, hle, hfirst⟩ := ih (n := n * 10) (by rwa [mul_assoc, ← pow_succ'])
        (places + 1)
      rw [mul_assoc, ← pow_succ'] at hraise hle
      refine ⟨j + 1, by rw [hraise, Nat.add_assoc, Nat.add_comm 1 j], hle, Or.inr ?_⟩
      rcases hfirst with rfl | hfirst
      · omega
      · rwa [mul_assoc, ← pow_succ'] at hfirst
    · exact ⟨0, by simp, by simp_all, Or.inl rfl⟩

/-- Appending digits.  The quotient and the remainder stand for the same number
    throughout, and it stops early only if nothing is left. -/
theorem exists_longDivide (hd : 0 < d) (room q places : Nat) {r : Nat} (hr : r < 10 * d) :
    ∃ k q' r', longDivide d room q r places = (q', r', places + k) ∧ k ≤ room ∧
      (r' = 0 ∨ k = room) ∧ r' < 10 * d ∧ 10 * q' * d + r' = (10 * q * d + r) * 10 ^ k := by
  induction room generalizing q r places with
  | zero => exact ⟨0, q, r, by simp [longDivide], le_rfl, Or.inr rfl, hr, by simp⟩
  | succ room ih =>
    rw [longDivide]
    split
    · rename_i hzero
      exact ⟨0, q, r, by simp, Nat.zero_le _, Or.inl hzero, hr, by simp⟩
    · have hnext : r % d * 10 < 10 * d := by
        have := Nat.mod_lt r hd
        omega
      obtain ⟨k, q', r', heq, hk, hstop, hr', hvalue⟩ := ih (10 * q + r / d) (places + 1) hnext
      refine ⟨k + 1, q', r', by rw [heq, Nat.add_assoc, Nat.add_comm 1 k], by omega, by omega,
        hr', ?_⟩
      have hparts : 10 * (10 * q + r / d) * d + r % d * 10 = (10 * q * d + r) * 10 := by
        conv_rhs => rw [← Nat.div_add_mod r d]
        ring
      rw [hvalue, hparts, pow_succ']
      ring

/-- What a division leaves, with the digits that are still to be rounded. -/
structure Divided (n d q r places : Nat) : Prop where
  value : 10 * q * d + r = 10 * n * 10 ^ places
  rest_lt : r < 10 * d
  -- all digits are there, or there is nothing left
  carried : min (lastPlace quotientDigits (n / d)) 0 ≤ -(places : ℤ)
  complete : r = 0 ∨ min (lastPlace quotientDigits (n / d)) 0 = -(places : ℤ)

/-- Where the last of the carried digits of a quotient stands, if the numerator was raised
    to make the first digit. -/
theorem lastPlace_raised (hn : 0 < n) (hd : 0 < d) {j : Nat} (hle : d ≤ n * 10 ^ j) :
    lastPlace quotientDigits (n / d) =
      digitCount (n * 10 ^ j / d) - j - (quotientDigits : ℤ) := by
  have hquotient : (n / d : ℚ) ≠ 0 := by positivity
  have hone : (1 : ℚ) ≤ (n * 10 ^ j : ℕ) / d := by
    rw [one_le_div (by positivity)]
    exact_mod_cast hle
  have hraised : (n / d : ℚ) * 10 ^ (j : ℤ) = (n * 10 ^ j : ℕ) / d := by
    push_cast
    rw [zpow_natCast]
    ring
  have hplace := lastPlace_mul_zpow hquotient quotientDigits j
  rw [hraised, lastPlace, abs_of_nonneg (by positivity), Int.log_of_one_le_right _ hone,
    Nat.floor_div_eq_div] at hplace
  rw [digitCount_eq]
  push_cast
  omega

theorem exists_divided (hn : 0 < n) (hd : 0 < d) :
    ∃ q r places, Divided n d q r places ∧
      divideNat n d = (if r ≠ 0 ∧ 5 ≤ r / d then q + 1 else q, places) := by
  have hfuel : d ≤ n * 10 ^ (d.log2 + 1) := by
    calc d ≤ 2 ^ (d.log2 + 1) := Nat.lt_log2_self.le
      _ ≤ 10 ^ (d.log2 + 1) := Nat.pow_le_pow_left (by decide) _
      _ ≤ n * 10 ^ (d.log2 + 1) := Nat.le_mul_of_pos_left _ hn
  obtain ⟨j, hraise, hle, hfirst⟩ := exists_raise hfuel 0
  have hrest : n * 10 ^ j % d * 10 < 10 * d := by
    have := Nat.mod_lt (n * 10 ^ j) hd
    omega
  obtain ⟨k, q, r, hdivide, hk, hstop, hr, hvalue⟩ :=
    exists_longDivide hd (quotientDigits - digitCount (n * 10 ^ j / d)) (n * 10 ^ j / d) 0 hrest
  have hplace := lastPlace_raised hn hd hle
  -- a numerator is only raised until there is one digit
  have hdigit : j = 0 ∨ digitCount (n * 10 ^ j / d) = 1 := by
    refine hfirst.imp_right fun hlt => ?_
    have hten : n * 10 ^ j / d < 10 := by rwa [Nat.div_lt_iff_lt_mul hd]
    rw [digitCount_eq, Nat.log_of_lt hten]
  have hdigits : quotientDigits = 100 := rfl
  refine ⟨q, r, j + k, ⟨?_, hr, ?_, ?_⟩, ?_⟩
  · have hparts : 10 * (n * 10 ^ j / d) * d + n * 10 ^ j % d * 10 = 10 * (n * 10 ^ j) := by
      conv_rhs => rw [← Nat.div_add_mod (n * 10 ^ j) d]
      ring
    rw [hvalue, hparts, pow_add]
    ring
  · rw [min_def]
    split <;> omega
  · rw [min_def]
    split <;> omega
  · simp only [divideNat, hraise, hdivide, Nat.zero_add]

section Divided

variable {q r places : Nat}

theorem Divided.div_zpow (h : Divided n d q r places) (hd : 0 < d) :
    (n / d : ℚ) / 10 ^ (-(places : ℤ)) = q + r / (10 * d) := by
  have hcast : (10 * q * d + r : ℚ) = 10 * n * 10 ^ places := by exact_mod_cast h.value
  rw [zpow_neg, zpow_natCast, div_inv_eq_mul]
  field_simp
  linarith

/-- The digit that would come next decides about the last one. -/
theorem Divided.floor_eq (h : Divided n d q r places) (hd : 0 < d) :
    ⌊(n / d : ℚ) / 10 ^ (-(places : ℤ)) + 1 / 2⌋ =
      (if r ≠ 0 ∧ 5 ≤ r / d then q + 1 else q : ℕ) := by
  have hlow : (0 : ℚ) ≤ r / (10 * d) := by positivity
  have hhigh : (r : ℚ) / (10 * d) < 1 := by
    rw [div_lt_one (by positivity)]
    exact_mod_cast h.rest_lt
  have hhalf : (r ≠ 0 ∧ 5 ≤ r / d) ↔ (1 / 2 : ℚ) ≤ r / (10 * d) := by
    have hcast : (1 / 2 * (10 * d) ≤ (r : ℚ)) ↔ 5 * d ≤ r := by
      rw [← Nat.cast_le (α := ℚ)]
      push_cast
      constructor <;> intro h <;> linarith
    rw [Nat.le_div_iff_mul_le hd, le_div_iff₀ (by positivity), hcast]
    omega
  rw [Int.floor_eq_iff, h.div_zpow hd]
  split
  · rename_i hup
    have := hhalf.mp hup
    constructor <;> push_cast <;> linarith
  · rename_i hdown
    have := lt_of_not_ge (mt hhalf.mpr hdown)
    constructor <;> push_cast <;> linarith

/-- Rounding at the last digit that was formed is rounding at the last one carried: they
    are the same, or there is nothing to round. -/
theorem Divided.nearest_eq (h : Divided n d q r places) (hd : 0 < d) :
    nearest (-places) (n / d) = nearest (min (lastPlace quotientDigits (n / d)) 0) (n / d) := by
  rcases h.complete with hzero | hplace
  · have hexact : Multiple (-(places : ℤ)) (n / d : ℚ) := by
      refine ⟨q, ?_⟩
      rw [← div_eq_iff (unit_pos _).ne', h.div_zpow hd, hzero]
      simp
    rw [hexact.nearest_eq, (hexact.mono h.carried).nearest_eq]
  · rw [hplace]

end Divided

/-- **Long division rounds the quotient.** -/
theorem value_divideNat (hn : 0 < n) (hd : 0 < d) :
    ((divideNat n d).1 : ℚ) * 10 ^ (-((divideNat n d).2 : ℤ)) =
      nearest (min (lastPlace quotientDigits (n / d)) 0) (n / d) := by
  obtain ⟨q, r, places, hdivided, hdivide⟩ := exists_divided hn hd
  have hpos : (0 : ℚ) < n / d := by positivity
  rw [← hdivided.nearest_eq hd, nearest_of_pos hpos, hdivided.floor_eq hd, hdivide]
  rfl

end LongDivision

/-! ### Quotients of decimals -/

/-- The exponent of the last digit to which the quotient of two decimals is carried. -/
def quotientPlace (a b : Decimal) : ℤ :=
  min (lastPlace quotientDigits (a.value / b.value)) (b.scale - a.scale)

/-- The quotient of two decimals with the digits to which it is carried.  Division by one
    keeps all digits. -/
def carried (a b : Decimal) : ℚ :=
  if b.value = 1 then a.value else nearest (quotientPlace a b) (a.value / b.value)

section Quotients

variable {a b : Decimal}

theorem carried_of_eq (h : b.value = 1) : carried a b = a.value := if_pos h

theorem carried_of_ne (h : b.value ≠ 1) :
    carried a b = nearest (quotientPlace a b) (a.value / b.value) := if_neg h

theorem abs_div_value (a b : Decimal) : |a.value / b.value| =
    (a.coefficient.natAbs / b.coefficient.natAbs : ℚ) * 10 ^ (b.scale - a.scale) := by
  rw [abs_div, abs_value, abs_value, mul_div_mul_comm, ← zpow_sub₀ (by norm_num)]
  congr 2
  ring

theorem sign_div_value (a b : Decimal) :
    (SignType.sign (a.value / b.value) : ℚ) = (a.coefficient.sign * b.coefficient.sign : ℤ) := by
  have hsign : ∀ d : Decimal, SignType.sign d.value = SignType.sign d.coefficient := by
    intro d
    rw [value, sign_mul, sign_pos (unit_pos _), mul_one, sign_intCast]
  have hinv : SignType.sign b.value⁻¹ = SignType.sign b.value := by
    rcases lt_trichotomy b.value 0 with h | h | h
    · rw [sign_neg h, sign_neg (inv_lt_zero.mpr h)]
    · rw [h, inv_zero]
    · rw [sign_pos h, sign_pos (inv_pos.mpr h)]
  rw [div_eq_mul_inv, sign_mul, hinv, hsign, hsign, Int.sign_eq_sign, Int.sign_eq_sign]
  push_cast
  simp

/-- **The quotient is the nearest number that ends with the digits carried.** -/
theorem value_quotient (hb : b.value ≠ 0) : (quotient a b).value = carried a b := by
  by_cases hone : b.value = 1
  · rw [carried_of_eq hone, quotient, isOne_iff.mpr hone, Bool.or_true, if_pos rfl]
  have hone' : b.isOne = false := by rw [← Bool.not_eq_true, isOne_iff]; exact hone
  rw [carried_of_ne hone, quotient, hone', Bool.or_false]
  split
  · rename_i hzero
    rw [isZero_iff.mp hzero, zero_div, nearest_zero]
  rename_i hzero
  have ha : a.coefficient ≠ 0 := by rwa [isZero_iff, value_eq_zero_iff] at hzero
  have hb' : b.coefficient ≠ 0 := mt value_eq_zero_iff.mpr hb
  by_cases hsame : a.coefficient = b.coefficient
  · -- equal coefficients leave a power of ten
    rw [if_pos hsame]
    have hquotient : a.value / b.value = 10 ^ (b.scale - a.scale) := by
      rw [value, value, hsame, mul_div_mul_left _ _ (by exact_mod_cast hb'),
        ← zpow_sub₀ (by norm_num)]
      congr 1
      ring
    rw [quotientPlace, hquotient, (Multiple.zpow (min_le_right _ _)).nearest_eq]
    simp
  · rw [if_neg hsame]
    have hn := Int.natAbs_pos.mpr ha
    have hd := Int.natAbs_pos.mpr hb'
    have hvalue := value_divideNat hn hd
    have hplace : quotientPlace a b =
        min (lastPlace quotientDigits (a.coefficient.natAbs / b.coefficient.natAbs)) 0 +
          (b.scale - a.scale) := by
      have hcoefficients : (a.coefficient.natAbs / b.coefficient.natAbs : ℚ) ≠ 0 := by positivity
      rw [quotientPlace, ← lastPlace_abs, abs_div_value, lastPlace_mul_zpow hcoefficients]
      omega
    rw [← sign_mul_nearest_abs, sign_div_value, hplace, abs_div_value, nearest_mul_zpow, ← hvalue,
      value_mk, neg_add, zpow_add₀ (by norm_num), neg_sub]
    push_cast
    ring

end Quotients

end CandidateSearch.Decimal
