/-
  CandidateSearch/Proofs/Decimal/Remainders.lean
  ==============================================
  **When the remainder is the remainder.**

  A remainder is formed from the whole part of the quotient, and the quotient has been
  rounded before its fraction is dropped.  If rounding reaches the next whole number, or
  the whole part is longer than the digits that are carried, a multiple of the divisor too
  many or too few is taken away:

      7.5 mod 2    is   1.5
      1e100 mod 7  is  -3           the quotient is 14285…714.57…, carried as 14285…715

  `rem_exact_iff` says when the result is right, for all numbers.  It always is if the
  dividend has fewer than a hundred digits up to the last place of either number.
-/
import CandidateSearch.Proofs.Decimal.Quotients
import CandidateSearch.Proofs.Decimal.Stepping
import Mathlib.Tactic.LinearCombination

namespace CandidateSearch.Decimal

/-! ### Whole parts of rounded numbers -/

/-- Rounding at a place keeps the whole part of a number: no digit of the whole part is
    given up, and to the next whole number more than half a unit is missing. -/
structure KeepsWhole (k : ℤ) (v : ℚ) : Prop where
  full : Multiple k ⌊|v|⌋
  short : k ≤ 0 → |v| + 10 ^ k / 2 < ⌊|v|⌋ + 1

section WholeParts

variable {k : ℤ} {v : ℚ}

theorem le_zpow_of_pos (h : 0 < k) : (10 : ℚ) ≤ 10 ^ k := by
  simpa using zpow_le_zpow_right₀ (a := (10 : ℚ)) (by norm_num) (show 1 ≤ k by omega)

theorem multiple_intCast (h : k ≤ 0) (n : ℤ) : Multiple k (n : ℚ) :=
  Multiple.mono ⟨n, by simp⟩ h

/-- Whole numbers are multiples of a unit that is at most one, so that only the next one
    can be reached. -/
theorem floor_nearest_eq_iff_lt (hk : k ≤ 0) (hv : 0 < v) :
    ⌊nearest k v⌋ = ⌊v⌋ ↔ v + 10 ^ k / 2 < ⌊v⌋ + 1 := by
  constructor
  · intro h
    have hbelow : nearest k v < ((⌊v⌋ + 1 : ℤ) : ℚ) := by
      rw [← h]
      push_cast
      exact Int.lt_floor_add_one _
    have hunit := (multiple_nearest k v).add_unit_le (multiple_intCast hk _) hbelow
    have hlt := lt_nearest_add (k := k) hv
    push_cast at hunit
    linarith
  · intro hshort
    rw [Int.floor_eq_iff]
    exact ⟨le_nearest hv (multiple_intCast hk _) (Int.floor_le v), (nearest_le hv).trans_lt hshort⟩

/-- Multiples of a larger unit are whole numbers. -/
theorem floor_nearest_eq_iff_multiple (hk : 0 < k) (hv : 0 < v) :
    ⌊nearest k v⌋ = ⌊v⌋ ↔ Multiple k ⌊v⌋ := by
  constructor
  · intro h
    obtain ⟨n, hn⟩ := (multiple_nearest k v).mono hk.le
    have hwhole : nearest k v = n := by simpa using hn
    rw [hwhole, Int.floor_intCast] at h
    rw [← h, ← hwhole]
    exact multiple_nearest k v
  · intro hfull
    have hnearest : nearest k v = ⌊v⌋ := by
      refine le_antisymm (le_of_not_gt fun hlt => ?_) (le_nearest hv hfull (Int.floor_le v))
      have hmore := hfull.add_unit_le (multiple_nearest k v) hlt
      have hle := nearest_le (k := k) hv
      have hnext := Int.lt_floor_add_one v
      have hten : (10 : ℚ) ≤ 10 ^ k := le_zpow_of_pos hk
      linarith
    rw [hnearest, Int.floor_intCast]

theorem floor_nearest_eq_iff (hv : 0 < v) : ⌊nearest k v⌋ = ⌊v⌋ ↔ KeepsWhole k v := by
  have habs := abs_of_pos hv
  rcases le_or_gt k 0 with hk | hk
  · rw [floor_nearest_eq_iff_lt hk hv]
    refine ⟨fun h => ⟨multiple_intCast hk _, fun _ => ?_⟩, fun h => ?_⟩
    · rwa [habs]
    · have hshort := h.short hk
      rwa [habs] at hshort
  · rw [floor_nearest_eq_iff_multiple hk hv]
    refine ⟨fun h => ⟨?_, fun hle => absurd hle (not_le.mpr hk)⟩, fun h => ?_⟩
    · rwa [habs]
    · have hfull := h.full
      rwa [habs] at hfull

theorem keepsWhole_neg : KeepsWhole k (-v) ↔ KeepsWhole k v := by
  constructor <;> rintro ⟨hfull, hshort⟩ <;> exact ⟨by simpa using hfull, by simpa using hshort⟩

theorem keepsWhole_zero (k : ℤ) : KeepsWhole k 0 := by
  refine ⟨⟨0, by simp⟩, fun hk => ?_⟩
  have hunit : (10 : ℚ) ^ k ≤ 1 := zpow_le_one_of_nonpos₀ (by norm_num) hk
  rw [abs_zero, Int.floor_zero]
  push_cast
  linarith

/-- The whole part of a ratio of integers survives if half a unit is less than one part of
    the denominator: the ratio misses the next whole number by one such part at least. -/
theorem keepsWhole_of_ratio {A B : ℤ} (hB : 0 < B) (hratio : |v| * B = A)
    (hlast : 10 ^ k * (B : ℚ) < 2) : KeepsWhole k v := by
  have hBpos : (0 : ℚ) < B := by exact_mod_cast hB
  have hBone : (1 : ℚ) ≤ B := by exact_mod_cast hB
  have hk : k ≤ 0 := by
    by_contra hpos
    have hten := mul_le_mul (le_zpow_of_pos (not_le.mp hpos)) hBone zero_le_one (unit_pos k).le
    linarith
  refine ⟨multiple_intCast hk _, fun _ => ?_⟩
  have hmiss : (A : ℚ) + 1 ≤ (⌊|v|⌋ + 1) * B := by
    have hlt : (A : ℚ) < (⌊|v|⌋ + 1) * B := by
      rw [← hratio]
      exact mul_lt_mul_of_pos_right (Int.lt_floor_add_one _) hBpos
    exact_mod_cast (show A < (⌊|v|⌋ + 1) * B by exact_mod_cast hlt)
  refine lt_of_mul_lt_mul_right ?_ hBpos.le
  rw [add_mul, hratio]
  linarith

/-- **Which whole parts survive rounding.** -/
theorem wholePart_nearest_eq_iff (k : ℤ) (v : ℚ) :
    wholePart (nearest k v) = wholePart v ↔ KeepsWhole k v := by
  have hpos : ∀ v : ℚ, 0 < v → (wholePart (nearest k v) = wholePart v ↔ KeepsWhole k v) := by
    intro v hv
    rw [wholePart_of_nonneg (nearest_nonneg hv), wholePart_of_nonneg hv.le,
      floor_nearest_eq_iff hv]
  rcases lt_trichotomy v 0 with hv | rfl | hv
  · rw [← keepsWhole_neg, ← hpos (-v) (neg_pos.mpr hv), nearest_neg, wholePart_neg, wholePart_neg,
      neg_inj]
  · simp [keepsWhole_zero]
  · exact hpos v hv

end WholeParts

/-! ### Remainders of rational numbers -/

/-- What is left of `x` after division by `y` toward zero. -/
def remainder (x y : ℚ) : ℚ := x - y * wholePart (x / y)

/-- `r` is the remainder of `x` divided by `y`. -/
structure IsRemainder (x y r : ℚ) : Prop where
  eq : r = remainder x y
  lt : |r| < |y|
  sign : r = 0 ∨ SignType.sign r = SignType.sign x
  multiple : ∃ n : ℤ, x - r = n * y

section Remainders

variable {x y r : ℚ}

theorem remainder_eq (hy : y ≠ 0) :
    remainder x y = y * (SignType.sign (x / y) * Int.fract |x / y|) := by
  have hquotient : x = y * (SignType.sign (x / y) * |x / y|) := by
    rw [sign_mul_abs, mul_div_cancel₀ _ hy]
  rw [remainder, wholePart, Int.fract]
  push_cast
  linear_combination hquotient

theorem isRemainder_remainder (hy : y ≠ 0) : IsRemainder x y (remainder x y) := by
  have hfract := Int.fract_nonneg |x / y|
  refine ⟨rfl, ?_, ?_, wholePart (x / y), by rw [remainder]; ring⟩
  · rw [remainder_eq hy, abs_mul, abs_mul, abs_of_nonneg hfract]
    refine mul_lt_of_lt_one_right (abs_pos.mpr hy) ?_
    have hsign : |(SignType.sign (x / y) : ℚ)| ≤ 1 := by
      cases SignType.sign (x / y) <;> simp
    exact (mul_le_of_le_one_left hfract hsign).trans_lt (Int.fract_lt_one _)
  · rcases hfract.eq_or_lt with hzero | hpos
    · exact Or.inl (by rw [remainder_eq hy, ← hzero, mul_zero, mul_zero])
    · refine Or.inr ?_
      rw [remainder_eq hy, ← mul_assoc, sign_mul, sign_pos hpos, mul_one, sign_mul]
      conv_rhs => rw [← mul_div_cancel₀ x hy, sign_mul]
      cases SignType.sign (x / y) <;> simp

/-- Rounding cuts off or adds at most a unit of the last digit. -/
theorem abs_roundTo_sub_le_unit (p : Nat) (v : ℚ) : |roundTo p v - v| ≤ 10 ^ lastPlace p v := by
  have hunit := unit_pos (lastPlace p v)
  have hquotient : v / 10 ^ lastPlace p v * 10 ^ lastPlace p v = v := div_mul_cancel₀ v hunit.ne'
  unfold roundTo
  generalize v / 10 ^ lastPlace p v = q at hquotient ⊢
  have hsub : ∀ n : ℤ, |(n : ℚ) * 10 ^ lastPlace p v - v| = |n - q| * 10 ^ lastPlace p v := by
    intro n
    rw [← abs_of_pos hunit, ← abs_mul, abs_of_pos hunit, sub_mul, hquotient]
  split
  · rw [hsub]
    refine mul_le_of_le_one_left hunit.le (abs_le.mpr ?_)
    have hlow := Int.lt_floor_add_one (q + 1 / 2)
    have hhigh := Int.floor_le (q + 1 / 2)
    constructor <;> linarith
  · rw [hsub]
    refine mul_le_of_le_one_left hunit.le (abs_le.mpr ?_)
    have hlow := Int.le_ceil q
    have hhigh := Int.ceil_lt_add_one q
    constructor <;> linarith

/-- A rounded number is close to the number, measured by its size. -/
theorem abs_roundTo_sub_le {p : Nat} {v : ℚ} (hv : v ≠ 0) :
    |roundTo p v - v| ≤ |v| * 10 ^ (1 - (p : ℤ)) := by
  refine (abs_roundTo_sub_le_unit p v).trans ?_
  have hfirst := zpow_le_abs hv (le_refl (lastPlace p v))
  rwa [← mul_le_mul_iff_left₀ (unit_pos (1 - (p : ℤ))), ← zpow_add₀ (by norm_num), add_assoc,
    sub_add_sub_cancel, sub_self, add_zero] at hfirst

/-- Rounding does not make up for a multiple of the divisor too many or too few. -/
theorem roundTo_add_mul_ne (hr : |r| < |y|) {n : ℤ} (hn : n ≠ 0) :
    roundTo precision (r + y * n) ≠ r := by
  intro heq
  have hone : (1 : ℚ) ≤ |(n : ℚ)| := by exact_mod_cast Int.one_le_abs hn
  have hy : |y| ≤ |y * n| := by
    rw [abs_mul]
    exact le_mul_of_one_le_right (abs_nonneg y) hone
  have hsum : r + y * n ≠ 0 := fun h => by
    have hback : r = -(y * n) := by linear_combination h
    rw [hback, abs_neg] at hr
    linarith
  have herror := abs_roundTo_sub_le (p := precision) hsum
  rw [heq, sub_add_cancel_left, abs_neg] at herror
  have hsize := abs_add_le r (y * n)
  have hsmall : (10 : ℚ) ^ (1 - (precision : ℤ)) ≤ 1 / 10 := by
    rw [precision]
    norm_num
  have hpos : 0 ≤ |r + y * n| := abs_nonneg _
  have := mul_le_mul_of_nonneg_left hsmall hpos
  have := (abs_nonneg r).trans_lt hr
  linarith

end Remainders

/-! ### Remainders of decimals -/

section Decimals

variable {a b : Decimal}

theorem exists_rem (hb : b.value ≠ 0) :
    ∃ r, a.rem? b = .ok r ∧
      r.value = roundTo precision (a.value - b.value * wholePart (quotient a b).value) := by
  have hzero : ¬ b.isZero = true := by rwa [isZero_iff]
  refine ⟨_, by rw [rem?, if_neg hzero], ?_⟩
  rw [round, value_toPrecision, value_exactSub, value_times, value_truncate]

theorem wholePart_quotient_eq_iff (hb : b.value ≠ 0) :
    wholePart (quotient a b).value = wholePart (a.value / b.value) ↔
      b.value = 1 ∨ KeepsWhole (quotientPlace a b) (a.value / b.value) := by
  rw [value_quotient hb]
  by_cases hone : b.value = 1
  · rw [carried_of_eq hone, hone, div_one]
    exact iff_of_true rfl (Or.inl rfl)
  · rw [carried_of_ne hone, wholePart_nearest_eq_iff, or_iff_right hone]

/-- A dividend of fewer than a hundred digits leaves room for all digits of the whole part,
    and the fraction of the quotient is far enough from the next whole number. -/
theorem keepsWhole_of_lt (hb : b.value ≠ 0)
    (h : |a.value| * 10 ^ max a.scale b.scale < 2 * 10 ^ (quotientDigits - 1)) :
    KeepsWhole (quotientPlace a b) (a.value / b.value) := by
  rcases eq_or_ne a.value 0 with ha | ha
  · rw [ha, zero_div]
    exact keepsWhole_zero _
  -- both numbers in units of the smaller of their last places
  obtain ⟨A, hA⟩ : ∃ A : ℤ, (A : ℚ) = a.value * 10 ^ max a.scale b.scale :=
    ⟨_, coefficientAt_eq (le_max_left a.scale b.scale)⟩
  obtain ⟨B, hB⟩ : ∃ B : ℤ, (B : ℚ) = b.value * 10 ^ max a.scale b.scale :=
    ⟨_, coefficientAt_eq (le_max_right a.scale b.scale)⟩
  have hunit := unit_pos (max a.scale b.scale)
  have hpos : 0 < |B| := by
    rw [abs_pos, ← Int.cast_ne_zero (α := ℚ), hB]
    exact mul_ne_zero hb hunit.ne'
  have hratio : |a.value / b.value| * (|B| : ℤ) = (|A| : ℤ) := by
    rw [Int.cast_abs, Int.cast_abs, hA, hB, ← abs_mul, ← mul_assoc, div_mul_cancel₀ _ hb]
  have hlast : 10 ^ (quotientPlace a b + (quotientDigits - 1)) ≤ |a.value / b.value| :=
    zpow_le_abs (div_ne_zero ha hb) (min_le_left _ _)
  refine keepsWhole_of_ratio hpos hratio ?_
  have hdigits : (0 : ℚ) < 10 ^ (quotientDigits - 1) := by positivity
  refine lt_of_mul_lt_mul_right ?_ hdigits.le
  calc 10 ^ quotientPlace a b * ((|B| : ℤ) : ℚ) * 10 ^ (quotientDigits - 1)
      = 10 ^ (quotientPlace a b + (quotientDigits - 1)) * (|B| : ℤ) := by
        rw [zpow_add₀ (by norm_num), mul_right_comm]
        rfl
    _ ≤ |a.value / b.value| * (|B| : ℤ) := by gcongr
    _ = |a.value| * 10 ^ max a.scale b.scale := by
        rw [hratio, Int.cast_abs, hA, abs_mul, abs_of_pos hunit]
    _ < 2 * 10 ^ (quotientDigits - 1) := h

/-- **Remainders.**  If the remainder fits into the digits of programs, the result is the
    remainder exactly if the divisor is one or the whole part of the quotient survives the
    rounding of the quotient.  This is so if the dividend has fewer than a hundred digits
    up to the last place of either number. -/
theorem rem_exact_iff (hb : b.value ≠ 0)
    (hdigits : HasDigits precision (remainder a.value b.value)) :
    ∃ r, a.rem? b = .ok r ∧
      (IsRemainder a.value b.value r.value ↔
        b.value = 1 ∨ KeepsWhole (quotientPlace a b) (a.value / b.value)) ∧
      (|a.value| * 10 ^ max a.scale b.scale < 2 * 10 ^ (quotientDigits - 1) →
        IsRemainder a.value b.value r.value) := by
  obtain ⟨r, hrem, hvalue⟩ := exists_rem (a := a) hb
  have hremainder := isRemainder_remainder (x := a.value) hb
  have hiff : IsRemainder a.value b.value r.value ↔
      b.value = 1 ∨ KeepsWhole (quotientPlace a b) (a.value / b.value) := by
    rw [← wholePart_quotient_eq_iff hb]
    refine ⟨fun h => ?_, fun h => ?_⟩
    · by_contra hne
      have hshift : a.value - b.value * wholePart (quotient a b).value =
          remainder a.value b.value +
            b.value * (wholePart (a.value / b.value) - wholePart (quotient a b).value : ℤ) := by
        rw [remainder]
        push_cast
        ring
      rw [hshift] at hvalue
      exact roundTo_add_mul_ne hremainder.lt (sub_ne_zero.mpr (Ne.symm hne))
        (hvalue.symm.trans h.eq)
    · rw [h] at hvalue
      have hexact : r.value = remainder a.value b.value := hvalue.trans hdigits.roundTo_eq
      rwa [hexact]
  exact ⟨r, hrem, hiff, fun h => hiff.mpr (Or.inr (keepsWhole_of_lt hb h))⟩

end Decimals

theorem rem_exact_iff_googol :
    HasDigits precision (remainder (10 ^ 100) 7) ∧
      ∃ r, (⟨1, -100⟩ : Decimal).rem? ⟨7, 0⟩ = .ok r ∧ r.value = -3 ∧
        ¬ IsRemainder (10 ^ 100) 7 r.value := by
  have ha : (⟨1, -100⟩ : Decimal).value = 10 ^ 100 := by norm_num [value]
  have hb : (⟨7, 0⟩ : Decimal).value = 7 := by norm_num [value]
  have hfloor : ⌊(10 ^ 100 / 7 : ℚ)⌋ = (10 ^ 100 - 4) / 7 := by
    rw [Int.floor_eq_iff]
    norm_num
  have hremainder : remainder (10 ^ 100) 7 = 4 := by
    rw [remainder, wholePart_of_nonneg (by positivity), hfloor]
    norm_num
  have hdigits : HasDigits precision (remainder (10 ^ 100) 7) := by
    rw [hremainder]
    exact ⟨0, ⟨4, by norm_num⟩, by norm_num [precision]⟩
  have hlog : Int.log 10 |(10 ^ 100 / 7 : ℚ)| = 99 := log_eq_of_mem (by norm_num) (by norm_num)
  have hplace : quotientPlace ⟨1, -100⟩ ⟨7, 0⟩ = 0 := by
    rw [quotientPlace, ha, hb, lastPlace, hlog, quotientDigits]
    rfl
  obtain ⟨r, hrem, hiff, -⟩ := rem_exact_iff (a := ⟨1, -100⟩) (b := ⟨7, 0⟩)
    (by rw [hb]; norm_num) (by rwa [ha, hb])
  rw [ha, hb, hplace] at hiff
  refine ⟨hdigits, r, hrem, ?_, fun h => ?_⟩
  · have hresult : (⟨1, -100⟩ : Decimal).rem? ⟨7, 0⟩ = .ok ⟨-30000000000000000000, 19⟩ := by
      decide +kernel
    rw [hresult] at hrem
    cases hrem
    norm_num [value]
  · have hkeeps := (hiff.mp h).resolve_left (by norm_num)
    have hshort := hkeeps.short le_rfl
    rw [abs_of_pos (by positivity), hfloor] at hshort
    norm_num at hshort

end CandidateSearch.Decimal
