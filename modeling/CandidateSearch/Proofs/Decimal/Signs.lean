/-
  CandidateSearch/Proofs/Decimal/Signs.lean
  =========================================
  **Negation and rounding.**

  Positive results are rounded half up and negative ones toward zero, so an operation on
  negated operands gives the negated result only if less than half a unit is cut off:

       2 / 3  ⟶   0.66666666666666666667
      -2 / 3  ⟶  -0.66666666666666666666

  `gap` is what lies between the two, a unit of the last digit or nothing.  It is the same
  for all operations, since all of them round in the end (`negated_operations`).  Whether
  the dividend or the divisor is negated makes no difference, unless the divisor is one or
  minus one and the dividend has more digits than are carried: division by one is exact and
  division by minus one is not.
-/
import CandidateSearch.Proofs.Decimal.Quotients

namespace CandidateSearch.Decimal

/-! ### Rounding a number and its negation -/

/-- What rounding leaves between a number and its negation: a unit of the last digit, if
    the digits that are cut off make up half a unit or more. -/
def gap (p : Nat) (v : ℚ) : ℚ :=
  if Int.fract (|v| / 10 ^ lastPlace p v) < 1 / 2 then 0 else 10 ^ lastPlace p v

theorem gap_neg (p : Nat) (v : ℚ) : gap p (-v) = gap p v := by
  rw [gap, gap, lastPlace_neg, abs_neg]

theorem floor_add_half (x : ℚ) :
    ⌊x + 1 / 2⌋ = ⌊x⌋ + if Int.fract x < 1 / 2 then 0 else 1 := by
  have hlow := Int.fract_nonneg x
  have hhigh := Int.fract_lt_one x
  have hparts := Int.floor_add_fract x
  rw [Int.floor_eq_iff]
  split <;> constructor <;> push_cast <;> linarith

/-- **A number and its negation are rounded apart by the gap.** -/
theorem roundTo_neg (p : Nat) (v : ℚ) : roundTo p (-v) = -roundTo p v + gap p v := by
  have hpos : ∀ v : ℚ, 0 < v → roundTo p (-v) = -roundTo p v + gap p v := by
    intro v hv
    rw [roundTo, if_neg (by linarith), roundTo, if_pos hv, lastPlace_neg, neg_div, Int.ceil_neg,
      floor_add_half, gap, abs_of_pos hv]
    push_cast
    split <;> ring
  rcases lt_trichotomy v 0 with hv | rfl | hv
  · have hflip := hpos (-v) (neg_pos.mpr hv)
    rw [neg_neg, gap_neg] at hflip
    linarith
  · simp [roundTo, gap]
  · exact hpos v hv

/-! ### Quotients of negated numbers -/

section Quotients

variable {a b : Decimal}

theorem exists_div (hb : b.value ≠ 0) :
    ∃ q, a.div? b = .ok q ∧ q.value = roundTo precision (carried a b) := by
  have hzero : ¬ b.isZero = true := by rwa [isZero_iff]
  refine ⟨_, by rw [div?, if_neg hzero], ?_⟩
  rw [round, value_toPrecision, value_quotient hb]

theorem quotientPlace_neg_left (a b : Decimal) : quotientPlace a.neg b = quotientPlace a b := by
  rw [quotientPlace, quotientPlace, value_neg, neg_div, lastPlace_neg]
  rfl

theorem quotientPlace_neg_right (a b : Decimal) : quotientPlace a b.neg = quotientPlace a b := by
  rw [quotientPlace, quotientPlace, value_neg, div_neg, lastPlace_neg]
  rfl

theorem carried_neg_left (a b : Decimal) : carried a.neg b = -carried a b := by
  rw [carried, carried, value_neg, quotientPlace_neg_left, neg_div, nearest_neg]
  split <;> rfl

/-- A dividend that is not longer than the digits carried is divided by one, or minus one,
    without loss. -/
theorem nearest_quotientPlace (hdigits : a.digits ≤ quotientDigits) (hb : |b.value| = 1) :
    nearest (quotientPlace a b) (a.value / b.value) = a.value / b.value := by
  rcases eq_or_ne a.coefficient 0 with ha | ha
  · rw [value_eq_zero_iff.mpr ha, zero_div, nearest_zero]
  have hplace : quotientPlace a b ≤ -a.scale := by
    refine (min_le_left _ _).trans ?_
    rw [← lastPlace_abs, abs_div, hb, div_one, lastPlace_abs, lastPlace_value ha, leading]
    omega
  refine Multiple.nearest_eq (Multiple.mono ?_ hplace)
  rcases abs_eq (zero_le_one) |>.mp hb with hone | hone
  · rw [hone, div_one]
    exact multiple_value a
  · exact ⟨-a.coefficient, by rw [hone, value]; push_cast; ring⟩

theorem carried_neg_right (h : |b.value| ≠ 1 ∨ a.digits ≤ quotientDigits) :
    carried a b.neg = -carried a b := by
  by_cases hb : |b.value| = 1
  · have hexact : ∀ c : Decimal, |c.value| = 1 → carried a c = a.value / c.value := by
      intro c hc
      by_cases hone : c.value = 1
      · rw [carried_of_eq hone, hone, div_one]
      · rw [carried_of_ne hone, nearest_quotientPlace (h.resolve_left (not_not.mpr hb)) hc]
    rw [hexact b hb, hexact b.neg (by rwa [value_neg, abs_neg]), value_neg, div_neg]
  · have hone : b.value ≠ 1 := fun h => hb (by rw [h, abs_one])
    have hone' : b.neg.value ≠ 1 := fun h => hb (by rw [← abs_neg, ← value_neg, h, abs_one])
    rw [carried_of_ne hone, carried_of_ne hone', quotientPlace_neg_right, value_neg, div_neg,
      nearest_neg]

end Quotients

/-- **Operations on negated operands.**  The result is the negated result and the gap that
    rounding leaves.  A quotient is the same with the sign at the dividend and with the
    sign at the divisor, unless this is one or minus one and the dividend is longer than
    the digits carried; what it is in that case follows from the digits carried, too. -/
theorem negated_operations (a b : Decimal) :
    (a.neg.add b.neg).value = -(a.add b).value + gap precision (a.value + b.value) ∧
    (a.sub b).value = -(b.sub a).value + gap precision (b.value - a.value) ∧
    (a.neg.mul b).value = -(a.mul b).value + gap precision (a.value * b.value) ∧
    (b.value ≠ 0 → ∃ q left right,
      a.div? b = .ok q ∧ a.neg.div? b = .ok left ∧ a.div? b.neg = .ok right ∧
      left.value = -q.value + gap precision (carried a b) ∧
      right.value = roundTo precision (carried a b.neg) ∧
      (|b.value| ≠ 1 ∨ a.digits ≤ quotientDigits → right.value = left.value)) := by
  refine ⟨?_, ?_, ?_, fun hb => ?_⟩
  · rw [value_add, value_add, value_neg, value_neg, ← neg_add, roundTo_neg]
  · rw [value_sub, value_sub, ← neg_sub, roundTo_neg]
  · rw [value_mul, value_mul, value_neg, neg_mul, roundTo_neg]
  · obtain ⟨q, hq, hvalue⟩ := exists_div (a := a) hb
    obtain ⟨left, hleft, hvalue'⟩ := exists_div (a := a.neg) hb
    obtain ⟨right, hright, hvalue''⟩ := exists_div (a := a) (b := b.neg)
      (by rw [value_neg]; exact neg_ne_zero.mpr hb)
    refine ⟨q, left, right, hq, hleft, hright, ?_, hvalue'', fun h => ?_⟩
    · rw [hvalue', hvalue, carried_neg_left, roundTo_neg]
    · rw [hvalue'', hvalue', carried_neg_left, carried_neg_right h]

theorem negated_operations_twoThirds :
    (⟨2, 0⟩ : Decimal).div? ⟨3, 0⟩ = .ok ⟨66666666666666666667, 20⟩ ∧
      (⟨-2, 0⟩ : Decimal).div? ⟨3, 0⟩ = .ok ⟨-66666666666666666666, 20⟩ ∧
      gap precision (carried ⟨2, 0⟩ ⟨3, 0⟩) = 10 ^ (-20 : ℤ) := by
  have hq : (⟨2, 0⟩ : Decimal).div? ⟨3, 0⟩ = .ok ⟨66666666666666666667, 20⟩ := by decide +kernel
  have hleft : (⟨-2, 0⟩ : Decimal).div? ⟨3, 0⟩ = .ok ⟨-66666666666666666666, 20⟩ := by
    decide +kernel
  refine ⟨hq, hleft, ?_⟩
  obtain ⟨-, -, -, hdiv⟩ := negated_operations ⟨2, 0⟩ ⟨3, 0⟩
  obtain ⟨q, left, right, hq', hleft', -, hgap, -⟩ := hdiv (by norm_num [value])
  cases hq.symm.trans hq'
  cases hleft.symm.trans hleft'
  norm_num [value] at hgap ⊢
  linarith

end CandidateSearch.Decimal
