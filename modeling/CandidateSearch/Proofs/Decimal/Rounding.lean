/-
  CandidateSearch/Proofs/Decimal/Rounding.lean
  ============================================
  **What rounding does to values.**

  `roundTo p` is rounding to `p` digits on rational numbers: to a multiple of the unit of
  the last digit kept, half up for a positive number and toward zero for a negative one.
  `toPrecision` rounds the value in this way (`value_toPrecision`), and how the result is
  written depends on the value alone (`toPrecision_congr`).

  No rounding leads to smaller units (`Multiple.roundTo`), and a number that fits into the
  digits is left alone (`Multiple.roundTo_eq`).
-/
import CandidateSearch.Proofs.Decimal.Values

namespace CandidateSearch.Decimal

open Number

/-! ### Multiples of a unit -/

/-- A whole number of units of `10 ^ k`. -/
def Multiple (k : ℤ) (v : ℚ) : Prop := ∃ n : ℤ, v = n * 10 ^ k

theorem multiple_value (d : Decimal) : Multiple (-d.scale) d.value := ⟨d.coefficient, rfl⟩

namespace Multiple

variable {k j : ℤ} {v w : ℚ}

theorem mono (h : Multiple k v) (hj : j ≤ k) : Multiple j v := by
  obtain ⟨n, rfl⟩ := h
  refine ⟨n * 10 ^ (k - j).toNat, ?_⟩
  have hexponent : ((k - j).toNat : ℤ) = k - j := Int.toNat_of_nonneg (by omega)
  push_cast
  rw [← zpow_natCast, hexponent, mul_assoc, ← zpow_add₀ (by norm_num), sub_add_cancel]

theorem add (hv : Multiple k v) (hw : Multiple k w) : Multiple k (v + w) := by
  obtain ⟨m, rfl⟩ := hv
  obtain ⟨n, rfl⟩ := hw
  exact ⟨m + n, by push_cast; ring⟩

theorem natCast_mul (hv : Multiple k v) (n : Nat) : Multiple k (n * v) := by
  obtain ⟨m, rfl⟩ := hv
  exact ⟨n * m, by push_cast; ring⟩

theorem zpow (h : k ≤ j) : Multiple k (10 ^ j : ℚ) := mono ⟨1, by simp⟩ h

/-- Different multiples are a unit apart. -/
theorem add_unit_le (hv : Multiple k v) (hw : Multiple k w) (h : v < w) : v + 10 ^ k ≤ w := by
  obtain ⟨m, rfl⟩ := hv
  obtain ⟨n, rfl⟩ := hw
  have hlt : m < n := by exact_mod_cast lt_of_mul_lt_mul_right h (unit_pos k).le
  have hsucc : (m + 1 : ℚ) ≤ n := by exact_mod_cast hlt
  calc (m * 10 ^ k + 10 ^ k : ℚ) = (m + 1) * 10 ^ k := by ring
    _ ≤ n * 10 ^ k := mul_le_mul_of_nonneg_right hsucc (unit_pos k).le

end Multiple

/-! ### Rounding on rational numbers -/

/-- The exponent of the last of `p` digits. -/
def lastPlace (p : Nat) (v : ℚ) : ℤ := Int.log 10 |v| + 1 - p

/-- `v` with `p` digits. -/
def roundTo (p : Nat) (v : ℚ) : ℚ :=
  if 0 < v then ⌊v / 10 ^ lastPlace p v + 1 / 2⌋ * 10 ^ lastPlace p v
  else ⌈v / 10 ^ lastPlace p v⌉ * 10 ^ lastPlace p v

theorem multiple_lastPlace (p : Nat) (v : ℚ) : Multiple (lastPlace p v) (roundTo p v) := by
  unfold roundTo
  split
  · exact ⟨_, rfl⟩
  · exact ⟨_, rfl⟩

theorem lastPlace_le_iff {p : Nat} {v : ℚ} (hv : v ≠ 0) {k : ℤ} :
    lastPlace p v ≤ k ↔ |v| < 10 ^ (p + k) := by
  have hlog := Int.lt_zpow_iff_log_lt (b := 10) (x := p + k) (by decide) (abs_pos.mpr hv)
  rw [Nat.cast_ofNat] at hlog
  rw [hlog, lastPlace]
  omega

namespace Multiple

variable {k : ℤ} {v : ℚ} {p : Nat}

theorem roundTo_eq_of_lastPlace (h : Multiple (lastPlace p v) v) : roundTo p v = v := by
  obtain ⟨n, hn⟩ := h
  have hquotient : v / 10 ^ lastPlace p v = n := (div_eq_iff (unit_pos _).ne').mpr hn
  unfold roundTo
  rw [hquotient, Int.ceil_intCast, Int.floor_intCast_add]
  norm_num
  exact hn.symm

/-- **A number that fits into the digits is left alone.** -/
theorem roundTo_eq (h : Multiple k v) (hlt : |v| < 10 ^ (p + k)) : roundTo p v = v := by
  rcases eq_or_ne v 0 with rfl | hv
  · exact roundTo_eq_of_lastPlace ⟨0, by simp⟩
  · exact roundTo_eq_of_lastPlace (h.mono ((lastPlace_le_iff hv).mpr hlt))

/-- **Rounding does not lead to smaller units.** -/
theorem roundTo (h : Multiple k v) : Multiple k (Decimal.roundTo p v) := by
  rcases le_total (lastPlace p v) k with hplace | hplace
  · rwa [roundTo_eq_of_lastPlace (h.mono hplace)]
  · exact (multiple_lastPlace p v).mono hplace

end Multiple

/-- A number that can be written with `p` significant digits. -/
def HasDigits (p : Nat) (v : ℚ) : Prop := ∃ k, Multiple k v ∧ |v| < 10 ^ (p + k)

theorem HasDigits.roundTo_eq {p : Nat} {v : ℚ} (h : HasDigits p v) : roundTo p v = v := by
  obtain ⟨k, hmultiple, hlt⟩ := h
  exact hmultiple.roundTo_eq hlt

/-! ### Bounds -/

section Bounds

variable {p : Nat} {v : ℚ}

/-- A number that is not positive is rounded toward zero. -/
theorem roundTo_mem_of_nonpos (h : v ≤ 0) : v ≤ roundTo p v ∧ roundTo p v ≤ 0 := by
  have hunit := unit_pos (lastPlace p v)
  rw [roundTo, if_neg h.not_gt]
  refine ⟨?_, mul_nonpos_of_nonpos_of_nonneg ?_ hunit.le⟩
  · rw [← div_le_iff₀ hunit]
    exact Int.le_ceil _
  · have hceil : ⌈v / 10 ^ lastPlace p v⌉ ≤ 0 :=
      Int.ceil_le.mpr (by simpa using div_nonpos_of_nonpos_of_nonneg h hunit.le)
    exact_mod_cast hceil

/-- Less than half a unit is lost. -/
theorem lt_roundTo_add_half (h : 0 < v) : v < roundTo p v + 10 ^ lastPlace p v / 2 := by
  have hunit := unit_pos (lastPlace p v)
  have hfloor := Int.lt_floor_add_one (v / 10 ^ lastPlace p v + 1 / 2)
  rw [roundTo, if_pos h]
  calc v = v / 10 ^ lastPlace p v * 10 ^ lastPlace p v := (div_mul_cancel₀ v hunit.ne').symm
    _ < (⌊v / 10 ^ lastPlace p v + 1 / 2⌋ + 1 / 2) * 10 ^ lastPlace p v :=
        mul_lt_mul_of_pos_right (by linarith) hunit
    _ = _ := by ring

/-- What is at least a multiple of the unit stays so. -/
theorem le_roundTo {w : ℚ} (h : 0 < v) (hw : Multiple (lastPlace p v) w) (hle : w ≤ v) :
    w ≤ roundTo p v := by
  have hunit := unit_pos (lastPlace p v)
  obtain ⟨n, rfl⟩ := hw
  have hn : (n : ℚ) ≤ v / 10 ^ lastPlace p v := (le_div_iff₀ hunit).mpr hle
  have hfloor : n ≤ ⌊v / 10 ^ lastPlace p v + 1 / 2⌋ := Int.le_floor.mpr (by linarith)
  rw [roundTo, if_pos h]
  exact mul_le_mul_of_nonneg_right (by exact_mod_cast hfloor) hunit.le

/-- What is less than half a unit above a multiple does not get above it. -/
theorem roundTo_le {w : ℚ} (h : 0 < v) (hw : Multiple (lastPlace p v) w)
    (hlt : v < w + 10 ^ lastPlace p v / 2) : roundTo p v ≤ w := by
  have hunit := unit_pos (lastPlace p v)
  obtain ⟨n, rfl⟩ := hw
  have hn : v / 10 ^ lastPlace p v < n + 1 / 2 := by
    rw [div_lt_iff₀ hunit]
    linarith
  have hfloor : ⌊v / 10 ^ lastPlace p v + 1 / 2⌋ < n + 1 :=
    Int.floor_lt.mpr (by push_cast; linarith)
  rw [roundTo, if_pos h]
  exact mul_le_mul_of_nonneg_right (by exact_mod_cast Int.lt_add_one_iff.mp hfloor) hunit.le

end Bounds

/-! ### Rounding decimals -/

theorem lastPlace_value {d : Decimal} (h : d.coefficient ≠ 0) (p : Nat) :
    lastPlace p d.value = d.leading - p := by
  rw [lastPlace, leading_eq h]

section Cut

variable (c : Int) (n : Nat)

/-- The part of a unit that is cut off. -/
theorem div_eq_tdiv_add : (c : ℚ) / 10 ^ n = c.tdiv (tenTo n) + c.tmod (tenTo n) / 10 ^ n := by
  have hunit : (10 : ℚ) ^ n ≠ 0 := by positivity
  have hparts : ((tenTo n * c.tdiv (tenTo n) + c.tmod (tenTo n) : Int) : ℚ) = c :=
    congrArg _ (Int.mul_tdiv_add_tmod c (tenTo n))
  rw [tenTo_eq] at hparts ⊢
  push_cast at hparts ⊢
  rw [← hparts, add_div, mul_div_cancel_left₀ _ hunit]

theorem tdiv_eq_ceil (h : c ≤ 0) : c.tdiv (tenTo n) = ⌈(c : ℚ) / 10 ^ n⌉ := by
  have hunit : (0 : ℚ) < 10 ^ n := by positivity
  have hpos : (0 : Int) < tenTo n := by exact_mod_cast tenTo_pos n
  -- the rest has the sign of the coefficient
  have hrest : c.tmod (tenTo n) = -((-c).tmod (tenTo n)) := by rw [Int.neg_tmod, neg_neg]
  have hhigh : c.tmod (tenTo n) ≤ 0 := by
    rw [hrest]
    have := Int.tmod_nonneg (tenTo n : Int) (show 0 ≤ -c by omega)
    omega
  have hlow : -(tenTo n : Int) < c.tmod (tenTo n) := by
    rw [hrest]
    have := Int.tmod_lt_of_pos (-c) hpos
    omega
  refine (Int.ceil_eq_iff.mpr ⟨?_, ?_⟩).symm
  · have hcast : -(10 : ℚ) ^ n < c.tmod (tenTo n) := by exact_mod_cast hlow
    rw [div_eq_tdiv_add]
    have := (lt_div_iff₀ hunit).mpr (by linarith : (-1 : ℚ) * 10 ^ n < c.tmod (tenTo n))
    linarith
  · rw [div_eq_tdiv_add]
    have := div_nonpos_of_nonpos_of_nonneg (Int.cast_nonpos.mpr hhigh) hunit.le
    linarith

theorem tdiv_eq_floor (h : 0 ≤ c) :
    (if tenTo n ≤ 2 * c.tmod (tenTo n) then c.tdiv (tenTo n) + 1 else c.tdiv (tenTo n)) =
      ⌊(c : ℚ) / 10 ^ n + 1 / 2⌋ := by
  have hunit : (0 : ℚ) < 10 ^ n := by positivity
  have hpos : (0 : Int) < tenTo n := by exact_mod_cast tenTo_pos n
  have hlow : 0 ≤ (c.tmod (tenTo n) : ℚ) / 10 ^ n :=
    div_nonneg (by exact_mod_cast Int.tmod_nonneg _ h) hunit.le
  have hhigh : (c.tmod (tenTo n) : ℚ) / 10 ^ n < 1 := by
    rw [div_lt_one hunit]
    exact_mod_cast Int.tmod_lt_of_pos c hpos
  have hhalf : (tenTo n : Int) ≤ 2 * c.tmod (tenTo n) ↔
      1 / 2 ≤ (c.tmod (tenTo n) : ℚ) / 10 ^ n := by
    rw [le_div_iff₀ hunit, ← Int.cast_le (R := ℚ), tenTo_eq]
    push_cast
    constructor <;> intro h <;> linarith
  symm
  rw [Int.floor_eq_iff, div_eq_tdiv_add]
  split
  · rename_i hup
    have := hhalf.mp hup
    constructor <;> push_cast <;> linarith
  · rename_i hdown
    have := lt_of_not_ge (mt hhalf.mpr hdown)
    constructor <;> linarith

end Cut

/-- Cutting off digits: half up above zero, and up to the next multiple elsewhere. -/
theorem coefficient_cut (d : Decimal) (n : Nat) :
    (d.cut n).coefficient =
      if 0 < d.coefficient then ⌊(d.coefficient : ℚ) / 10 ^ n + 1 / 2⌋
      else ⌈(d.coefficient : ℚ) / 10 ^ n⌉ := by
  simp only [cut]
  by_cases hpos : 0 < d.coefficient
  · simp only [hpos, true_and, if_true]
    exact tdiv_eq_floor d.coefficient n hpos.le
  · simp only [hpos, false_and, if_false]
    exact tdiv_eq_ceil d.coefficient n (not_lt.mp hpos)

theorem value_cut {d : Decimal} (h : d.coefficient ≠ 0) {p : Nat} (hp : p < d.digits) :
    (d.cut (d.digits - p)).value = roundTo p d.value := by
  have hplace : lastPlace p d.value = (d.digits - p : ℕ) - d.scale := by
    rw [lastPlace_value h, leading]
    omega
  have hquotient : d.value / 10 ^ lastPlace p d.value = d.coefficient / 10 ^ (d.digits - p) := by
    rw [hplace, value, zpow_sub₀ (by norm_num), zpow_natCast, zpow_neg]
    field_simp
  have hscale : -(d.cut (d.digits - p)).scale = lastPlace p d.value := by
    rw [hplace]
    simp only [cut]
    omega
  rw [value, hscale, coefficient_cut, roundTo, hquotient]
  simp only [value_pos_iff]
  split <;> rfl

/-- **Rounding a decimal rounds its value.** -/
theorem value_toPrecision (d : Decimal) (p : Nat) :
    (d.toPrecision p).value = roundTo p d.value := by
  rcases eq_or_ne d.coefficient 0 with hzero | h
  · have hvalue := value_eq_zero_iff.mpr hzero
    rw [hvalue, Multiple.roundTo_eq_of_lastPlace ⟨0, by simp⟩, toPrecision]
    split
    · rw [value_eq_zero_iff]
      simp [cut, hzero]
    · rw [value_pad, hvalue]
  · rw [toPrecision]
    split
    · rename_i hp
      exact value_cut h hp
    · rename_i hp
      have hlt : |d.value| < 10 ^ (p + -d.scale) := by
        rw [← leading_le_iff h, leading]
        omega
      rw [value_pad, (multiple_value d).roundTo_eq hlt]

theorem scale_toPrecision (d : Decimal) (p : Nat) :
    (d.toPrecision p).scale = p - d.leading := by
  unfold toPrecision leading
  split
  · simp only [cut]
    omega
  · simp only [pad]
    omega

/-- **Rounded decimals of one value are written alike.** -/
theorem toPrecision_congr {a b : Decimal} (h : a.value = b.value) (hne : a.value ≠ 0) (p : Nat) :
    a.toPrecision p = b.toPrecision p := by
  have ha := mt value_eq_zero_iff.mpr hne
  have hb := mt value_eq_zero_iff.mpr (h ▸ hne)
  have hscale : (a.toPrecision p).scale = (b.toPrecision p).scale := by
    rw [scale_toPrecision, scale_toPrecision, leading_eq ha, leading_eq hb, h]
  have hvalue : (a.toPrecision p).value = (b.toPrecision p).value := by
    rw [value_toPrecision, value_toPrecision, h]
  rw [value, value, hscale, mul_left_inj' (unit_pos _).ne', Int.cast_inj] at hvalue
  cases ha' : a.toPrecision p
  cases hb' : b.toPrecision p
  simp_all

theorem value_add (a b : Decimal) : (a.add b).value = roundTo precision (a.value + b.value) := by
  rw [add, round, value_toPrecision, value_exactAdd]

end CandidateSearch.Decimal
