/-
  CandidateSearch/Proofs/Decimal/Floats.lean
  ==========================================
  **Which decimals have a finite float.**

  A decimal whose magnitude is below `10 ^ 300` has a finite float, unless its scale does
  not fit (`isFinite_toFloat`).  There are two things to be seen.

  A long coefficient is shortened first.  How much is cut off is worked out from a fraction
  for the logarithm of two; it is a little too small, so that a digit is always left
  (`tenTo_surplus_le`).  That fraction is compared with the logarithm itself by raising ten
  to its numerator, in a way that keeps only the leading bits of the powers
  (`powerBound`).

  A power of ten is formed by squaring, and every product that is taken on the way adds one
  part in `2 ^ 52` at most.
-/
import CandidateSearch.Decimal.Binary
import CandidateSearch.Proofs.Decimal.Values
import CandidateSearch.Proofs.Number.Magnitude

namespace CandidateSearch

/-! ### Bounds for powers of ten -/

namespace Number

/-- Bits kept while a power is bounded. -/
def boundBits : Nat := 160

/-- A bound `m · 2 ^ e` with a shorter mantissa. -/
def trim (m e : Nat) : Nat × Nat :=
  if m.log2 ≤ boundBits then (m, e)
  else (m >>> (m.log2 - boundBits) + 1, e + (m.log2 - boundBits))

/-- `(m, e)` with `10 ^ n ≤ m · 2 ^ e`. -/
def powerBound : Nat → Nat → Nat × Nat
  | 0, _ => (1, 0)
  | fuel + 1, n =>
      let (m, e) := powerBound fuel (n / 2)
      trim (if n % 2 = 1 then m * m * 10 else m * m) (e + e)

theorem le_trim (m e : Nat) : m * 2 ^ e ≤ (trim m e).1 * 2 ^ (trim m e).2 := by
  unfold trim
  split
  · exact le_rfl
  · generalize m.log2 - boundBits = k
    have hm : m ≤ (m >>> k + 1) * 2 ^ k := by
      rw [Nat.shiftRight_eq_div_pow, Nat.add_mul, Nat.one_mul]
      have := Nat.div_add_mod' m (2 ^ k)
      have := Nat.mod_lt m (Nat.two_pow_pos k)
      omega
    calc m * 2 ^ e ≤ (m >>> k + 1) * 2 ^ k * 2 ^ e := Nat.mul_le_mul_right _ hm
      _ = (m >>> k + 1) * 2 ^ (e + k) := by rw [Nat.mul_assoc, ← Nat.pow_add, Nat.add_comm k]

theorem pow_le_powerBound {fuel n : Nat} (hn : n < 2 ^ fuel) :
    10 ^ n ≤ (powerBound fuel n).1 * 2 ^ (powerBound fuel n).2 := by
  induction fuel generalizing n with
  | zero =>
    obtain rfl : n = 0 := by omega
    simp [powerBound]
  | succ fuel ih =>
    have hhalf := ih (n := n / 2) (by omega)
    rw [powerBound]
    generalize powerBound fuel (n / 2) = bound at hhalf ⊢
    obtain ⟨m, e⟩ := bound
    refine le_trans ?_ (le_trim _ _)
    have hsquare : 10 ^ (n / 2) * 10 ^ (n / 2) ≤ m * m * 2 ^ (e + e) := by
      calc 10 ^ (n / 2) * 10 ^ (n / 2) ≤ m * 2 ^ e * (m * 2 ^ e) := Nat.mul_le_mul hhalf hhalf
        _ = m * m * 2 ^ (e + e) := by rw [Nat.pow_add]; ring
    split
    · rename_i hodd
      have hn : n = n / 2 + n / 2 + 1 := by omega
      calc 10 ^ n = 10 ^ (n / 2) * 10 ^ (n / 2) * 10 := by rw [← pow_add, ← pow_succ, ← hn]
        _ ≤ m * m * 2 ^ (e + e) * 10 := Nat.mul_le_mul_right _ hsquare
        _ = m * m * 10 * 2 ^ (e + e) := by ring
    · rename_i heven
      have hn : n = n / 2 + n / 2 := by omega
      calc 10 ^ n = 10 ^ (n / 2) * 10 ^ (n / 2) := by rw [← pow_add, ← hn]
        _ ≤ m * m * 2 ^ (e + e) := hsquare

theorem tenTo_le_twoTo_of_powerBound (fuel : Nat) {n b : Nat} (hn : n < 2 ^ fuel)
    (h : (powerBound fuel n).1.log2 + 1 + (powerBound fuel n).2 ≤ b) : tenTo n ≤ twoTo b := by
  calc tenTo n ≤ (powerBound fuel n).1 * 2 ^ (powerBound fuel n).2 := pow_le_powerBound hn
    _ ≤ 2 ^ ((powerBound fuel n).1.log2 + 1) * 2 ^ (powerBound fuel n).2 :=
        Nat.mul_le_mul_right _ Nat.lt_log2_self.le
    _ = 2 ^ ((powerBound fuel n).1.log2 + 1 + (powerBound fuel n).2) := (Nat.pow_add ..).symm
    _ ≤ twoTo b := Nat.pow_le_pow_right (by decide) h

/-- The fraction that stands for the logarithm of two is not too large. -/
theorem tenTo_le_twoTo : tenTo 30102999566398119521 ≤ twoTo (tenTo 20) :=
  tenTo_le_twoTo_of_powerBound 65 (by decide) (by decide +kernel)

end Number

namespace Decimal

open Number

/-! ### Shortening a coefficient -/

/-- What is cut off of a coefficient is not more than the coefficient itself, and a
    coefficient that is not too long is left alone. -/
theorem shed_eq (d : Decimal) :
    ∃ surplus, d.shed = ⟨d.coefficient.tdiv (tenTo surplus), d.scale - surplus⟩ ∧
      (d.coefficient ≠ 0 → tenTo surplus ≤ d.coefficient.natAbs) ∧
      (d.coefficient.natAbs < 2 ^ 80 → surplus = 0) := by
  refine ⟨_, rfl, fun hne => ?_, fun hsmall => ?_⟩
  · have hpos : d.coefficient.natAbs ≠ 0 := Int.natAbs_ne_zero.mpr hne
    have hlog := Nat.log2_self_le hpos
    have hdigits := pow_div_le (by decide) tenTo_le_twoTo (d.coefficient.natAbs.log2 + 1 + 1)
    rw [if_neg hne]
    generalize (d.coefficient.natAbs.log2 + 1 + 1) * 30102999566398119521 / tenTo 20 = digits
      at hdigits ⊢
    rcases Nat.lt_or_ge digits 44 with hfew | hmany
    · have hsurplus : (digits - 25) / 19 * 19 = 0 := by omega
      rw [hsurplus]
      exact Nat.pos_of_ne_zero hpos
    · have hsurplus : (digits - 25) / 19 * 19 + 25 ≤ digits := by omega
      have hcut : tenTo ((digits - 25) / 19 * 19) * 10 ^ 25 ≤ 2 ^ (d.coefficient.natAbs.log2 + 1 + 1) := by
        rw [tenTo_eq, ← Nat.pow_add]
        exact (Nat.pow_le_pow_right (by decide) hsurplus).trans hdigits
      rw [Nat.pow_succ, Nat.pow_succ] at hcut
      omega
  · have hbits : (if d.coefficient = 0 then 0 else d.coefficient.natAbs.log2 + 1) ≤ 80 := by
      split
      · exact Nat.zero_le _
      · rename_i hne
        exact (Nat.log2_lt (Int.natAbs_ne_zero.mpr hne)).mpr hsmall
    have hdigits : ((if d.coefficient = 0 then 0 else d.coefficient.natAbs.log2 + 1) + 1) *
        30102999566398119521 / tenTo 20 ≤ 24 := by
      calc _ ≤ 81 * 30102999566398119521 / tenTo 20 :=
            Nat.div_le_div_right (Nat.mul_le_mul_right _ (Nat.succ_le_succ hbits))
        _ ≤ 24 := by decide
    omega

theorem abs_value_shed_le (d : Decimal) : |d.shed.value| ≤ |d.value| := by
  obtain ⟨surplus, hshed, -, -⟩ := shed_eq d
  have hcut : (d.coefficient.tdiv (tenTo surplus)).natAbs * tenTo surplus ≤ d.coefficient.natAbs := by
    rw [Int.natAbs_tdiv, Int.natAbs_natCast]
    exact Nat.div_mul_le_self _ _
  have hunit := unit_pos (-d.scale)
  rw [abs_value, abs_value, hshed]
  have hscale : (10 : ℚ) ^ (-(d.scale - surplus)) = tenTo surplus * 10 ^ (-d.scale) := by
    rw [neg_sub, sub_eq_add_neg, zpow_add₀ (by norm_num), zpow_natCast, tenTo_eq]
    push_cast
    rfl
  rw [hscale, ← mul_assoc]
  exact mul_le_mul_of_nonneg_right (by exact_mod_cast hcut) hunit.le

theorem coefficient_shed_ne_zero {d : Decimal} (h : d.coefficient ≠ 0) : d.shed.coefficient ≠ 0 := by
  obtain ⟨surplus, hshed, hle, -⟩ := shed_eq d
  rw [hshed, ← Int.natAbs_ne_zero, Int.natAbs_tdiv, Int.natAbs_natCast]
  exact (Nat.div_pos (hle h) (tenTo_pos surplus)).ne'

theorem scale_shed_of_lt {d : Decimal} (h : d.coefficient.natAbs < 2 ^ 80) :
    d.shed.scale = d.scale := by
  obtain ⟨surplus, hshed, -, hzero⟩ := shed_eq d
  rw [hshed, hzero h]
  simp

/-! ### Powers of ten by squaring -/

/-- Ten, and the room for one rounding. -/
def looseTen : ℚ := 10 * slack

theorem one_le_slack : 1 ≤ slack := by norm_num [slack]

theorem one_le_looseTen : 1 ≤ looseTen := by norm_num [looseTen, slack]

theorem bounded_powerOfTen (fuel : Nat) {n i j k : Nat} {result square : Float}
    (hresult : Bounded result (looseTen ^ i)) (hsquare : Bounded square (looseTen ^ j / slack))
    (hj : 0 < j) (hk : i + n * j ≤ k) (hlimit : looseTen ^ k < limit) :
    Bounded (powerOfTen fuel result square n) (looseTen ^ k) := by
  have hmono : ∀ {l : Nat}, l ≤ k → looseTen ^ l ≤ looseTen ^ k :=
    fun h => pow_le_pow_right₀ one_le_looseTen h
  induction fuel generalizing result square n i j with
  | zero => exact hresult.mono (hmono (by omega))
  | succ fuel ih =>
    have hn : n * j = n % 2 * j + n / 2 * (2 * j) := by
      conv_lhs => rw [← Nat.mod_add_div n 2]
      ring
    have hresult' : Bounded (if n % 2 = 1 then result * square else result)
        (looseTen ^ (i + n % 2 * j)) := by
      split
      · rename_i hodd
        rw [hodd, Nat.one_mul] at hn ⊢
        refine hresult.mul hsquare (one_le_pow₀ one_le_looseTen) (le_of_eq ?_)
          ((hmono (by omega)).trans_lt hlimit)
        rw [mul_assoc, div_mul_cancel₀ _ slack_pos.ne', pow_add]
      · rename_i heven
        rwa [Nat.mod_two_ne_one.mp heven, Nat.zero_mul, Nat.add_zero]
    rw [powerOfTen]
    split
    · exact hresult'.mono (hmono (by omega))
    · rename_i hmore
      have htwice : 2 * j ≤ n / 2 * (2 * j) := Nat.le_mul_of_pos_left _ (Nat.pos_of_ne_zero hmore)
      have hsmaller : looseTen ^ (2 * j) / slack ≤ looseTen ^ (2 * j) :=
        div_le_self (by have := one_le_looseTen; positivity) one_le_slack
      refine ih hresult' (j := 2 * j) (hsquare.mul hsquare ?_ (le_of_eq ?_) ?_) (by omega) (by omega)
      · rw [one_le_div slack_pos]
        calc slack ≤ looseTen := by unfold looseTen; have := slack_pos; linarith
          _ ≤ looseTen ^ (2 * j) := le_self_pow₀ one_le_looseTen (by omega)
      · rw [mul_assoc, div_mul_cancel₀ _ slack_pos.ne', two_mul, pow_add, div_mul_eq_mul_div]
      · exact (hsmaller.trans (hmono (by omega))).trans_lt hlimit

/-! ### The float of a decimal -/

theorem bounded_signedFloat {n : Int} {f : Nat → Float} {c : ℚ} (h : Bounded (f n.natAbs) c)
    (hc : c < limit) : Bounded (signedFloat n f) c := by
  unfold signedFloat
  split
  · exact h.neg hc
  · exact h

/-- The scale is small enough for the decimal to be turned into a float.  Zero has no need
    for this. -/
def InScale (d : Decimal) : Prop := d.coefficient = 0 ∨ d.shed.scale < 2 ^ 31

/-- Decimals below this have finite floats. -/
def reach : ℚ := 10 ^ (300 : ℤ)

theorem one_le_reach : 1 ≤ reach := one_le_zpow₀ (by norm_num) (by norm_num)

theorem cast_tenTo (n : Nat) : ((tenTo n : ℕ) : ℚ) = 10 ^ (n : ℤ) := by
  rw [zpow_natCast]
  exact Nat.cast_pow 10 n

theorem cast_twoTo (n : Nat) : ((twoTo n : ℕ) : ℚ) = 2 ^ (n : ℤ) := by
  rw [zpow_natCast]
  exact Nat.cast_pow 2 n

theorem reach_lt_limit : 8 * reach < limit := by
  have hnat : 8 * tenTo 300 < twoTo 1024 := by decide +kernel
  have hcast : (8 * (tenTo 300 : ℕ) : ℚ) < (twoTo 1024 : ℕ) := by exact_mod_cast hnat
  have hten : ((tenTo 300 : ℕ) : ℚ) = reach := cast_tenTo 300
  have htwo : ((twoTo 1024 : ℕ) : ℚ) = limit := cast_twoTo 1024
  rwa [hten, htwo] at hcast

/-- Three hundred roundings do not double a number. -/
theorem slack_pow_le {k : Nat} (hk : k ≤ 300) : slack ^ k ≤ 2 := by
  have hnat : (2 ^ 52 + 1) ^ 300 ≤ 2 * (2 ^ 52) ^ 300 := by decide +kernel
  have hcast : ((2 : ℚ) ^ 52 + 1) ^ 300 ≤ 2 * (2 ^ 52) ^ 300 := by exact_mod_cast hnat
  have hslack : slack = (2 ^ 52 + 1) / 2 ^ 52 := by norm_num [slack]
  refine (pow_le_pow_right₀ one_le_slack hk).trans ?_
  rw [hslack, div_pow, div_le_iff₀ (by positivity)]
  exact hcast

theorem bounded_zero (c : ℚ) : Bounded 0 c := by
  have hunpack : (0 : Float).toModel.unpack = .zero .positive := by rfl
  unfold Bounded
  rw [hunpack]
  exact .zero _

theorem bounded_scaledDown {n places : Nat} (h : n * 10 ^ (-places : ℤ) < reach) :
    Bounded (scaledDown n places) (2 * reach) := by
  have hreach := reach_lt_limit
  have hone := one_le_reach
  unfold scaledDown
  split
  · exact bounded_zero _
  · refine bounded_ofScientific_fraction ?_ (by linarith) (by linarith)
    calc (2 : ℚ) ^ (60 : ℤ) ≤ 10 ^ (60 : ℤ) := by norm_num
      _ ≤ reach := zpow_le_zpow_right₀ (by norm_num) (by norm_num)
      _ ≤ 2 * reach := by linarith

theorem bounded_one : Bounded 1 1 := by
  have hunpack : (1 : Float).toModel.unpack = .finite .positive (2 ^ 52) (-52) (by decide) := by rfl
  unfold Bounded
  rw [hunpack]
  exact .finite ⟨by decide, by decide, .inl le_rfl⟩ (by norm_num)

theorem bounded_ten : Bounded 10 10 := by
  have hunpack : (10 : Float).toModel.unpack =
      .finite .positive 5629499534213120 (-49) (by decide) := by rfl
  unfold Bounded
  rw [hunpack]
  exact .finite ⟨by decide, by decide, .inl (by decide)⟩ (by norm_num)

/-- A whole number times a power of ten. -/
theorem bounded_product {n : Int} {k : Nat} (hn : n ≠ 0) (h : n.natAbs * 10 ^ (k : ℤ) < reach) :
    ∃ c, Bounded ((signedFloat n fun n => Float.ofScientific n false 0) *
      powerOfTen (k.log2 + 1) 1 10 k) c := by
  have hreach := reach_lt_limit
  have hpos : (1 : ℚ) ≤ n.natAbs := by
    exact_mod_cast Nat.one_le_iff_ne_zero.mpr (Int.natAbs_ne_zero.mpr hn)
  have hk : (k : ℤ) < 300 := by
    refine (zpow_lt_zpow_iff_right₀ (by norm_num : (1 : ℚ) < 10)).mp (lt_of_le_of_lt ?_ h)
    exact le_mul_of_one_le_left (unit_pos _).le hpos
  rw [zpow_natCast] at h
  have hten : (1 : ℚ) ≤ 10 ^ k := one_le_pow₀ (by norm_num)
  have hsmall : (n.natAbs : ℚ) < reach := lt_of_le_of_lt (le_mul_of_one_le_right (by linarith) hten) h
  have hlimit : 4 * n.natAbs * looseTen ^ k * slack < limit := by
    have hslack := slack_pow_le (k := k + 1) (by omega)
    calc (4 * n.natAbs * looseTen ^ k * slack : ℚ)
        = 4 * (n.natAbs * 10 ^ k) * slack ^ (k + 1) := by rw [looseTen]; ring
      _ ≤ 4 * reach * 2 := mul_le_mul (by linarith) hslack (pow_pos slack_pos _).le (by linarith)
      _ < limit := by linarith
  have hloose : 1 ≤ looseTen ^ k := one_le_pow₀ one_le_looseTen
  have hmore : looseTen ^ k ≤ 4 * n.natAbs * looseTen ^ k * slack :=
    calc looseTen ^ k ≤ 4 * n.natAbs * looseTen ^ k :=
          le_mul_of_one_le_left (by linarith) (by linarith)
      _ ≤ 4 * n.natAbs * looseTen ^ k * slack := le_mul_of_one_le_right (by positivity) one_le_slack
  have hleft := bounded_signedFloat (n := n) (f := fun n => Float.ofScientific n false 0)
    (bounded_ofScientific_whole (c := 4 * n.natAbs) (by linarith) le_rfl (by linarith)) (by linarith)
  have hright := bounded_powerOfTen (k.log2 + 1) (n := k) (i := 0) (j := 1) (k := k)
    (by rw [pow_zero]; exact bounded_one)
    (by rw [pow_one, looseTen, mul_div_cancel_right₀ _ slack_pos.ne']; exact bounded_ten)
    (by decide) (by omega) (hmore.trans_lt hlimit)
  exact ⟨_, hleft.mul hright (hloose.trans hmore) le_rfl hlimit⟩

/-- A number of a moderate size has few zeros at its end. -/
theorem neg_scale_lt {d : Decimal} (hne : d.coefficient ≠ 0) (hvalue : |d.value| < reach) :
    -d.scale < 300 := by
  have hpos : (1 : ℚ) ≤ d.coefficient.natAbs := by
    exact_mod_cast Nat.one_le_iff_ne_zero.mpr (Int.natAbs_ne_zero.mpr hne)
  rw [abs_value] at hvalue
  refine (zpow_lt_zpow_iff_right₀ (by norm_num : (1 : ℚ) < 10)).mp (lt_of_le_of_lt ?_ hvalue)
  exact le_mul_of_one_le_left (unit_pos _).le hpos

/-- **Decimals of a moderate size have finite floats.** -/
theorem isFinite_toFloat {d : Decimal} (hvalue : |d.value| < reach) (hscale : d.InScale) :
    d.toFloat.isFinite = true := by
  have hone := one_le_reach
  have hreach := reach_lt_limit
  unfold toFloat
  split
  · exact (bounded_zero 0).isFinite
  rename_i hcoefficient
  split
  · -- a whole coefficient
    rename_i hzero
    rw [abs_value, hzero, neg_zero, zpow_zero, mul_one] at hvalue
    have hwhole : Bounded (Float.ofScientific d.coefficient.natAbs false 0) (4 * reach) :=
      bounded_ofScientific_whole (by linarith) (by linarith) (by linarith)
    exact (bounded_signedFloat (f := fun n => Float.ofScientific n false 0) hwhole
      (by linarith)).isFinite
  have hvalue : |d.shed.value| < reach := (abs_value_shed_le d).trans_lt hvalue
  have hne := coefficient_shed_ne_zero hcoefficient
  have hscale := hscale.resolve_left hcoefficient
  generalize d.shed = d at hvalue hne hscale ⊢
  have hlow := neg_scale_lt hne hvalue
  rw [abs_value] at hvalue
  dsimp only
  rw [if_neg (by have : twoTo 31 = 2 ^ 31 := rfl; omega)]
  split
  · -- a fraction
    rename_i hfraction
    have hplaces : -(d.scale.toNat : ℤ) = -d.scale := by omega
    rw [← hplaces] at hvalue
    exact (bounded_signedFloat (f := fun n => scaledDown n d.scale.toNat)
      (bounded_scaledDown hvalue) (by linarith)).isFinite
  · -- a product of two floats
    rename_i hwhole
    have hplaces : ((-d.scale).toNat : ℤ) = -d.scale := by omega
    rw [← hplaces] at hvalue
    obtain ⟨c, hproduct⟩ := bounded_product hne hvalue
    exact hproduct.isFinite

end Decimal

end CandidateSearch
