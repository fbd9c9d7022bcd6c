/-
  CandidateSearch/Proofs/Number/Magnitude.lean
  ============================================
  **Upper bounds for floats.**

  A float is finite as long as its magnitude is known to be below `2 ^ 1024`.  A bound
  passes through the operations: rounding adds at most one part in `2 ^ 52`, so the product
  of two floats is at most the product of their bounds and that much more.  Where results
  are so small that the smallest exponent sets the unit, they are at most one.
-/
import CandidateSearch.Number.Digits
import Mathlib.Algebra.Order.Field.Power
import Mathlib.Data.Rat.Floor
import Mathlib.Tactic.Linarith
import Mathlib.Tactic.NormNum
import Mathlib.Tactic.Ring

namespace CandidateSearch.Number

open Float.Model Float.Model.UnpackedFloat

/-! ### Rounding a mantissa -/

/-- The digits of a finite float: all 53 bits, or fewer at the smallest exponent. -/
structure Regular (m : Nat) (e : Int) : Prop where
  mantissa_lt : m < 2 ^ 53
  exponent_ge : -1074 ≤ e
  full : 2 ^ 52 ≤ m ∨ e = -1074

/-- The exponent that a number has once it is rounded. -/
def roundedExponent (m : Nat) (e : Int) : Int := max (m.log2 + 1 + e - 53) (-1074)

theorem shiftToTargetExponent_eq (m : Nat) (e : Int) (accuracy : Accuracy) :
    shiftToTargetExponent .binary64 m e accuracy =
      (ExtendedMantissa.ofMantissaAndAccuracy m accuracy >>> (roundedExponent m e - e).toNat,
        e + (roundedExponent m e - e).toNat) := rfl

theorem mantissa_shiftRight (em : ExtendedMantissa) (n : Nat) :
    (em >>> n).mantissa = em.mantissa / 2 ^ n := by
  change (n.repeat ExtendedMantissa.shiftRightOne em).mantissa = _
  induction n with
  | zero => simp [Nat.repeat]
  | succ n ih =>
    rw [Nat.repeat, ExtendedMantissa.shiftRightOne, ih, Nat.div_div_eq_div_mul, Nat.pow_succ]

@[simp] theorem mantissa_ofMantissaAndAccuracy (m : Nat) (accuracy : Accuracy) :
    (ExtendedMantissa.ofMantissaAndAccuracy m accuracy).mantissa = m := by
  unfold ExtendedMantissa.ofMantissaAndAccuracy
  split <;> rfl

theorem roundedMantissa_le (em : ExtendedMantissa) : em.roundedMantissa ≤ em.mantissa + 1 := by
  unfold ExtendedMantissa.roundedMantissa Accuracy.roundToNearestEven
  split <;> omega

theorem le_roundedMantissa (em : ExtendedMantissa) : em.mantissa ≤ em.roundedMantissa := by
  unfold ExtendedMantissa.roundedMantissa Accuracy.roundToNearestEven
  split <;> omega

/-- What is left of a mantissa has at most 53 bits, and has them all unless the exponent is
    the smallest one. -/
theorem shifted_bounds {m : Nat} {e : Int} (he : e ≤ roundedExponent m e) :
    m / 2 ^ (roundedExponent m e - e).toNat < 2 ^ 53 ∧
      (2 ^ 52 ≤ m / 2 ^ (roundedExponent m e - e).toNat ∨ roundedExponent m e = -1074) := by
  have hk : ((roundedExponent m e - e).toNat : Int) = roundedExponent m e - e :=
    Int.toNat_of_nonneg (by omega)
  generalize (roundedExponent m e - e).toNat = k at hk ⊢
  unfold roundedExponent at hk ⊢
  constructor
  · apply Nat.div_lt_of_lt_mul
    calc m < 2 ^ (m.log2 + 1) := Nat.lt_log2_self
      _ ≤ 2 ^ (k + 53) := Nat.pow_le_pow_right (by decide) (by omega)
      _ = 2 ^ k * 2 ^ 53 := Nat.pow_add ..
  · by_cases hsmall : m.log2 + 1 + e - 53 ≤ -1074
    · exact .inr (max_eq_right hsmall)
    · left
      have hlog : 52 + k = m.log2 := by omega
      have hm : m ≠ 0 := by
        rintro rfl
        simp at hlog
      rw [Nat.le_div_iff_mul_le (by positivity), ← Nat.pow_add, hlog]
      exact Nat.log2_self_le hm

/-- The second shift, which is by one place if rounding has led to a 54th bit. -/
theorem shift_rounded {r : Nat} {e : Int} (hr : r ≤ 2 ^ 53) (he : -1074 ≤ e)
    (hfull : 2 ^ 52 ≤ r ∨ e = -1074) :
    ∃ (m : Nat) (e' : Int), (m : ℚ) * 2 ^ e' = r * 2 ^ e ∧ Regular m e' ∧
      (shiftToTargetExponent .binary64 r e .exact).1.mantissa = m ∧
      (shiftToTargetExponent .binary64 r e .exact).2 = e' := by
  rcases Nat.lt_or_ge r (2 ^ 53) with hlt | hge
  · have hshift : (roundedExponent r e - e).toNat = 0 := by
      have hlog : r.log2 < 53 := by
        rcases Nat.eq_zero_or_pos r with rfl | hpos
        · simp
        · exact (Nat.log2_lt hpos.ne').mpr hlt
      unfold roundedExponent
      omega
    refine ⟨r, e, rfl, ⟨hlt, he, hfull⟩, ?_, ?_⟩ <;>
      simp [shiftToTargetExponent_eq, mantissa_shiftRight, hshift]
  · have hr : r = 2 ^ 53 := Nat.le_antisymm hr hge
    have hshift : (roundedExponent r e - e).toNat = 1 := by
      have hlog : r.log2 = 53 := by rw [hr, Nat.log2_two_pow]
      unfold roundedExponent
      omega
    refine ⟨2 ^ 52, e + 1, ?_, ⟨by decide, by omega, .inl le_rfl⟩, ?_, ?_⟩
    · rw [zpow_add_one₀ (by norm_num), hr]
      push_cast
      ring
    · rw [shiftToTargetExponent_eq, hshift, mantissa_shiftRight, mantissa_ofMantissaAndAccuracy, hr]
      rfl
    · rw [shiftToTargetExponent_eq, hshift]
      rfl

/-! ### Bounds -/

/-- Zero, or a finite float whose magnitude is at most `bound`. -/
inductive AtMost (bound : ℚ) : UnpackedFloat → Prop where
  | zero (s : Sign) : AtMost bound (.zero s)
  | finite {s : Sign} {m : Nat} {e : Int} {hm : 0 < m} (hregular : Regular m e)
      (hvalue : m * 2 ^ e ≤ bound) : AtMost bound (.finite s m e hm)

theorem AtMost.mono {a b : ℚ} {f : UnpackedFloat} (h : AtMost a f) (hab : a ≤ b) : AtMost b f := by
  cases h with
  | zero s => exact .zero s
  | finite hregular hvalue => exact .finite hregular (hvalue.trans hab)

theorem AtMost.isFinite {a : ℚ} {f : UnpackedFloat} (h : AtMost a f) : f.isFinite = true := by
  cases h <;> rfl

theorem AtMost.neg {a : ℚ} {f : UnpackedFloat} (h : AtMost a f) : AtMost a f.neg := by
  cases h with
  | zero s => exact .zero _
  | finite hregular hvalue => exact .finite hregular hvalue

/-- The result of rounding is at most one unit more than what was left of the mantissa. -/
theorem atMost_roundWithAccuracy {m : Nat} {e : Int} (he : e ≤ roundedExponent m e) (s : Sign)
    (accuracy : Accuracy) :
    AtMost ((m / 2 ^ (roundedExponent m e - e).toNat + 1 : ℕ) * 2 ^ roundedExponent m e)
      (roundWithAccuracy .binary64 s m e accuracy) := by
  obtain ⟨hupper, hlower⟩ := shifted_bounds he
  have hk : e + (roundedExponent m e - e).toNat = roundedExponent m e := by omega
  have hmin : -1074 ≤ roundedExponent m e := le_max_right _ _
  obtain ⟨em, hem, hmantissa⟩ : ∃ em : ExtendedMantissa,
      shiftToTargetExponent .binary64 m e accuracy = (em, roundedExponent m e) ∧
        em.mantissa = m / 2 ^ (roundedExponent m e - e).toNat := by
    refine ⟨ExtendedMantissa.ofMantissaAndAccuracy m accuracy >>> (roundedExponent m e - e).toNat,
      ?_, ?_⟩
    · rw [shiftToTargetExponent_eq, hk]
    · rw [mantissa_shiftRight, mantissa_ofMantissaAndAccuracy]
  have hround := roundedMantissa_le em
  have hround' := le_roundedMantissa em
  rw [hmantissa] at hround hround'
  obtain ⟨m', e', hvalue, hregular, hm', he'⟩ := shift_rounded (r := em.roundedMantissa)
    (e := roundedExponent m e) (by omega) hmin (hlower.imp_left fun h => h.trans hround')
  rw [roundWithAccuracy, hem]
  dsimp only
  by_cases hzero : (shiftToTargetExponent .binary64 em.roundedMantissa (roundedExponent m e)
      .exact).1.mantissa = 0
  · rw [dif_pos hzero]
    exact .zero s
  · rw [dif_neg hzero]
    refine .finite ?_ ?_
    · rw [hm', he']
      exact hregular
    · rw [hm', he', hvalue]
      exact mul_le_mul_of_nonneg_right (by exact_mod_cast hround) (by positivity)

/-- A number that is rounded grows by one part in `2 ^ 52` at most. -/
def slack : ℚ := 1 + 2 ^ (-52 : ℤ)

theorem slack_pos : 0 < slack := by unfold slack; positivity

theorem slack_le_two : slack ≤ 2 := by norm_num [slack]

/-- The digits that are left stand for no more than the number itself. -/
theorem shifted_value_le {m : Nat} {e e' : Int} (he : e ≤ e') :
    ((m / 2 ^ (e' - e).toNat : ℕ) : ℚ) * 2 ^ e' ≤ m * 2 ^ e := by
  have hdiv : m / 2 ^ (e' - e).toNat * 2 ^ (e' - e).toNat ≤ m := Nat.div_mul_le_self _ _
  have hsplit : (2 : ℚ) ^ e' = 2 ^ (e' - e).toNat * 2 ^ e := by
    rw [← zpow_natCast, ← zpow_add₀ (by norm_num), Int.toNat_of_nonneg (by omega),
      Int.sub_add_cancel]
  rw [hsplit, ← mul_assoc]
  exact mul_le_mul_of_nonneg_right (by exact_mod_cast hdiv) (by positivity)

/-- At the smallest exponent all is far below one. -/
theorem value_le_half {m : Nat} {e : Int} (hsmall : m.log2 + 1 + e ≤ -1) :
    (m : ℚ) * 2 ^ e ≤ 1 / 2 := by
  have hm : (m : ℚ) ≤ 2 ^ (m.log2 + 1) := by exact_mod_cast (Nat.lt_log2_self (n := m)).le
  calc (m : ℚ) * 2 ^ e ≤ 2 ^ (m.log2 + 1) * 2 ^ e :=
        mul_le_mul_of_nonneg_right hm (by positivity)
    _ = 2 ^ ((m.log2 + 1 : ℕ) + e : ℤ) := by rw [zpow_add₀ (by norm_num), zpow_natCast]
    _ ≤ 2 ^ (-1 : ℤ) := zpow_le_zpow_right₀ (by norm_num) (by push_cast; omega)
    _ = 1 / 2 := by norm_num

/-- Above it, one unit of the last digit is a small part of the number. -/
theorem unit_le_of_large {m : Nat} {e : Int} (hm : m ≠ 0) :
    (2 : ℚ) ^ (m.log2 + 1 + e - 53) ≤ m * 2 ^ e * 2 ^ (-52 : ℤ) := by
  have hlog : (2 : ℚ) ^ m.log2 ≤ m := by exact_mod_cast Nat.log2_self_le hm
  calc (2 : ℚ) ^ (m.log2 + 1 + e - 53) = 2 ^ m.log2 * 2 ^ e * 2 ^ (-52 : ℤ) := by
        rw [← zpow_natCast, ← zpow_add₀ (by norm_num), ← zpow_add₀ (by norm_num)]
        congr 1
        omega
    _ ≤ m * 2 ^ e * 2 ^ (-52 : ℤ) := by gcongr

theorem atMost_of_le {m : Nat} {e : Int} (he : e ≤ roundedExponent m e) (s : Sign)
    (accuracy : Accuracy) {bound : ℚ} (hone : 1 ≤ bound) (hbound : m * 2 ^ e * slack ≤ bound) :
    AtMost bound (roundWithAccuracy .binary64 s m e accuracy) := by
  refine (atMost_roundWithAccuracy he s accuracy).mono ?_
  have hleft := shifted_value_le (m := m) he
  rw [Nat.cast_add, Nat.cast_one, add_mul, one_mul]
  rcases le_or_gt (m.log2 + 1 + e - 53) (-1074) with hsmall | hlarge
  · have hexponent : roundedExponent m e = -1074 := max_eq_right hsmall
    have hvalue : (m : ℚ) * 2 ^ e ≤ 1 / 2 := value_le_half (by omega)
    have hunit : (2 : ℚ) ^ roundedExponent m e ≤ 2 ^ (-1 : ℤ) :=
      zpow_le_zpow_right₀ (by norm_num) (by omega)
    have hhalf : (2 : ℚ) ^ (-1 : ℤ) = 1 / 2 := by norm_num
    rw [hhalf] at hunit
    linarith
  · have hexponent : roundedExponent m e = m.log2 + 1 + e - 53 := max_eq_left hlarge.le
    have hm : m ≠ 0 := by
      rintro rfl
      simp at hlarge he hexponent
      omega
    have hunit := unit_le_of_large (e := e) hm
    rw [← hexponent] at hunit
    rw [slack, mul_add, mul_one] at hbound
    linarith

/-! ### Packing -/

theorem ofNat_ne {w n : Nat} {v : BitVec w} (hn : n < 2 ^ w) (h : n ≠ v.toNat) :
    BitVec.ofNat w n ≠ v := by
  intro heq
  have htoNat := congrArg BitVec.toNat heq
  rw [BitVec.toNat_ofNat, Nat.mod_eq_of_lt hn] at htoNat
  exact h htoNat

theorem finite_congr {s : Sign} {m m' : Nat} {e e' : Int} {hm : 0 < m} {hm' : 0 < m'}
    (hmantissa : m = m') (hexponent : e = e') :
    UnpackedFloat.finite s m e hm = .finite s m' e' hm' := by
  subst hmantissa hexponent
  rfl

/-- The first digit of a normal number is not stored. -/
theorem unpack_normal (s : Sign) {m b : Nat} (hm : 0 < m) (hnormal : 2 ^ 52 ≤ m) (hlt : m < 2 ^ 53)
    (hb : 0 < b) (hb' : b < 2047) :
    ∃ s', unpack .binary64
      (packComponents .binary64 s (BitVec.ofNat _ b) (BitVec.ofNat _ m)) =
        .finite s' m (b - 1075) hm := by
  have hexponent : unpackExponent
      (packComponents .binary64 s (BitVec.ofNat _ b) (BitVec.ofNat _ m)) = BitVec.ofNat 11 b :=
    unpackExponent_packComponents
  have hmantissa : unpackMantissa
      (packComponents .binary64 s (BitVec.ofNat _ b) (BitVec.ofNat _ m)) = BitVec.ofNat 52 m :=
    unpackMantissa_packComponents
  generalize packComponents .binary64 s (BitVec.ofNat _ b) (BitVec.ofNat _ m) = v
    at hexponent hmantissa
  have hones : unpackExponent v ≠ -1#11 :=
    hexponent ▸ ofNat_ne (by omega) (by simpa using hb'.ne)
  have hzero : unpackExponent v ≠ 0#11 :=
    hexponent ▸ ofNat_ne (by omega) (by simpa using hb.ne')
  refine ⟨_, (if_neg hones).trans ((if_neg hzero).trans (finite_congr ?_ ?_))⟩
  · show (1#1 ++ unpackMantissa v).toNat = m
    rw [hmantissa, BitVec.toNat_append, ← Nat.shiftLeft_add_eq_or_of_lt (BitVec.isLt _),
      BitVec.toNat_ofNat]
    simp [Nat.shiftLeft_eq]
    omega
  · show ((unpackExponent v).toNat : Int) - (1023 + 52) = b - 1075
    rw [hexponent, BitVec.toNat_ofNat, Nat.mod_eq_of_lt (show b < 2 ^ 11 by omega)]
    omega

theorem unpack_subnormal (s : Sign) {m : Nat} (hm : 0 < m) (hlt : m < 2 ^ 52) :
    ∃ s', unpack .binary64 (packComponents .binary64 s 0#_ (BitVec.ofNat _ m)) =
      .finite s' m (-1074) hm := by
  have hexponent : unpackExponent (packComponents .binary64 s 0#_ (BitVec.ofNat _ m)) = 0#11 :=
    unpackExponent_packComponents
  have hmantissa : unpackMantissa (packComponents .binary64 s 0#_ (BitVec.ofNat _ m)) =
      BitVec.ofNat 52 m := unpackMantissa_packComponents
  generalize packComponents .binary64 s 0#_ (BitVec.ofNat _ m) = v at hexponent hmantissa
  have hones : unpackExponent v ≠ -1#11 := hexponent ▸ by decide
  have hzero : unpackMantissa v ≠ 0#52 :=
    hmantissa ▸ ofNat_ne (by omega) (by simpa using hm.ne')
  refine ⟨_, (if_neg hones).trans ((if_pos hexponent).trans ((dif_neg hzero).trans
    (finite_congr ?_ ?_)))⟩
  · rw [hmantissa, BitVec.toNat_ofNat, Nat.mod_eq_of_lt (by omega)]
  · show ((unpackExponent v).toNat : Int) - (1023 + 52) + 1 = -1074
    rw [hexponent]
    rfl

theorem unpack_pack (s : Sign) {m : Nat} {e : Int} (hm : 0 < m) (h : Regular m e) (he : e ≤ 971) :
    ∃ s', unpack .binary64 (pack .binary64 (.finite s m e hm)) = .finite s' m e hm := by
  obtain ⟨hlt, hmin, hfull⟩ := h
  have hb : ((e + 1023 + 52).toNat : Int) = e + 1075 := by omega
  have hpack : pack .binary64 (.finite s m e hm) =
      if 2 ^ 11 ≤ (e + 1023 + 52).toNat + 1 then packedInfinity .binary64 s
      else if m.log2 + 1 = 53 then
        packComponents .binary64 s (BitVec.ofNat _ (e + 1023 + 52).toNat) (BitVec.ofNat _ m)
      else packComponents .binary64 s 0#_ (BitVec.ofNat _ m) := rfl
  generalize (e + 1023 + 52).toNat = b at hb hpack
  rw [hpack, if_neg (by omega)]
  by_cases hnormal : 2 ^ 52 ≤ m
  · have hlog : m.log2 + 1 = 53 := by
      have := (Nat.log2_lt hm.ne').mpr hlt
      have := (Nat.le_log2 hm.ne').mpr hnormal
      omega
    obtain rfl : e = b - 1075 := by omega
    rw [if_pos hlog]
    exact unpack_normal s hm hnormal hlt (by omega) (by omega)
  · have hlog : ¬ m.log2 + 1 = 53 := by
      have := (Nat.log2_lt hm.ne').mpr (Nat.lt_of_not_le hnormal)
      omega
    obtain rfl : e = -1074 := by omega
    rw [if_neg hlog]
    exact unpack_subnormal s hm (Nat.lt_of_not_le hnormal)

/-- All finite floats are below this. -/
def limit : ℚ := 2 ^ (1024 : ℤ)

theorem atMost_pack {f : UnpackedFloat} {bound : ℚ} (h : AtMost bound f)
    (hbound : bound < limit) : AtMost bound (unpack .binary64 (pack .binary64 f)) := by
  cases h with
  | zero s =>
    have hzero : unpack .binary64 (pack .binary64 (.zero s)) = .zero s := by
      cases s <;> rfl
    rw [hzero]
    exact .zero s
  | @finite s m e hm hregular hvalue =>
    have he : e ≤ 971 := by
      rcases hregular.full with hfull | rfl
      · have hlow : (2 : ℚ) ^ (52 + e) ≤ m * 2 ^ e := by
          rw [zpow_add₀ (by norm_num)]
          exact mul_le_mul_of_nonneg_right (by exact_mod_cast hfull) (by positivity)
        have := (zpow_lt_zpow_iff_right₀ (by norm_num : (1 : ℚ) < 2)).mp
          ((hlow.trans hvalue).trans_lt hbound)
        omega
      · decide
    obtain ⟨s', hunpack⟩ := unpack_pack s hm hregular he
    rw [hunpack]
    exact .finite hregular hvalue

/-! ### Products and quotients -/

/-- The float is finite and its magnitude is at most `bound`. -/
def Bounded (x : Float) (bound : ℚ) : Prop := AtMost bound x.toModel.unpack

namespace Bounded

variable {x y : Float} {a b c : ℚ}

theorem mono (h : Bounded x a) (hab : a ≤ b) : Bounded x b := AtMost.mono h hab

theorem isFinite (h : Bounded x a) : x.isFinite = true := AtMost.isFinite h

theorem neg (h : Bounded x a) (ha : a < limit) : Bounded (-x) a :=
  atMost_pack (AtMost.neg h) ha

end Bounded

theorem atMost_mul {f g : UnpackedFloat} {a b c : ℚ} (hf : AtMost a f) (hg : AtMost b g)
    (hone : 1 ≤ c) (hc : a * b * slack ≤ c) : AtMost c (UnpackedFloat.mul .binary64 f g) := by
  cases hf with
  | zero s =>
    cases hg with
    | zero s => exact .zero _
    | finite => exact .zero _
  | @finite s₁ m₁ e₁ hm₁ hregular₁ hvalue₁ =>
    cases hg with
    | zero s => exact .zero _
    | @finite s₂ m₂ e₂ hm₂ hregular₂ hvalue₂ =>
      refine atMost_of_le ?_ _ _ hone (le_trans ?_ hc)
      · -- two factors that are both short have exponents that are small enough
        unfold roundedExponent
        by_cases hfull : 2 ^ 52 ≤ m₁ * m₂
        · have := (Nat.le_log2 (Nat.mul_pos hm₁ hm₂).ne').mpr hfull
          omega
        · have h₁ : e₁ = -1074 := hregular₁.full.resolve_left fun h =>
            hfull (h.trans (Nat.le_mul_of_pos_right m₁ hm₂))
          have h₂ : e₂ = -1074 := hregular₂.full.resolve_left fun h =>
            hfull (h.trans (Nat.le_mul_of_pos_left m₂ hm₁))
          omega
      · have hproduct : ((m₁ * m₂ : ℕ) : ℚ) * 2 ^ (e₁ + e₂) = m₁ * 2 ^ e₁ * (m₂ * 2 ^ e₂) := by
          rw [zpow_add₀ (by norm_num)]
          push_cast
          ring
        rw [hproduct]
        have ha : 0 ≤ a := le_trans (by positivity) hvalue₁
        exact mul_le_mul_of_nonneg_right (mul_le_mul hvalue₁ hvalue₂ (by positivity) ha) slack_pos.le

/-- **The magnitude of a product.** -/
theorem Bounded.mul {x y : Float} {a b c : ℚ} (hx : Bounded x a) (hy : Bounded y b) (hone : 1 ≤ c)
    (hc : a * b * slack ≤ c) (hlt : c < limit) : Bounded (x * y) c :=
  atMost_pack (atMost_mul hx hy hone hc) hlt

/-- The exponent down to which a quotient is carried. -/
def quotientExponent (m₁ : Nat) (e₁ : Int) (m₂ : Nat) (e₂ : Int) : Int :=
  min (e₁ - e₂) (max ((m₁.log2 + 1 + e₁) - (m₂.log2 + 1 + e₂) - 53) (-1074))

theorem divCore_eq (m₁ : Nat) (e₁ : Int) (m₂ : Nat) (e₂ : Int) :
    ∃ accuracy, divCore .binary64 m₁ e₁ m₂ e₂ =
      (m₁ <<< (e₁ - e₂ - quotientExponent m₁ e₁ m₂ e₂).toNat / m₂, quotientExponent m₁ e₁ m₂ e₂,
        accuracy) := ⟨_, rfl⟩

/-- The quotient is carried to enough bits. -/
theorem le_roundedExponent_quotient {m₁ m₂ : Nat} (hm₁ : 0 < m₁) (hm₂ : 0 < m₂) (e₁ e₂ : Int) :
    quotientExponent m₁ e₁ m₂ e₂ ≤
      roundedExponent (m₁ <<< (e₁ - e₂ - quotientExponent m₁ e₁ m₂ e₂).toNat / m₂)
        (quotientExponent m₁ e₁ m₂ e₂) := by
  by_cases hsmall : quotientExponent m₁ e₁ m₂ e₂ ≤ -1074
  · exact hsmall.trans (le_max_right _ _)
  refine le_trans ?_ (le_max_left _ _)
  have hk : m₂.log2 + 53 ≤ m₁.log2 + (e₁ - e₂ - quotientExponent m₁ e₁ m₂ e₂).toNat := by
    unfold quotientExponent at hsmall ⊢
    omega
  generalize (e₁ - e₂ - quotientExponent m₁ e₁ m₂ e₂).toNat = k at hk ⊢
  have hquotient : 2 ^ 52 ≤ m₁ <<< k / m₂ := by
    rw [Nat.le_div_iff_mul_le hm₂, Nat.shiftLeft_eq]
    calc 2 ^ 52 * m₂ ≤ 2 ^ 52 * 2 ^ (m₂.log2 + 1) := Nat.mul_le_mul_left _ Nat.lt_log2_self.le
      _ = 2 ^ (m₂.log2 + 53) := by rw [← Nat.pow_add]; congr 1; omega
      _ ≤ 2 ^ (m₁.log2 + k) := Nat.pow_le_pow_right (by decide) hk
      _ = 2 ^ m₁.log2 * 2 ^ k := Nat.pow_add ..
      _ ≤ m₁ * 2 ^ k := Nat.mul_le_mul_right _ (Nat.log2_self_le hm₁.ne')
  have hpos : m₁ <<< k / m₂ ≠ 0 := (Nat.lt_of_lt_of_le (by decide) hquotient).ne'
  have := (Nat.le_log2 hpos).mpr hquotient
  omega

/-- **The magnitude of a quotient.** -/
theorem atMost_div {s₁ s₂ : Sign} {m₁ m₂ : Nat} {e₁ e₂ : Int} {hm₁ : 0 < m₁} {hm₂ : 0 < m₂} {c : ℚ}
    (hone : 1 ≤ c) (hc : m₁ * 2 ^ e₁ / (m₂ * 2 ^ e₂) * slack ≤ c) :
    AtMost c (div .binary64 (.finite s₁ m₁ e₁ hm₁) (.finite s₂ m₂ e₂ hm₂)) := by
  obtain ⟨accuracy, hcore⟩ := divCore_eq m₁ e₁ m₂ e₂
  have hdiv : div .binary64 (.finite s₁ m₁ e₁ hm₁) (.finite s₂ m₂ e₂ hm₂) =
      roundWithAccuracy .binary64 (s₁ / s₂) (divCore .binary64 m₁ e₁ m₂ e₂).1
        (divCore .binary64 m₁ e₁ m₂ e₂).2.1 (divCore .binary64 m₁ e₁ m₂ e₂).2.2 := rfl
  rw [hdiv, hcore]
  refine atMost_of_le (le_roundedExponent_quotient hm₁ hm₂ e₁ e₂) _ _ hone (le_trans ?_ hc)
  have hk : ((e₁ - e₂ - quotientExponent m₁ e₁ m₂ e₂).toNat : Int) + quotientExponent m₁ e₁ m₂ e₂ =
      e₁ - e₂ := by
    unfold quotientExponent
    omega
  generalize (e₁ - e₂ - quotientExponent m₁ e₁ m₂ e₂).toNat = k at hk ⊢
  generalize quotientExponent m₁ e₁ m₂ e₂ = t at hk ⊢
  have hm₂' : (0 : ℚ) < m₂ := by exact_mod_cast hm₂
  have hfloor : ((m₁ <<< k / m₂ : ℕ) : ℚ) * m₂ ≤ m₁ * 2 ^ k := by
    rw [Nat.shiftLeft_eq]
    exact_mod_cast Nat.div_mul_le_self (m₁ * 2 ^ k) m₂
  refine mul_le_mul_of_nonneg_right ?_ slack_pos.le
  rw [le_div_iff₀ (by positivity)]
  calc ((m₁ <<< k / m₂ : ℕ) : ℚ) * 2 ^ t * (m₂ * 2 ^ e₂)
      = ((m₁ <<< k / m₂ : ℕ) : ℚ) * m₂ * (2 ^ t * 2 ^ e₂) := by ring
    _ ≤ m₁ * 2 ^ k * (2 ^ t * 2 ^ e₂) := mul_le_mul_of_nonneg_right hfloor (by positivity)
    _ = m₁ * (2 ^ (k : ℤ) * 2 ^ t * 2 ^ e₂) := by rw [zpow_natCast]; ring
    _ = m₁ * 2 ^ e₁ := by
      rw [← zpow_add₀ (by norm_num), ← zpow_add₀ (by norm_num), hk, sub_add_cancel]

/-! ### Whole numbers and fractions -/

/-- A whole number of at most 53 bits. -/
theorem atMost_ofNat {n : Nat} (hn : n < 2 ^ 53) :
    AtMost (2 * n) (UnpackedFloat.ofNat .binary64 n) := by
  rcases Nat.eq_zero_or_pos n with rfl | hpos
  · exact .zero _
  have hj : (-roundedExponent n 0).toNat = 52 - n.log2 ∧ n.log2 ≤ 52 := by
    have := (Nat.log2_lt hpos.ne').mpr hn
    unfold roundedExponent
    omega
  have hround : UnpackedFloat.ofNat .binary64 n = roundWithAccuracy .binary64 .positive
      (n <<< (0 - roundedExponent n 0).toNat) (0 - (0 - roundedExponent n 0).toNat) .exact := by
    have hcompare : Ord.compare (n : Int) 0 = .gt := compare_gt_iff_gt.mpr (by omega)
    unfold UnpackedFloat.ofNat UnpackedFloat.ofInt UnpackedFloat.normalize
    rw [hcompare]
    rfl
  rw [hround, zero_sub, hj.1]
  generalize hk : 52 - n.log2 = k
  have hfull : 2 ^ 52 ≤ n <<< k := by
    rw [Nat.shiftLeft_eq]
    calc 2 ^ 52 = 2 ^ n.log2 * 2 ^ k := by rw [← Nat.pow_add]; congr 1; omega
      _ ≤ n * 2 ^ k := Nat.mul_le_mul_right _ (Nat.log2_self_le hpos.ne')
  have hpos' : (1 : ℚ) ≤ n := by exact_mod_cast hpos
  refine atMost_of_le ?_ _ _ (by linarith) ?_
  · have hpos' : n <<< k ≠ 0 := (Nat.lt_of_lt_of_le (by decide) hfull).ne'
    have := (Nat.le_log2 hpos').mpr hfull
    unfold roundedExponent
    omega
  · have hvalue : ((n <<< k : ℕ) : ℚ) * 2 ^ (0 - (k : ℤ)) = n := by
      rw [Nat.shiftLeft_eq, zero_sub, zpow_neg, zpow_natCast]
      push_cast
      field_simp
    rw [hvalue, mul_comm 2]
    exact mul_le_mul_of_nonneg_left slack_le_two n.cast_nonneg

/-- A whole number of any length: its mantissa is shifted up and multiplied by one. -/
theorem atMost_whole {n m one : Nat} {e : Int} (hm : m = n * 2 ^ 53) (he : e = -53)
    (hfactor : one = 1) {h₁ : 0 < m} {h₂ : 0 < one} {c : ℚ} (hone : 1 ≤ c) (hc : n * slack ≤ c) :
    AtMost c (UnpackedFloat.mul .binary64 (.finite .positive m e h₁) (.finite .positive one 0 h₂)) := by
  subst he hfactor
  have hlog : 53 ≤ m.log2 := (Nat.le_log2 h₁.ne').mpr (by omega)
  have hvalue : (m : ℚ) * 2 ^ (-53 : ℤ) = n := by
    rw [hm]
    push_cast
    rw [mul_assoc]
    norm_num
  refine atMost_of_le ?_ _ _ hone (le_trans (le_of_eq ?_) hc)
  · unfold roundedExponent
    rw [Nat.mul_one]
    omega
  · rw [Nat.mul_one, add_zero, hvalue]

/-- A whole number, or a fraction with a power of ten below the line. -/
theorem atMost_ofScientific {n : Nat} {e : Int} (he : e ≤ 0) {c : ℚ} (hone : 1 ≤ c)
    (hc : n * 10 ^ e * slack ≤ c) : AtMost c (UnpackedFloat.ofScientific .binary64 n e) := by
  unfold UnpackedFloat.ofScientific
  by_cases hn : n = 0
  · rw [dif_pos hn]
    exact .zero _
  rw [dif_neg hn, if_neg (by norm_num; omega)]
  by_cases htiny : e < -(2 ^ Format.binary64.exponentBits + n.log2)
  · rw [if_pos htiny]
    exact .zero _
  rw [if_neg htiny]
  by_cases hnonneg : 0 ≤ e
  · rw [if_pos hnonneg]
    obtain rfl : e = 0 := by omega
    have hbits : Format.binary64.mantissaBits = 53 := rfl
    have hshift : n <<< Format.binary64.mantissaBits = n * 2 ^ 53 := by
      rw [hbits, Nat.shiftLeft_eq]
    have hexponent : -(Format.binary64.mantissaBits : Int) = -53 := by
      rw [hbits]
      rfl
    exact atMost_whole hshift hexponent rfl hone (by simpa using hc)
  · rw [if_neg hnonneg]
    refine atMost_div hone (le_trans (le_of_eq ?_) hc)
    have hexponent : ((-e).toNat : ℤ) = -e := Int.toNat_of_nonneg (by omega)
    push_cast
    rw [← zpow_natCast, hexponent]
    simp [div_eq_mul_inv]

theorem bounded_toFloat {n : Nat} (hn : n < 2 ^ 53) : Bounded n.toUInt64.toFloat (2 * n) := by
  have htoNat : n.toUInt64.toNat = n := by
    rw [Nat.toUInt64_eq, UInt64.toNat_ofNat', Nat.mod_eq_of_lt (by omega)]
  have hlt : 2 * (n : ℚ) < limit := by
    have hn' : (n : ℚ) < 2 ^ 53 := by exact_mod_cast hn
    have hlimit : (2 : ℚ) ^ (54 : ℤ) < limit := zpow_lt_zpow_right₀ (by norm_num) (by norm_num)
    calc 2 * (n : ℚ) < 2 * 2 ^ 53 := by linarith
      _ = 2 ^ (54 : ℤ) := by norm_num
      _ < limit := hlimit
  refine atMost_pack (f := UnpackedFloat.ofNat .binary64 n.toUInt64.toNat) ?_ hlt
  rw [htoNat]
  exact atMost_ofNat hn

/-- The float is finite and its magnitude is at least one. -/
def atLeastOne : UnpackedFloat → Bool
  | .finite _ m e _ => decide (2 ^ 52 ≤ m) && decide (-52 ≤ e)
  | _ => false

theorem atLeastOne_powersOfTen :
    ∀ i : Fin 23, atLeastOne (Float.exactlyRepresentablePowersOfTen[i]).toModel.unpack = true := by
  decide +kernel

theorem atMost_div_of_atLeastOne {f g : UnpackedFloat} {a c : ℚ} (hf : AtMost a f)
    (hg : atLeastOne g = true) (hone : 1 ≤ c) (hc : a * slack ≤ c) :
    AtMost c (UnpackedFloat.div .binary64 f g) := by
  cases g with
  | zero s => cases hg
  | infinity s => cases hg
  | notANumber => cases hg
  | finite s m e hm =>
    have hg : (decide (2 ^ 52 ≤ m) && decide (-52 ≤ e)) = true := hg
    rw [Bool.and_eq_true, decide_eq_true_eq, decide_eq_true_eq] at hg
    obtain ⟨hm', he⟩ := hg
    have hlow : (1 : ℚ) ≤ m * 2 ^ e := by
      calc (1 : ℚ) = 2 ^ 52 * 2 ^ (-52 : ℤ) := by norm_num
        _ ≤ m * 2 ^ e := mul_le_mul (by exact_mod_cast hm')
            (zpow_le_zpow_right₀ (by norm_num) he) (by positivity) (by positivity)
    cases hf with
    | zero s => exact .zero _
    | finite hregular hvalue =>
      refine atMost_div hone (le_trans (mul_le_mul_of_nonneg_right ?_ slack_pos.le) hc)
      exact (div_le_self (by positivity) hlow).trans hvalue

/-- **A whole number as a float.** -/
theorem bounded_ofScientific_whole {n : Nat} {c : ℚ} (hone : 1 ≤ c) (hc : 4 * n ≤ c)
    (hlt : c < limit) : Bounded (Float.ofScientific n false 0) c := by
  have hslack : (n : ℚ) * slack ≤ n * 2 := mul_le_mul_of_nonneg_left slack_le_two n.cast_nonneg
  have hn : (0 : ℚ) ≤ n := n.cast_nonneg
  unfold Float.ofScientific
  split
  · rename_i hsmall
    have hunit : Bounded (Float.exactlyRepresentablePowersOfTen[0]) 1 := by
      have hunpack : (Float.exactlyRepresentablePowersOfTen[0]).toModel.unpack =
          .finite .positive (2 ^ 52) (-52) (by decide) := by rfl
      unfold Bounded
      rw [hunpack]
      exact .finite ⟨by decide, by decide, .inl le_rfl⟩ (by norm_num)
    refine (bounded_toFloat hsmall.1).mul hunit hone (le_trans ?_ hc) hlt
    linarith
  · refine atMost_pack (f := UnpackedFloat.ofScientific .binary64 n 0)
      (atMost_ofScientific le_rfl hone (le_trans ?_ hc)) hlt
    rw [zpow_zero, mul_one]
    linarith

/-- **A fraction as a float.** -/
theorem bounded_ofScientific_fraction {n places : Nat} {c : ℚ} (hone : 2 ^ (60 : ℤ) ≤ c)
    (hc : 2 * (n * 10 ^ (-places : ℤ)) ≤ c) (hlt : c < limit) :
    Bounded (Float.ofScientific n true places) c := by
  have hone' : 1 ≤ c := le_trans (by norm_num) hone
  unfold Float.ofScientific
  split
  · rename_i hsmall
    have hn : (n : ℚ) ≤ 2 ^ 53 := by exact_mod_cast hsmall.1.le
    refine atMost_pack (atMost_div_of_atLeastOne (bounded_toFloat hsmall.1)
      (atLeastOne_powersOfTen ⟨places, by omega⟩) hone' ?_) hlt
    calc (2 * n * slack : ℚ)
        ≤ 2 * 2 ^ 53 * 2 := mul_le_mul (by linarith) slack_le_two slack_pos.le (by positivity)
      _ ≤ c := le_trans (by norm_num) hone
  · have hexponent : Int.negOfNat places = -places := Int.negOfNat_eq
    refine atMost_pack (f := UnpackedFloat.ofScientific .binary64 n (Int.negOfNat places))
      (atMost_ofScientific (by omega) hone' ?_) hlt
    rw [hexponent]
    have hnonneg : (0 : ℚ) ≤ n * 10 ^ (-places : ℤ) := mul_nonneg n.cast_nonneg (by positivity)
    calc (n * 10 ^ (-places : ℤ) * slack : ℚ)
        ≤ n * 10 ^ (-places : ℤ) * 2 := mul_le_mul_of_nonneg_left slack_le_two hnonneg
      _ ≤ c := (mul_comm _ _).trans_le hc

end CandidateSearch.Number
