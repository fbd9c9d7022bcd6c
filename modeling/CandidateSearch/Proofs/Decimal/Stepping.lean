/-
  CandidateSearch/Proofs/Decimal/Stepping.lean
  ============================================
  **Adding a positive step to a number and rounding the sum.**

  Rounding gives back what a step has added as soon as the step is less than half a unit
  of the last digit.  For `p` digits this is so from the power of ten on that `stall` gives:

      c < stall        the sum is more than c, and at most stall
      stall ≤ c        the sum is c, if c has p digits

  The rounding half up and the carry into the next power of ten both count here: a step of
  exactly half a unit is still enough.
-/
import CandidateSearch.Proofs.Decimal.Rounding

namespace CandidateSearch.Decimal

/-- Where a step starts to be lost. -/
def stall (p : Nat) (step : ℚ) : ℚ := 10 ^ (Int.log 10 (2 * step) + p)

section Stepping

variable {p : Nat} {c step : ℚ}

theorem stall_pos (p : Nat) (step : ℚ) : 0 < stall p step := unit_pos _

/-- The unit of the last digit of a number below the stall is at most twice the step. -/
theorem unit_le_of_lt_stall (hstep : 0 < step) {x : ℚ}
    (h : Int.log 10 |x| < Int.log 10 (2 * step) + p) : 10 ^ lastPlace p x ≤ 2 * step := by
  have hlog := Int.zpow_log_le_self (b := 10) (r := 2 * step) (by decide) (by linarith)
  rw [Nat.cast_ofNat] at hlog
  refine le_trans (zpow_le_zpow_right₀ (by norm_num) ?_) hlog
  unfold lastPlace
  omega

theorem lt_unit_of_stall_le (step : ℚ) {x : ℚ}
    (h : Int.log 10 (2 * step) + p ≤ Int.log 10 |x|) : 2 * step < 10 ^ lastPlace p x := by
  have hlog := Int.lt_zpow_succ_log_self (b := 10) (by decide) (2 * step)
  rw [Nat.cast_ofNat] at hlog
  refine hlog.trans_le (zpow_le_zpow_right₀ (by norm_num) ?_)
  unfold lastPlace
  omega

theorem zpow_log_le {x : ℚ} (h : 0 < x) : 10 ^ Int.log 10 |x| ≤ x := by
  have hlog := Int.zpow_log_le_self (b := 10) (r := |x|) (by decide) (abs_pos.mpr h.ne')
  rw [abs_of_pos h] at hlog ⊢
  exact_mod_cast hlog

theorem lt_zpow_log {x : ℚ} (h : 0 < x) : x < 10 ^ (Int.log 10 |x| + 1) := by
  have hlog := Int.lt_zpow_succ_log_self (b := 10) (by decide) |x|
  rw [abs_of_pos h] at hlog ⊢
  exact_mod_cast hlog

theorem log_eq_of_mem {x : ℚ} {l : ℤ} (hlow : 10 ^ l ≤ x) (hhigh : x < 10 ^ (l + 1)) :
    Int.log 10 |x| = l := by
  have hpos : 0 < x := (unit_pos l).trans_le hlow
  rw [abs_of_pos hpos]
  have hle := (Int.zpow_le_iff_le_log (b := 10) (by decide) hpos).mp (by exact_mod_cast hlow)
  have hlt := (Int.lt_zpow_iff_log_lt (b := 10) (by decide) hpos).mp (by exact_mod_cast hhigh)
  omega

theorem multiple_zpow_log (hp : 0 < p) (x : ℚ) : Multiple (lastPlace p x) (10 ^ Int.log 10 |x|) := by
  apply Multiple.zpow
  unfold lastPlace
  omega

theorem multiple_zpow_log_succ (x : ℚ) : Multiple (lastPlace p x) (10 ^ (Int.log 10 |x| + 1)) := by
  apply Multiple.zpow
  unfold lastPlace
  omega

/-- **Below the stall every step counts.** -/
theorem lt_roundTo_add (hp : 0 < p) (hstep : 0 < step) (h : c < stall p step) :
    c < roundTo p (c + step) := by
  rcases le_or_gt (c + step) 0 with hx | hx
  · have := (roundTo_mem_of_nonpos (p := p) hx).1
    linarith
  rcases lt_or_ge (Int.log 10 |c + step|) (Int.log 10 (2 * step) + p) with hlog | hlog
  · have hunit := unit_le_of_lt_stall hstep hlog
    have := lt_roundTo_add_half (p := p) hx
    linarith
  · -- the sum is past the stall, and is not rounded below a power of ten
    calc c < stall p step := h
      _ ≤ 10 ^ Int.log 10 |c + step| := zpow_le_zpow_right₀ (by norm_num) hlog
      _ ≤ roundTo p (c + step) := le_roundTo hx (multiple_zpow_log hp _) (zpow_log_le hx)

theorem roundTo_add_le_stall (hp : 0 < p) (hstep : 0 < step) (h : c < stall p step) :
    roundTo p (c + step) ≤ stall p step := by
  rcases le_or_gt (c + step) 0 with hx | hx
  · exact (roundTo_mem_of_nonpos hx).2.trans (stall_pos p step).le
  rcases lt_or_ge (Int.log 10 |c + step|) (Int.log 10 (2 * step) + p) with hlog | hlog
  · have hupper : c + step < 10 ^ (Int.log 10 |c + step| + 1) + 10 ^ lastPlace p (c + step) / 2 := by
      have := unit_pos (lastPlace p (c + step))
      have := lt_zpow_log hx
      linarith
    exact (roundTo_le hx (multiple_zpow_log_succ _) hupper).trans
      (zpow_le_zpow_right₀ (by norm_num) hlog)
  · have hunit := lt_unit_of_stall_le (p := p) step hlog
    -- one step from below the stall does not get far beyond it
    have htwice : 2 * step < stall p step := by
      have hlt := Int.lt_zpow_succ_log_self (b := 10) (by decide) (2 * step)
      rw [Nat.cast_ofNat] at hlt
      exact hlt.trans_le (zpow_le_zpow_right₀ (by norm_num) (by omega))
    have hplace : Int.log 10 |c + step| = Int.log 10 (2 * step) + p := by
      refine log_eq_of_mem ((zpow_le_zpow_right₀ (by norm_num) hlog).trans (zpow_log_le hx)) ?_
      rw [zpow_add_one₀ (by norm_num)]
      change c + step < stall p step * 10
      linarith
    have hmultiple : Multiple (lastPlace p (c + step)) (stall p step) := by
      apply Multiple.zpow
      unfold lastPlace
      omega
    exact roundTo_le hx hmultiple (by linarith)

/-- **Past the stall a rounded number stays as it is.** -/
theorem roundTo_add_eq (hstep : 0 < step) (h : stall p step ≤ c)
    (hc : Multiple (lastPlace p c) c) : roundTo p (c + step) = c := by
  have hpos : 0 < c := (stall_pos p step).trans_le h
  have hx : 0 < c + step := by linarith
  have hlog : Int.log 10 (2 * step) + p ≤ Int.log 10 |c| := by
    rw [← Int.zpow_le_iff_le_log (by decide) (abs_pos.mpr hpos.ne'), abs_of_pos hpos]
    exact_mod_cast h
  have hunit := lt_unit_of_stall_le (p := p) step hlog
  -- the sum has its first digit at the same place
  have hplace : lastPlace p (c + step) = lastPlace p c := by
    have hnext := hc.add_unit_le (multiple_zpow_log_succ c) (lt_zpow_log hpos)
    have hlow := zpow_log_le hpos
    rw [lastPlace, lastPlace, log_eq_of_mem (l := Int.log 10 |c|) (by linarith) (by linarith)]
  refine le_antisymm (roundTo_le hx (hplace ▸ hc) ?_) (le_roundTo hx (hplace ▸ hc) (by linarith))
  rw [hplace]
  linarith

/-- A positive number has `p` digits once it is rounded, even if there was a carry. -/
theorem multiple_lastPlace_roundTo (hp : 0 < p) {x : ℚ} (hx : 0 < x) :
    Multiple (lastPlace p (roundTo p x)) (roundTo p x) := by
  have hlow : 10 ^ Int.log 10 |x| ≤ roundTo p x :=
    le_roundTo hx (multiple_zpow_log hp _) (zpow_log_le hx)
  rcases lt_or_ge (roundTo p x) (10 ^ (Int.log 10 |x| + 1)) with hlt | hge
  · refine (multiple_lastPlace p x).mono ?_
    rw [lastPlace, lastPlace, log_eq_of_mem hlow hlt]
  · have hcarry : roundTo p x = 10 ^ (Int.log 10 |x| + 1) := by
      refine le_antisymm (roundTo_le hx (multiple_zpow_log_succ _) ?_) hge
      have := unit_pos (lastPlace p x)
      have := lt_zpow_log hx
      linarith
    rw [hcarry]
    apply Multiple.zpow
    have hone := zpow_lt_zpow_right₀ (a := (10 : ℚ)) (by norm_num) (Int.log 10 |x| + 1).lt_succ
    rw [lastPlace, log_eq_of_mem le_rfl hone]
    omega

end Stepping

end CandidateSearch.Decimal
