/-
  CandidateSearch/Proofs/Search/Ranges.lean
  =========================================
  **What a range binds.**

      X = for(-0.3, 0.25, 0.1);        -0.3  -0.2  -0.1  0  0.1  0.2

  If the numbers of a range fit into the digits of programs, then rounding the sums changes
  nothing, and the range binds the floats of all `first + k · step` that are not past the
  last number (`range_enumerates`).  The range fits if its first number and its step are
  multiples of some `10 ^ (-s)` and no number of it reaches `10 ^ (precision - s)`.

  The first number is turned into a float as it is written, and the others with all the
  digits of programs, as sums are.  This makes a difference, since the float of a large
  number depends on how it is written, and since there is none if the scale does not fit
  (`range_values_as_written`).
-/
import CandidateSearch.Proofs.Decimal.Floats
import CandidateSearch.Proofs.Search.Counting

namespace CandidateSearch

/-! ### Numbers of a progression -/

namespace Decimal

/-- `first + k · step`, at the larger of the two scales. -/
def progress (first step : Decimal) (k : Nat) : Decimal :=
  let scale := max first.scale step.scale
  ⟨first.coefficientAt scale + k * step.coefficientAt scale, scale⟩

/-- The same number as a range has it: the first one as it is written, and every other one
    as a sum. -/
def term (first step : Decimal) : Nat → Decimal
  | 0 => first
  | k + 1 => (progress first step (k + 1)).round

variable {first step : Decimal} {s : ℤ} {k : Nat}

theorem value_progress (first step : Decimal) (k : Nat) :
    (progress first step k).value = first.value + k * step.value := by
  have hfirst := value_coefficientAt (le_max_left first.scale step.scale)
  have hstep := value_coefficientAt (le_max_right first.scale step.scale)
  rw [value_mk] at hfirst hstep
  rw [progress, value_mk, ← hfirst, ← hstep]
  push_cast
  ring

/-- The number fits into the digits of programs. -/
def Representable (s : ℤ) (v : ℚ) : Prop := Multiple (-s) v ∧ |v| < 10 ^ (precision - s)

theorem Representable.value_round {d : Decimal} (h : Representable s d.value) : d.round.value = d.value := by
  rw [round, value_toPrecision]
  exact h.1.roundTo_eq h.2

theorem value_term (h : Representable s (first.value + k * step.value)) :
    (term first step k).value = first.value + k * step.value := by
  cases k with
  | zero => simp [term]
  | succ k =>
    rw [← value_progress] at h ⊢
    exact h.value_round

theorem coefficient_round_eq_zero {d : Decimal} (h : d.value = 0) : d.round.coefficient = 0 := by
  rw [← value_eq_zero_iff, round, value_toPrecision, h]
  exact Multiple.roundTo_eq_of_lastPlace ⟨0, by simp⟩

/-- Sums of one value have one float, even if they are zero and not written alike. -/
theorem toFloat_round_congr {a b : Decimal} (h : a.value = b.value) :
    a.round.toFloat = b.round.toFloat := by
  rcases eq_or_ne a.value 0 with hzero | hne
  · unfold toFloat
    rw [if_pos (coefficient_round_eq_zero hzero), if_pos (coefficient_round_eq_zero (h ▸ hzero))]
  · rw [round, round, toPrecision_congr h hne]

/-- The scale of a sum fits if `s` is not too large. -/
theorem inScale_round {d : Decimal} (h : Representable s d.value) (hs : s + precision ≤ 2 ^ 31) :
    d.round.InScale := by
  rcases eq_or_ne d.value 0 with hzero | hne
  · exact .inl (coefficient_round_eq_zero hzero)
  right
  have hcoefficient := mt value_eq_zero_iff.mpr hne
  have hscale : d.round.scale = precision - d.leading := scale_toPrecision d precision
  -- the coefficient has as many digits as programs have
  have hdigits : d.round.coefficient.natAbs < 2 ^ 80 := by
    have hvalue : d.round.coefficient.natAbs * (10 : ℚ) ^ (-(precision - d.leading) : ℤ) <
        10 ^ d.leading := by
      rw [← hscale, ← abs_value, h.value_round]
      exact (zpow_leading hcoefficient).2
    have hsplit : (10 : ℚ) ^ d.leading = 10 ^ precision * 10 ^ (-(precision - d.leading) : ℤ) := by
      rw [← zpow_natCast, ← zpow_add₀ (by norm_num)]
      congr 1
      omega
    rw [hsplit] at hvalue
    have hlt := lt_of_mul_lt_mul_right hvalue (unit_pos _).le
    have hnat : d.round.coefficient.natAbs < 10 ^ precision := by exact_mod_cast hlt
    exact hnat.trans (by decide)
  -- a multiple of the unit that is not zero is not smaller than the unit
  have hleading : -s < d.leading := by
    refine lt_of_not_ge fun hle => ?_
    have hsmall := (leading_le_iff hcoefficient).mp hle
    obtain ⟨n, hn⟩ := h.1
    have hone : (1 : ℚ) ≤ |(n : ℚ)| := by
      have hn0 : n ≠ 0 := by
        rintro rfl
        simp [hn] at hne
      exact_mod_cast Int.one_le_abs hn0
    rw [hn, abs_mul, abs_of_pos (unit_pos _)] at hsmall
    exact absurd hsmall (not_lt.mpr (le_mul_of_one_le_left (unit_pos _).le hone))
  rw [scale_shed_of_lt hdigits, hscale]
  omega

theorem inScale_term (hfits : Representable s (first.value + k * step.value)) (hfirst : first.InScale)
    (hs : s + precision ≤ 2 ^ 31) : (term first step k).InScale := by
  cases k with
  | zero => exact hfirst
  | succ k =>
    rw [← value_progress] at hfits
    exact inScale_round hfits hs

end Decimal

namespace Search

open Decimal (Multiple precision Representable term InScale)

namespace Range

variable {target : Ref} {first last step : Decimal} {s : ℤ}

/-- How many numbers of a progression are not past the last number. -/
def size (first last step : Decimal) : Nat := (⌊(last.value - first.value) / step.value⌋ + 1).toNat

theorem lt_size_iff (first last : Decimal) {step : Decimal} (hstep : 0 < step.value) (k : Nat) :
    k < size first last step ↔ first.value + k * step.value ≤ last.value := by
  have hfloor : (k : ℤ) ≤ ⌊(last.value - first.value) / step.value⌋ ↔
      first.value + k * step.value ≤ last.value := by
    rw [Int.le_floor, le_div_iff₀ hstep, Int.cast_natCast]
    constructor <;> intro h <;> linarith
  rw [← hfloor, size]
  omega

/-- The range fits into the digits of programs. -/
structure Exact (s : ℤ) (first last step : Decimal) : Prop where
  step_pos : 0 < step.value
  first_multiple : Multiple (-s) first.value
  step_multiple : Multiple (-s) step.value
  first_lt : |first.value| < 10 ^ (precision - s)
  last_lt : |last.value| + step.value < 10 ^ (precision - s)

/-- All numbers up to the one that is past the last number fit. -/
theorem Exact.fits (h : Exact s first last step) {k : Nat}
    (hk : first.value + k * step.value ≤ last.value + step.value) :
    Representable s (first.value + k * step.value) := by
  refine ⟨h.first_multiple.add (h.step_multiple.natCast_mul k), abs_lt.mpr ⟨?_, ?_⟩⟩
  · have hlow := (abs_lt.mp h.first_lt).1
    have hnonneg : 0 ≤ k * step.value := mul_nonneg k.cast_nonneg h.step_pos.le
    linarith
  · have hhigh := h.last_lt
    have habs := le_abs_self last.value
    linarith

/-- One sum leads from a number of the progression to the next one. -/
theorem Exact.add (h : Exact s first last step) {k : Nat}
    (hk : first.value + k * step.value ≤ last.value) {current : Decimal}
    (hvalue : current.value = first.value + k * step.value) :
    (current.add step).value = first.value + (k + 1 : ℕ) * step.value ∧
      (current.add step).toFloat = (term first step (k + 1)).toFloat := by
  have hsum : current.value + step.value = first.value + (k + 1 : ℕ) * step.value := by
    rw [hvalue]
    push_cast
    ring
  have hfits := h.fits (k := k + 1) (by push_cast; linarith)
  constructor
  · rw [Decimal.value_add, hsum]
    exact hfits.1.roundTo_eq hfits.2
  · refine Decimal.toFloat_round_congr ?_
    rw [Decimal.value_exactAdd, Decimal.value_progress, hsum]

/-- From the number with index `k` on, a range gives what is left of the progression. -/
theorem Exact.counts (h : Exact s first last step) (target : Ref) {left k : Nat}
    (hleft : k + left + 1 = size first last step) {current : Decimal}
    (hvalue : current.value = first.value + k * step.value)
    (hfloat : current.toFloat = (term first step k).toFloat) :
    ∃ numbers, Counts ⟨target, current, last, step⟩ numbers ∧
      numbers.map (·.toFloat) = (List.range' k (left + 1)).map fun k => (term first step k).toFloat := by
  have hsize := lt_size_iff first last h.step_pos
  induction left generalizing k current with
  | zero =>
    obtain ⟨hnext, -⟩ := h.add ((hsize k).mp (by omega)) hvalue
    refine ⟨[current], .last (next?_eq_none_iff.mpr ?_), by simp [hfloat]⟩
    refine lt_of_not_ge fun hle => ?_
    have := (hsize (k + 1)).mpr (hnext ▸ hle)
    omega
  | succ left ih =>
    obtain ⟨hnext, hnextFloat⟩ := h.add ((hsize k).mp (by omega)) hvalue
    obtain ⟨numbers, hcounts, hmap⟩ := ih (k := k + 1) (by omega) hnext hnextFloat
    refine ⟨current :: numbers, .more (next?_eq_some_iff.mpr ⟨?_, rfl⟩) hcounts, ?_⟩
    · exact hnext ▸ (hsize (k + 1)).mp (by omega)
    · rw [List.map_cons, hmap, hfloat]
      rfl

/-- From the first number on, a range gives the whole progression. -/
theorem Exact.counts_all (h : Exact s first last step) (target : Ref)
    (hsome : first.value ≤ last.value) :
    ∃ numbers, Counts ⟨target, first, last, step⟩ numbers ∧
      numbers.map (·.toFloat) =
        (List.range (size first last step)).map fun k => (term first step k).toFloat := by
  have hpos : 0 < size first last step :=
    (lt_size_iff first last h.step_pos 0).mpr (by simpa using hsome)
  have hall := h.counts target
    (show 0 + (size first last step - 1) + 1 = size first last step by omega)
    (show first.value = first.value + (0 : ℕ) * step.value by simp) rfl
  rw [Nat.sub_add_cancel hpos, ← List.range_eq_range'] at hall
  exact hall

/-- The numbers that are bound are those of the progression, and their floats are finite. -/
theorem Exact.finite_term (h : Exact s first last step) (hs : -280 ≤ s) {k : Nat}
    (hk : first.value + k * step.value ≤ last.value) (hscale : (term first step k).InScale) :
    (term first step k).value = first.value + k * step.value ∧
      (term first step k).toFloat.isFinite = true := by
  have hfits := h.fits (k := k) (by have := h.step_pos; linarith)
  have hterm := Decimal.value_term hfits
  refine ⟨hterm, Decimal.isFinite_toFloat ?_ hscale⟩
  rw [hterm]
  exact hfits.2.trans_le (zpow_le_zpow_right₀ (by norm_num) (by simp only [precision]; omega))

end Range

/-- **A range that fits binds its whole progression.**  The numbers `first + k · step` that
    are not past the last number are bound in order and once each, as floats, and then the
    search fails with no choice point left. -/
theorem range_enumerates {first last step : Decimal} {s : ℤ} (hs : -280 ≤ s)
    (hexact : Range.Exact s first last step)
    (hscale : ∀ k : Nat, first.value + k * step.value ≤ last.value → (term first step k).InScale)
    (p : Plan.Program) (after : List Activation) (target : Ref) (store : Store) (fuel : Nat)
    (hafter : proceed after = .success) (htarget : target < store.size) (hfuel : 3 ≤ fuel) :
    ∃ range n, Range.start? target first last step = .ok range ∧
      (∀ k : Nat, k < n ↔ first.value + k * step.value ≤ last.value) ∧
      (∀ k < n, (term first step k).value = first.value + k * step.value ∧
        (term first step k).toFloat.isFinite = true) ∧
      (search (exec p) fuel (startGenerator (range.map .range) after) ⟨store, []⟩).Binds (exec p)
        fuel target ((List.range n).map fun k => .number (term first step k).toFloat) := by
  obtain ⟨m, rfl⟩ := Nat.exists_eq_add_of_le' hfuel
  have hsize := Range.lt_size_iff first last hexact.step_pos
  have hvalue : ∀ k < Range.size first last step,
      (term first step k).value = first.value + k * step.value ∧
        (term first step k).toFloat.isFinite = true :=
    fun k hk => hexact.finite_term hs ((hsize k).mp hk) (hscale k ((hsize k).mp hk))
  refine ⟨_, _, Range.start?_eq target first last hexact.step_pos, hsize, hvalue, ?_⟩
  by_cases hsome : first.value ≤ last.value
  · obtain ⟨numbers, hcounts, hmap⟩ := hexact.counts_all target hsome
    have hfinite : ∀ d ∈ numbers, d.toFloat.isFinite = true := by
      intro d hd
      obtain ⟨k, hk, hfloat⟩ := List.mem_map.mp (hmap ▸ List.mem_map_of_mem hd)
      rw [← hfloat]
      exact (hvalue k (List.mem_range.mp hk)).2
    have hvalues : (List.range (Range.size first last step)).map
        (fun k => Value.number (term first step k).toFloat) =
          numbers.map fun d => .number d.toFloat := by
      have hnumbers := congrArg (List.map Value.number) hmap
      simpa only [List.map_map, Function.comp_def] using hnumbers.symm
    rw [if_pos hsome, hvalues]
    exact hcounts.binds (p := p) hafter hfinite htarget (m + 1) m
  · have hzero : Range.size first last step = 0 := by
      by_contra hne
      exact hsome (by simpa using (hsize 0).mp (Nat.pos_of_ne_zero hne))
    rw [if_neg hsome, hzero]
    exact .exhausted store

/-- A range of few units of one place fits, whatever the place. -/
theorem exact_units {a b c : Int} (s : Int) (hc : 0 < c) (ha : |a| < 10 ^ precision)
    (hb : |b| + c < 10 ^ precision) : Range.Exact s ⟨a, s⟩ ⟨b, s⟩ ⟨c, s⟩ := by
  have hunit := Decimal.unit_pos (-s)
  have hsplit : (10 : ℚ) ^ (precision - s) = 10 ^ precision * 10 ^ (-s) := by
    rw [sub_eq_add_neg, zpow_add₀ (by norm_num), zpow_natCast]
  refine ⟨Decimal.value_pos_iff.mpr hc, ⟨a, rfl⟩, ⟨c, rfl⟩, ?_, ?_⟩
  · rw [Decimal.value_mk, abs_mul, abs_of_pos hunit, hsplit]
    exact mul_lt_mul_of_pos_right (by exact_mod_cast ha) hunit
  · rw [Decimal.value_mk, Decimal.value_mk, abs_mul, abs_of_pos hunit, hsplit, ← add_mul]
    exact mul_lt_mul_of_pos_right (by exact_mod_cast hb) hunit

/-- From `-0.3` to `0.2` by tenths. -/
theorem range_enumerates_tenths :
    -280 ≤ (1 : ℤ) ∧ Range.Exact 1 ⟨-3, 1⟩ ⟨2, 1⟩ ⟨1, 1⟩ ∧
      (∀ k : Nat, (⟨-3, 1⟩ : Decimal).value + k * (⟨1, 1⟩ : Decimal).value ≤ (⟨2, 1⟩ : Decimal).value →
        (term ⟨-3, 1⟩ ⟨1, 1⟩ k).InScale) ∧
      ∃ range, Range.start? 0 ⟨-3, 1⟩ ⟨2, 1⟩ ⟨1, 1⟩ = .ok range ∧
        (search (exec ⟨[]⟩) manySteps (startGenerator (range.map .range) []) ⟨⟨#[⟨"X", none⟩]⟩, []⟩).Binds
          (exec ⟨[]⟩) manySteps 0
          (([-0.3, -0.2, -0.1, 0, 0.1, 0.2] : List Float).map .number) := by
  have hexact : Range.Exact 1 ⟨-3, 1⟩ ⟨2, 1⟩ ⟨1, 1⟩ :=
    exact_units 1 (by decide) (by decide) (by decide)
  have hscale : ∀ k : Nat,
      (⟨-3, 1⟩ : Decimal).value + k * (⟨1, 1⟩ : Decimal).value ≤ (⟨2, 1⟩ : Decimal).value →
        (term ⟨-3, 1⟩ ⟨1, 1⟩ k).InScale := by
    intro k hk
    refine Decimal.inScale_term (hexact.fits ?_) (.inr (by decide)) (by decide)
    have := hexact.step_pos
    linarith
  refine ⟨by decide, hexact, hscale, ?_⟩
  obtain ⟨range, n, hrange, hn, -, hbinds⟩ := range_enumerates (by decide) hexact hscale
    ⟨[]⟩ [] 0 ⟨#[⟨"X", none⟩]⟩ manySteps rfl (by decide) (by decide)
  have hsix : n = 6 := by
    have hlast := (hn 5).mpr (by norm_num)
    have hpast := mt (hn 6).mp (by norm_num)
    omega
  subst hsix
  refine ⟨range, hrange, ?_⟩
  have hfloats : (List.range 6).map (fun k => (term ⟨-3, 1⟩ ⟨1, 1⟩ k).toFloat) =
      [-0.3, -0.2, -0.1, 0, 0.1, 0.2] := by
    decide +kernel
  rw [← hfloats, List.map_map]
  exact hbinds

/-- **Values depend on how numbers are written.**  From `1e-3000000000` to
    `2e-3000000000` the search faults, since there is no float for such a scale.  From
    `4e43` to `5e43` by `1e43` the second value is not the float of `5e43`. -/
theorem range_values_as_written :
    (Range.Exact 3000000000 ⟨1, 3000000000⟩ ⟨2, 3000000000⟩ ⟨1, 3000000000⟩ ∧
      ∃ range fault m, Range.start? 0 ⟨1, 3000000000⟩ ⟨2, 3000000000⟩ ⟨1, 3000000000⟩ = .ok range ∧
        search (exec ⟨[]⟩) manySteps (startGenerator (range.map .range) []) ⟨⟨#[⟨"X", none⟩]⟩, []⟩ =
          .faulted fault m) ∧
    Range.Exact (-43) ⟨4, -43⟩ ⟨5, -43⟩ ⟨1, -43⟩ ∧
      ∃ range first second, Range.start? 0 ⟨4, -43⟩ ⟨5, -43⟩ ⟨1, -43⟩ = .ok range ∧
        (search (exec ⟨[]⟩) manySteps (startGenerator (range.map .range) [])
          ⟨⟨#[⟨"X", none⟩]⟩, []⟩).Binds (exec ⟨[]⟩) manySteps 0 [.number first, .number second] ∧
        Decimal.progress ⟨4, -43⟩ ⟨1, -43⟩ 1 = ⟨5, -43⟩ ∧
        second ≠ (⟨5, -43⟩ : Decimal).toFloat := by
  refine ⟨⟨exact_units _ (by decide) (by decide) (by decide), ?_⟩,
    exact_units _ (by decide) (by decide) (by decide), ?_⟩
  · exact ⟨some ⟨0, ⟨1, 3000000000⟩, ⟨2, 3000000000⟩, ⟨1, 3000000000⟩⟩, _, _, rfl,
      Range.search_generate_fault (by decide +kernel) (manySteps - 1)⟩
  · have hnext : Range.next? ⟨0, ⟨4, -43⟩, ⟨5, -43⟩, ⟨1, -43⟩⟩ =
        some ⟨0, ⟨50000000000000000000, -24⟩, ⟨5, -43⟩, ⟨1, -43⟩⟩ := rfl
    have hbinds := (Range.Counts.more hnext (.last rfl)).binds (p := ⟨[]⟩)
      (show proceed [] = .success from rfl) (s := ⟨#[⟨"X", none⟩]⟩) (by decide +kernel) (by decide)
      (manySteps - 2) (manySteps - 3)
    exact ⟨_, _, _, rfl, hbinds, by decide, by decide +kernel⟩

end Search

end CandidateSearch
