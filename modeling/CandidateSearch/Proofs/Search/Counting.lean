/-
  CandidateSearch/Proofs/Search/Counting.lean
  ===========================================
  **The numbers of a range, and when they come to an end.**

  A range adds its step to the current number and goes on while the sum is not past the
  last number.  Sums are rounded, so a step can be lost, and the range then offers one
  number over and over.  This happens if the last number is not below the `stall` of the
  step, unless the range is empty or holds its first number only; in every other case the
  numbers increase and come to an end (`exists_counts`, `not_counts`).

  Below the stall each sum is more than the number before it.  All the numbers are
  multiples of one unit, the smaller of those of the first number and the step, since
  rounding never leads to smaller units; so there is room for finitely many of them.
-/
import CandidateSearch.Proofs.Decimal.Stepping
import CandidateSearch.Proofs.Search.Refinement
import Mathlib.Algebra.Order.Archimedean.Basic
import Mathlib.Data.List.Chain
import Mathlib.Logic.Relation

namespace CandidateSearch.Search

open Decimal (precision stall Multiple)

/-! ### Numbers of a range -/

namespace Range

/-- The numbers that a range offers, if they come to an end. -/
inductive Counts : Range → List Decimal → Prop where
  | last {r : Range} (h : r.next? = none) : Counts r [r.current]
  | more {r next : Range} {rest : List Decimal} (h : r.next? = some next)
      (hrest : Counts next rest) : Counts r (r.current :: rest)

/-- What is left of a range at some point. -/
def Reaches : Range → Range → Prop := Relation.ReflTransGen fun r next => r.next? = some next

variable {r next : Range} {target : Ref} {first last step : Decimal}

theorem next?_eq_some_iff :
    r.next? = some next ↔
      (r.current.add r.step).value ≤ r.last.value ∧
        next = { r with current := r.current.add r.step } := by
  rw [← Decimal.atMost_iff, next?]
  split
  · rename_i hle
    simp [hle, eq_comm]
  · rename_i hlt
    simp [hlt]

theorem next?_eq_none_iff :
    r.next? = none ↔ r.last.value < (r.current.add r.step).value := by
  rw [← not_le, ← Decimal.atMost_iff, next?]
  split <;> simp_all

theorem start?_eq (target : Ref) (first last : Decimal) {step : Decimal} (hstep : 0 < step.value) :
    start? target first last step =
      .ok (if first.value ≤ last.value then some ⟨target, first, last, step⟩ else none) := by
  have hpositive : ¬ step.atMost (.ofInt 0) = true := by
    simpa [Decimal.atMost_iff] using hstep
  rw [start?, if_neg hpositive]
  simp only [Decimal.atMost_iff]
  split <;> rfl

/-! ### Ranges that end -/

/-- The numbers are multiples of one unit, and there is room for so many of them. -/
theorem counts_of_room (hstep : 0 < r.step.value) (hstall : r.last.value < stall precision r.step.value)
    {k : ℤ} (hunit : Multiple k r.step.value) (hcurrent : Multiple k r.current.value)
    (hle : r.current.value ≤ r.last.value) {room : Nat}
    (hroom : r.last.value < r.current.value + room * 10 ^ k) :
    ∃ numbers, r.Counts numbers ∧ numbers.IsChain fun a b => a.value < b.value := by
  induction room generalizing r with
  | zero =>
    rw [Nat.cast_zero, zero_mul, add_zero] at hroom
    exact absurd hle (not_le.mpr hroom)
  | succ room ih =>
    cases hnext : r.next? with
    | none => exact ⟨[r.current], .last hnext, List.isChain_singleton _⟩
    | some next =>
      obtain ⟨hbound, rfl⟩ := next?_eq_some_iff.mp hnext
      have hincrease : r.current.value < (r.current.add r.step).value := by
        rw [Decimal.value_add]
        exact Decimal.lt_roundTo_add (by decide) hstep (hle.trans_lt hstall)
      have hmultiple : Multiple k (r.current.add r.step).value := by
        rw [Decimal.value_add]
        exact (hcurrent.add hunit).roundTo
      have hgap := hcurrent.add_unit_le hmultiple hincrease
      push_cast at hroom
      obtain ⟨numbers, hcounts, hchain⟩ :=
        ih (r := { r with current := r.current.add r.step }) hstep hstall hunit hmultiple hbound
          (show r.last.value < (r.current.add r.step).value + _ by linarith)
      refine ⟨r.current :: numbers, .more hnext hcounts, ?_⟩
      refine List.isChain_cons.mpr ⟨fun second hsecond => ?_, hchain⟩
      cases hcounts <;> cases Option.some.inj hsecond <;> exact hincrease

theorem counts_of_lt_stall (hstep : 0 < r.step.value)
    (hstall : r.last.value < stall precision r.step.value) (hle : r.current.value ≤ r.last.value) :
    ∃ numbers, r.Counts numbers ∧ numbers.IsChain fun a b => a.value < b.value := by
  have hpos := Decimal.unit_pos (min (-r.current.scale) (-r.step.scale))
  obtain ⟨room, hroom⟩ := exists_nat_gt
    ((r.last.value - r.current.value) / 10 ^ min (-r.current.scale) (-r.step.scale))
  rw [div_lt_iff₀ hpos] at hroom
  exact counts_of_room hstep hstall ((Decimal.multiple_value r.step).mono (min_le_right _ _))
    ((Decimal.multiple_value r.current).mono (min_le_left _ _)) hle (by linarith)

/-! ### Ranges that do not end -/

/-- Once a sum has been taken there is always a further one that is not past the last
    number: it is at most the stall, or it is the same as before. -/
theorem add_add_le (hstep : 0 < step.value) (hlast : stall precision step.value ≤ last.value)
    (hle : (first.add step).value ≤ last.value) :
    ((first.add step).add step).value ≤ last.value := by
  rw [Decimal.value_add]
  rcases lt_or_ge (first.add step).value (stall precision step.value) with hlt | hge
  · exact (Decimal.roundTo_add_le_stall (by decide) hstep hlt).trans hlast
  · have hpos : 0 < (first.add step).value := (Decimal.stall_pos _ _).trans_le hge
    rw [Decimal.roundTo_add_eq hstep hge]
    · exact hle
    · rw [Decimal.value_add] at hpos ⊢
      refine Decimal.multiple_lastPlace_roundTo (by decide) (lt_of_not_ge fun h => ?_)
      exact absurd hpos (not_lt.mpr (Decimal.roundTo_mem_of_nonpos h).2)

theorem not_counts (hstep : 0 < r.step.value) (hlast : stall precision r.step.value ≤ r.last.value)
    (hle : (r.current.add r.step).value ≤ r.last.value) (numbers : List Decimal) :
    ¬ r.Counts numbers := by
  intro hcounts
  induction hcounts with
  | last hnext => exact absurd hle (not_le.mpr (next?_eq_none_iff.mp hnext))
  | more hnext _ ih =>
    obtain ⟨-, rfl⟩ := next?_eq_some_iff.mp hnext
    exact ih hstep hlast (add_add_le hstep hlast hle)

end Range

/-! ### Runs of a range -/

/-- The values that a variable is bound to by a search and by looking for the next solution
    until there is none.  No choice point is left then. -/
inductive Stop.Binds {κ : Type} (exec : Exec κ) (fuel : Nat) (target : Ref) :
    Stop κ → List Value → Prop where
  | exhausted (s : Store) : Binds exec fuel target (.exhausted ⟨s, []⟩) []
  | solved {m : Machine κ} {v : Value} {vs : List Value} (hv : m.store.value? target = some v)
      (hrest : Binds exec fuel target (redo exec fuel m) vs) :
      Binds exec fuel target (.solved m) (v :: vs)

/-- Every number of the range has a finite float. -/
def Range.Convertible (r : Range) : Prop :=
  ∀ left, r.Reaches left → left.current.toFloat.isFinite = true

namespace Range

variable {p : Plan.Program} {after : List Activation} {r : Range} {s : Store} {fuel : Nat}

theorem value?_write {target : Ref} (h : target < s.size) (v : Value) :
    (s.write target v).value? target = some v := by
  rw [Store.value?, Store.cell_write_self v h]

/-- One number of a range is bound, and the rest of the range is left as a choice point. -/
theorem search_generate (hafter : proceed after = .success)
    (hfinite : r.current.toFloat.isFinite = true) (n : Nat) :
    search (exec p) (n + 2) (.run (.generate (.range r) after)) ⟨s, []⟩ =
      .solved ⟨s.write r.target (.number r.current.toFloat),
        r.next?.toList.map fun next => .generate (.range next) after⟩ := by
  have hvalue : Value.ofDecimal? r.current = .ok (.number r.current.toFloat) := by
    simp [Value.ofDecimal?, Decimal.toFloat?, hfinite, Except.map]
  have hbind : (Generator.range r).bind s = .ok () (s.write r.target (.number r.current.toFloat)) := by
    rw [Generator.bind, hvalue]
    rfl
  have hexec : exec p (.generate (.range r) after) s =
      .ok { choices := r.next?.toList.map fun next => .generate (.range next) after
            goal := .success } (s.write r.target (.number r.current.toFloat)) := by
    rw [exec_generate, Effect.bind_of_ok hbind, hafter]
    cases hnext : r.next? <;> simp [Generator.next?, hnext] <;> rfl
  simp [search, Search.step, hexec]

/-- A number without a finite float is a fault. -/
theorem search_generate_fault (hfinite : r.current.toFloat.isFinite = false) (n : Nat) :
    search (exec p) (n + 1) (.run (.generate (.range r) after)) ⟨s, []⟩ =
      .faulted (.nonFinite r.current.text) ⟨s, []⟩ := by
  have hvalue : Value.ofDecimal? r.current = .error (.nonFinite r.current.text) := by
    simp [Value.ofDecimal?, Decimal.toFloat?, hfinite, Except.map]
  have hbind : (Generator.range r).bind s = .error (.nonFinite r.current.text) s := by
    rw [Generator.bind, hvalue]
    rfl
  have hexec : exec p (.generate (.range r) after) s = .error (.nonFinite r.current.text) s := by
    rw [exec_generate, Effect.bind_of_error hbind]
  simp [search, Search.step, hexec]

theorem Counts.reaches {numbers : List Decimal} (hcounts : r.Counts numbers) :
    ∀ d ∈ numbers, ∃ left, r.Reaches left ∧ left.current = d := by
  induction hcounts with
  | last _ =>
    rintro d hd
    cases List.mem_singleton.mp hd
    exact ⟨_, .refl, rfl⟩
  | more hnext _ ih =>
    refine List.forall_mem_cons.mpr ⟨⟨_, .refl, rfl⟩, fun d hd => ?_⟩
    obtain ⟨left, hleft, hd⟩ := ih d hd
    exact ⟨left, .head hnext hleft, hd⟩

/-- **A range that ends is enumerated by the search.** -/
theorem Counts.binds {numbers : List Decimal} (hcounts : r.Counts numbers)
    (hafter : proceed after = .success)
    (hfinite : ∀ d ∈ numbers, d.toFloat.isFinite = true) (htarget : r.target < s.size) (n m : Nat) :
    (search (exec p) (n + 2) (.run (.generate (.range r) after)) ⟨s, []⟩).Binds (exec p) (m + 3)
      r.target (numbers.map fun d => .number d.toFloat) := by
  induction hcounts generalizing s n with
  | last hnext =>
    rw [search_generate hafter (hfinite _ (by simp)), hnext]
    exact .solved (value?_write htarget _) (.exhausted _)
  | more hnext _ ih =>
    obtain ⟨hhead, hrest⟩ := List.forall_mem_cons.mp hfinite
    rw [search_generate hafter hhead, hnext]
    obtain ⟨-, rfl⟩ := next?_eq_some_iff.mp hnext
    exact .solved (value?_write htarget _) (ih hrest (by simpa using htarget) m)

/-- **Only a range that ends lets the search come to an end.** -/
theorem counts_of_binds (hafter : proceed after = .success) (hconvertible : r.Convertible)
    (htarget : r.target < s.size) {n m : Nat} {vs : List Value}
    (h : (search (exec p) (n + 2) (.run (.generate (.range r) after)) ⟨s, []⟩).Binds (exec p) (m + 3)
      r.target vs) : ∃ numbers, r.Counts numbers := by
  induction vs generalizing r s n with
  | nil =>
    rw [search_generate hafter (hconvertible r .refl)] at h
    cases h
  | cons v vs ih =>
    rw [search_generate hafter (hconvertible r .refl)] at h
    cases hnext : r.next? with
    | none => exact ⟨_, .last hnext⟩
    | some next =>
      rw [hnext] at h
      cases h with
      | solved _ hrest =>
        obtain ⟨-, rfl⟩ := next?_eq_some_iff.mp hnext
        obtain ⟨numbers, hcounts⟩ := ih
          (fun left hleft => hconvertible left (.head hnext hleft)) (by simpa using htarget) hrest
        exact ⟨_, .more hnext hcounts⟩

end Range

/-! ### Which ranges end -/

namespace Range

/-- The range is empty, it stays below the stall of its step, or it holds one number. -/
def Ends (first last step : Decimal) : Prop :=
  last.value < first.value ∨ last.value < stall precision step.value ∨
    last.value < (first.add step).value

/-- The numbers that a range offers, if there is one. -/
inductive Lists : Option Range → List Decimal → Prop where
  | empty : Lists none []
  | counts {r : Range} {numbers : List Decimal} (h : r.Counts numbers) : Lists (some r) numbers

def Increasing (numbers : List Decimal) : Prop := numbers.Pairwise fun a b => a.value < b.value

variable {target : Ref} {first last step : Decimal} {range : Option Range}

theorem ends_of_lists (hstep : 0 < step.value)
    (hrange : start? target first last step = .ok range) {numbers : List Decimal}
    (hlists : Lists range numbers) : Ends first last step := by
  by_contra hends
  simp only [Ends, not_or, not_lt] at hends
  obtain ⟨hle, hstall, hmore⟩ := hends
  rw [start?_eq _ _ _ hstep, if_pos hle] at hrange
  cases hrange
  cases hlists with
  | counts hcounts =>
    exact not_counts (r := ⟨target, first, last, step⟩) hstep hstall hmore numbers hcounts

theorem lists_of_ends (hstep : 0 < step.value)
    (hrange : start? target first last step = .ok range) (hends : Ends first last step) :
    ∃ numbers, Lists range numbers ∧ Increasing numbers := by
  rw [start?_eq _ _ _ hstep] at hrange
  cases hrange
  split
  · rename_i hle
    rcases hends with hempty | hstall | hone
    · exact absurd hle (not_le.mpr hempty)
    · obtain ⟨numbers, hcounts, hchain⟩ :=
        counts_of_lt_stall (r := ⟨target, first, last, step⟩) hstep hstall hle
      have : Trans (fun a b : Decimal => a.value < b.value) (fun a b : Decimal => a.value < b.value)
        (fun a b : Decimal => a.value < b.value) := ⟨lt_trans⟩
      exact ⟨numbers, .counts hcounts, List.isChain_iff_pairwise.mp hchain⟩
    · exact ⟨[first], .counts (.last (next?_eq_none_iff.mpr hone)), List.pairwise_singleton _ _⟩
  · exact ⟨[], .empty, .nil⟩

/-- A search comes to an end if and only if the numbers do. -/
theorem exists_binds_iff {p : Plan.Program} {after : List Activation} {s : Store} {fuel : Nat}
    (hstep : 0 < step.value) (hrange : start? target first last step = .ok range)
    (hafter : proceed after = .success) (htarget : target < s.size) (hfuel : 3 ≤ fuel)
    (hconvertible : ∀ r ∈ range, r.Convertible) :
    (∃ vs, (search (exec p) fuel (startGenerator (range.map .range) after) ⟨s, []⟩).Binds (exec p)
      fuel target vs) ↔ ∃ numbers, Lists range numbers := by
  obtain ⟨n, rfl⟩ := Nat.exists_eq_add_of_le' hfuel
  cases range with
  | none => exact ⟨fun _ => ⟨[], .empty⟩, fun _ => ⟨[], .exhausted s⟩⟩
  | some r =>
    have hconvertible := hconvertible r rfl
    have htarget : r.target = target := by
      rw [start?_eq _ _ _ hstep] at hrange
      split at hrange <;> cases hrange
      rfl
    subst htarget
    constructor
    · rintro ⟨vs, hbinds⟩
      obtain ⟨numbers, hcounts⟩ := counts_of_binds hafter hconvertible ‹_› hbinds
      exact ⟨numbers, .counts hcounts⟩
    · rintro ⟨numbers, hlists⟩
      cases hlists with
      | counts hcounts =>
        refine ⟨_, hcounts.binds hafter (fun d hd => ?_) ‹_› (n + 1) n⟩
        obtain ⟨left, hleft, rfl⟩ := hcounts.reaches d hd
        exact hconvertible left hleft

end Range

/-- **Which ranges end.**  The numbers of a range with a positive step increase and come to
    an end in the three cases of `Ends`, and otherwise never.  A search that binds them
    comes to an end in the same cases, where they all have finite floats. -/
theorem ranges_end_iff (target : Ref) (first last : Decimal) {step : Decimal}
    (hstep : 0 < step.value) :
    ∃ range, Range.start? target first last step = .ok range ∧
      ((∃ numbers, Range.Lists range numbers ∧ Range.Increasing numbers) ↔
        Range.Ends first last step) ∧
      ∀ (p : Plan.Program) (after : List Activation) (s : Store) (fuel : Nat),
        proceed after = .success → target < s.size → 3 ≤ fuel →
        (∀ r ∈ range, r.Convertible) →
        ((∃ vs, (search (exec p) fuel (startGenerator (range.map .range) after) ⟨s, []⟩).Binds
          (exec p) fuel target vs) ↔ Range.Ends first last step) := by
  have hrange := Range.start?_eq target first last hstep
  refine ⟨_, hrange, ⟨?_, Range.lists_of_ends hstep hrange⟩, ?_⟩
  · rintro ⟨numbers, hlists, -⟩
    exact Range.ends_of_lists hstep hrange hlists
  · intro p after s fuel hafter htarget hfuel hconvertible
    rw [Range.exists_binds_iff hstep hrange hafter htarget hfuel hconvertible]
    constructor
    · rintro ⟨numbers, hlists⟩
      exact Range.ends_of_lists hstep hrange hlists
    · intro hends
      obtain ⟨numbers, hlists, -⟩ := Range.lists_of_ends hstep hrange hends
      exact ⟨numbers, hlists⟩

/-- A range whose only number is too large for its step. -/
def lostStep : Range := ⟨0, ⟨1, -30⟩, ⟨1, -30⟩, .one⟩

theorem add_lostStep : lostStep.current.add lostStep.step = ⟨10000000000000000000, -11⟩ := by
  decide +kernel

theorem convertible_lostStep : lostStep.Convertible := by
  have hagain : Decimal.add ⟨10000000000000000000, -11⟩ lostStep.step =
      ⟨10000000000000000000, -11⟩ := by
    decide +kernel
  have hreaches : ∀ left, lostStep.Reaches left → left.step = lostStep.step ∧
      left.current ∈ [lostStep.current, ⟨10000000000000000000, -11⟩] := by
    intro left hleft
    induction hleft with
    | refl => exact ⟨rfl, by simp⟩
    | tail _ hnext ih =>
      obtain ⟨hstep, hcurrent⟩ := ih
      obtain ⟨-, rfl⟩ := Range.next?_eq_some_iff.mp hnext
      refine ⟨hstep, ?_⟩
      simp only [List.mem_cons, List.not_mem_nil, or_false] at hcurrent ⊢
      rcases hcurrent with hcurrent | hcurrent
      · exact .inr (by rw [hstep, hcurrent, add_lostStep])
      · exact .inr (by rw [hstep, hcurrent, hagain])
  intro left hleft
  have hfinite : [lostStep.current, ⟨10000000000000000000, -11⟩].all (·.toFloat.isFinite) = true := by
    decide +kernel
  exact List.all_eq_true.mp hfinite _ (hreaches left hleft).2

theorem not_ends_lostStep : ¬ Range.Ends lostStep.current lostStep.last lostStep.step := by
  have hlog : Nat.log 10 2 = 0 := Nat.log_of_lt (by decide)
  have hstall : stall precision lostStep.step.value = 10 ^ 20 := by
    norm_num [stall, lostStep, Decimal.one, precision, hlog]
  simp only [Range.Ends, not_or, not_lt, hstall, add_lostStep]
  refine ⟨le_rfl, ?_, ?_⟩ <;> norm_num [lostStep]

/-- The range from `1e30` to `1e30` by steps of one never ends. -/
theorem ranges_end_iff_lostStep :
    0 < lostStep.step.value ∧
      Range.start? 0 lostStep.current lostStep.last lostStep.step = .ok lostStep ∧
      (¬ ∃ numbers, Range.Lists (some lostStep) numbers ∧ Range.Increasing numbers) ∧
      lostStep.Convertible ∧
      ¬ ∃ vs, (search (exec ⟨[]⟩) manySteps (startGenerator (some (.range lostStep)) [])
        ⟨⟨#[⟨"X", none⟩]⟩, []⟩).Binds (exec ⟨[]⟩) manySteps 0 vs := by
  have hstep : 0 < lostStep.step.value := by
    rw [Decimal.value_pos_iff]
    decide
  obtain ⟨range, hrange, hnumbers, hbinds⟩ :=
    ranges_end_iff 0 lostStep.current lostStep.last hstep
  have hsome : range = some lostStep := by
    have hle : lostStep.current.value ≤ lostStep.last.value := le_rfl
    rw [Range.start?_eq _ _ _ hstep, if_pos hle] at hrange
    exact (Except.ok.inj hrange).symm
  subst hsome
  refine ⟨hstep, hrange, mt hnumbers.mp not_ends_lostStep, convertible_lostStep, ?_⟩
  refine mt (hbinds _ _ _ _ rfl (by decide) (by decide) ?_).mp not_ends_lostStep
  rintro r ⟨⟩
  exact convertible_lostStep

end CandidateSearch.Search
