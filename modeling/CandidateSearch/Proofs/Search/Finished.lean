/-
  CandidateSearch/Proofs/Search/Finished.lean
  ===========================================
  **Runs that come to their end.**

  A run that is short of steps stops with the solutions that it has found by then, and so
  gives a list like one that is complete.  A run is finished if every pull stays within
  the steps and the last one finds the end.

  A finished run has found what the nested loops find: there is a depth at which the
  exploration ends, and it ends with the same solutions (`explore_of_finishes`).
-/
import CandidateSearch.Proofs.Search.Refinement

namespace CandidateSearch.Search

/-- The pulls give solutions and then the end, and no more pulls are needed than a run
    makes. -/
def Finishes (fuel : Nat) (p : Plan.Program) (b : Bindings) : Prop :=
  ∃ (stream : Stream) (sols : List Solution), Stream.start p b none = .ok stream ∧
    sols.length < fuel ∧
    (stream.pulls fuel (sols.length + 1)).1 = sols.map .solution ++ [.done]

/-! ### What a run collects -/

namespace Stream

variable {stream : Stream} {fuel : Nat}

theorem collectOnto_of_pulls {sols found : List Solution} {n : Nat} (hlength : sols.length < n)
    (h : (stream.pulls fuel (sols.length + 1)).1 = sols.map .solution ++ [.done]) :
    stream.collectOnto fuel n found = .ok (sols.reverse ++ found) := by
  induction sols generalizing stream found n with
  | nil =>
    obtain ⟨n, rfl⟩ := Nat.exists_eq_succ_of_ne_zero (Nat.ne_of_gt hlength)
    rcases hpull : stream.pull fuel with ⟨item, next⟩
    have hitem : item = .done := by simpa [pulls, hpull] using h
    simp [collectOnto, hpull, hitem]
  | cons solution sols ih =>
    obtain ⟨n, rfl⟩ := Nat.exists_eq_succ_of_ne_zero (Nat.ne_of_gt (Nat.zero_lt_of_lt hlength))
    rw [List.length_cons, pulls_succ, List.map_cons, List.cons_append, List.cons.injEq] at h
    rcases hpull : stream.pull fuel with ⟨item, next⟩
    rw [hpull] at h
    obtain ⟨rfl, hrest⟩ := h
    rw [collectOnto, hpull]
    simp [ih (by simpa using hlength) hrest]

/-- The solutions of pulls that found the end after them. -/
def completed? : List Item → Option (List Solution)
  | [.done] => some []
  | .solution s :: rest => (completed? rest).map (s :: ·)
  | _ => none

theorem eq_of_completed? {items : List Item} {sols : List Solution}
    (h : completed? items = some sols) : items = sols.map .solution ++ [.done] := by
  fun_induction completed? items generalizing sols with
  | case1 =>
    cases h
    rfl
  | case2 s rest ih =>
    obtain ⟨sols, hrest, rfl⟩ := Option.map_eq_some_iff.mp h
    simp [ih hrest]
  | case3 => cases h

/-- The machine has been through the solutions and then has nothing left to do. -/
theorem trace_of_pulls {sols : List Solution} (hopen : stream.Unlimited)
    (h : (stream.pulls fuel (sols.length + 1)).1 = sols.map .solution ++ [.done]) :
    ∃ n < (sols.length + 1) * fuel, ∃ goal m last,
      Trace (exec stream.program) stream.snapshot n stream.goal stream.machine sols goal m ∧
        step (exec stream.program) goal m = .exhausted last := by
  induction sols generalizing stream with
  | nil =>
    have hitem : (stream.pull fuel).1 = .done := by simpa [pulls_succ, pulls] using h
    cases hsearch : search (exec stream.program) fuel stream.goal stream.machine with
    | exhausted last =>
      obtain ⟨i, hi, goal, m, htrace, hstep⟩ := trace_of_search stream.snapshot hsearch (by simp)
      exact ⟨i, by simpa using hi, goal, m, last, htrace, hstep⟩
    | solved m => simp [pull_of_solved hopen hsearch] at hitem
    | faulted f m => simp [pull_of_faulted hopen hsearch] at hitem
    | unfinished goal m =>
      obtain ⟨hended, hlimit⟩ := hopen
      simp [pull, isClosed, hended, hlimit, hsearch] at hitem
  | cons solution sols ih =>
    rw [List.length_cons, pulls_succ, List.map_cons, List.cons_append, List.cons.injEq] at h
    obtain ⟨hitem, hrest⟩ := h
    cases hsearch : search (exec stream.program) fuel stream.goal stream.machine with
    | solved middle =>
      obtain ⟨i, hi, goal, m, htrace, rfl, rfl⟩ :=
        trace_of_search stream.snapshot hsearch (by simp)
      rw [pull_of_solved hopen hsearch] at hitem hrest
      obtain rfl : stream.snapshot m.store = solution := by simpa using hitem
      obtain ⟨n, hn, goal, m', last, hlater, hstep⟩ := @ih (stream.moveTo .failure m) hopen hrest
      refine ⟨i + (n + 1), ?_, goal, m', last, htrace.trans (.solved hlater), hstep⟩
      rw [List.length_cons, Nat.succ_mul]
      omega
    | exhausted m => simp [pull_of_exhausted hopen hsearch] at hitem
    | faulted f m => simp [pull_of_faulted hopen hsearch] at hitem
    | unfinished goal m =>
      obtain ⟨hended, hlimit⟩ := hopen
      simp [pull, isClosed, hended, hlimit, hsearch] at hitem

end Stream

theorem run_of_pulls {fuel : Nat} {p : Plan.Program} {b : Bindings} {stream : Stream}
    {sols : List Solution} (hstart : Stream.start p b none = .ok stream)
    (hlength : sols.length < fuel)
    (h : (stream.pulls fuel (sols.length + 1)).1 = sols.map .solution ++ [.done]) :
    run fuel p b none = .ok sols := by
  have hcollect : stream.collectOnto fuel fuel [] = .ok (sols.reverse ++ []) :=
    Stream.collectOnto_of_pulls hlength h
  simp [run, hstart, bind, Except.bind, Stream.collect, hcollect, Except.map]

/-- The solutions of a run that ends after the given number of them. -/
def finished? (fuel count : Nat) (p : Plan.Program) (b : Bindings) : Option (List Solution) :=
  match Stream.start p b none with
  | .ok stream => (Stream.completed? (stream.pulls fuel (count + 1)).1).filter fun sols =>
      sols.length = count ∧ count < fuel
  | .error _ => none

theorem finishes_of_finished? {fuel count : Nat} {p : Plan.Program} {b : Bindings}
    {sols : List Solution} (h : finished? fuel count p b = some sols) :
    run fuel p b none = .ok sols ∧ Finishes fuel p b := by
  unfold finished? at h
  split at h
  · rename_i stream hstart
    obtain ⟨hcompleted, hcount⟩ := Option.filter_eq_some_iff.mp h
    obtain ⟨rfl, hlength⟩ := of_decide_eq_true hcount
    have hpulls := Stream.eq_of_completed? hcompleted
    exact ⟨run_of_pulls hstart hlength hpulls, stream, sols, hstart, hlength, hpulls⟩
  · cases h

/-! ### Where the exploration ends -/

/-- Of two traces from one place that both stop, neither is longer. -/
theorem Trace.eq_of_stopped {κ α : Type} {exec : Exec κ} {view : Store → α} {n n' : Nat}
    {goal goal₁ goal₂ : Goal κ} {m m₁ m₂ : Machine κ} {out out' : List α} {stop stop' : Stop κ}
    (h : Trace exec view n goal m out goal₁ m₁) (h' : Trace exec view n' goal m out' goal₂ m₂)
    (hstop : stop.At exec goal₁ m₁) (hstop' : stop'.At exec goal₂ m₂)
    (hunsolved : ∀ last, stop ≠ .solved last) (hunsolved' : ∀ last, stop' ≠ .solved last) :
    out = out' ∧ goal₁ = goal₂ ∧ m₁ = m₂ := by
  rcases Nat.le_total n n' with hle | hle
  · obtain ⟨rest, rfl, hrest⟩ := h.split h' hle
    have hzero := hstop.eq_zero hunsolved hrest
    rw [hzero] at hrest
    cases hrest
    exact ⟨by simp, rfl, rfl⟩
  · obtain ⟨rest, rfl, hrest⟩ := h'.split h hle
    have hzero := hstop'.eq_zero hunsolved' hrest
    rw [hzero] at hrest
    cases hrest
    exact ⟨by simp, rfl, rfl⟩

/-- **A finished run is an exploration that ends.** -/
theorem explore_of_finishes {fuel : Nat} {p : Plan.Program} {b : Bindings} {sols : List Solution}
    (hrun : run fuel p b none = .ok sols) (hfinishes : Finishes fuel p b) :
    ∃ depth s, explore depth p b = .ok ⟨sols, .done s⟩ := by
  obtain ⟨stream, found, hstart, hlength, hpulls⟩ := hfinishes
  obtain rfl : found = sols := by
    rw [run_of_pulls hstart hlength hpulls] at hrun
    exact Except.ok.inj hrun
  rcases start_cases p b with ⟨f, herror, -⟩ | ⟨callee, outputs, s, hstart', hexplore⟩
  · rw [hstart] at herror
    cases herror
  rw [hstart] at hstart'
  cases hstart'
  obtain ⟨n, hn, goal, m, last, htrace, hstep⟩ := Stream.trace_of_pulls ⟨rfl, rfl⟩ hpulls
  have hat : (Stop.exhausted last).At (exec p) goal m := hstep
  -- at a depth beyond the length of the run the exploration is not cut
  obtain ⟨steps, goal', m', htrace', hend⟩ :=
    calls_simulate p (snapshotOf outputs) ((found.length + 1) * fuel) callee [] _
      (simulates_emit p outputs _) s []
  refine ⟨(found.length + 1) * fuel, ?_⟩
  rw [hexplore]
  rcases hsweep : exploreModule p ((found.length + 1) * fuel) callee (emit outputs) s
    with ⟨out, s' | f | _⟩
  · rw [hsweep] at htrace' hend
    obtain ⟨rfl, rfl⟩ := hend
    have hat' : (Stop.exhausted ⟨s', []⟩).At (exec p) .failure ⟨s', []⟩ := rfl
    obtain ⟨rfl, -, -⟩ := htrace.eq_of_stopped htrace' hat hat' (by simp) (by simp)
    exact ⟨s', rfl⟩
  · rw [hsweep] at htrace' hend
    obtain ⟨last', hstep'⟩ := hend
    have hat' : (Stop.faulted f last').At (exec p) goal' m' := hstep'
    obtain ⟨-, rfl, rfl⟩ := htrace.eq_of_stopped htrace' hat hat' (by simp) (by simp)
    rw [hstep] at hstep'
    cases hstep'
  · rw [hsweep] at htrace' hend
    have hlonger : (found.length + 1) * fuel ≤ steps := hend
    obtain ⟨rest, -, hrest⟩ := htrace.split htrace' (by omega)
    have hzero := hat.eq_zero (by simp) hrest
    omega

end CandidateSearch.Search
