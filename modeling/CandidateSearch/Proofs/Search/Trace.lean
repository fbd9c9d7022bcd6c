/-
  CandidateSearch/Proofs/Search/Trace.lean
  ========================================
  **What the machine does, step by step.**

  A trace joins the searches of a run together: after a solution the machine goes on as
  it does after a failure.  A trace has a length and a list of what was seen of the store
  at each solution on the way.

      success, s₁  ⟶  failure, s₁  ⟶  run job, s₁  ⟶  …  ⟶  success, s₂  ⟶  …

  The machine is deterministic, so of two traces from one place the longer one goes on
  where the shorter one stops (`Trace.split`).  What a stream gives can be read off a
  trace (`pulls_of_trace`), and a stream that does not run out of steps gives no more
  than what stands in a trace that is long enough (`count_le_of_trace`).
-/
import CandidateSearch.Search.Solutions

namespace CandidateSearch.Search

section Machines

variable {κ α : Type} {exec : Exec κ} {view : Store → α}

/-- The machine gets from one goal to another in so many steps, and of each solution on
    the way it is recorded what is seen of the store. -/
inductive Trace (exec : Exec κ) (view : Store → α) :
    Nat → Goal κ → Machine κ → List α → Goal κ → Machine κ → Prop where
  | refl (goal : Goal κ) (m : Machine κ) : Trace exec view 0 goal m [] goal m
  | on {n : Nat} {goal goal' goal'' : Goal κ} {m m' m'' : Machine κ} {out : List α} :
      step exec goal m = .on goal' m' → Trace exec view n goal' m' out goal'' m'' →
      Trace exec view (n + 1) goal m out goal'' m''
  | solved {n : Nat} {goal' : Goal κ} {m m' : Machine κ} {out : List α} :
      Trace exec view n .failure m out goal' m' →
      Trace exec view (n + 1) .success m (view m.store :: out) goal' m'

namespace Trace

variable {n n' : Nat} {goal goal' goal'' : Goal κ} {m m' m'' : Machine κ} {out out' : List α}

theorem trans (h : Trace exec view n goal m out goal' m')
    (h' : Trace exec view n' goal' m' out' goal'' m'') :
    Trace exec view (n + n') goal m (out ++ out') goal'' m'' := by
  induction h with
  | refl goal m => simpa using h'
  | on hstep _ ih =>
    have hrest := Trace.on hstep (ih h')
    rwa [Nat.add_right_comm] at hrest
  | solved _ ih =>
    have hrest := Trace.solved (ih h')
    rwa [Nat.add_right_comm] at hrest

/-- **Determinism.**  The longer of two traces from one place goes on where the shorter
    one stops. -/
theorem split (h : Trace exec view n goal m out goal' m')
    (h' : Trace exec view n' goal m out' goal'' m'') (hle : n ≤ n') :
    ∃ rest, out' = out ++ rest ∧ Trace exec view (n' - n) goal' m' rest goal'' m'' := by
  induction h generalizing n' out' with
  | refl goal m => exact ⟨out', rfl, h'⟩
  | on hstep _ ih =>
    cases h' with
    | refl => omega
    | on hstep' hrest =>
      rw [hstep] at hstep'
      cases hstep'
      obtain ⟨rest, hout, htrace⟩ := ih hrest (by omega)
      exact ⟨rest, hout, by simpa using htrace⟩
    | solved => simp [step] at hstep
  | solved _ ih =>
    cases h' with
    | refl => omega
    | on hstep' => simp [step] at hstep'
    | solved hrest =>
      obtain ⟨rest, rfl, htrace⟩ := ih hrest (by omega)
      exact ⟨rest, rfl, by simpa using htrace⟩

/-- A trace with a solution goes silently up to it and then on from a failure. -/
theorem cons_inv {a : α} (h : Trace exec view n goal m (a :: out) goal' m') :
    ∃ i j middle, n = i + 1 + j ∧ Trace exec view i goal m [] .success middle ∧
      view middle.store = a ∧ Trace exec view j .failure middle out goal' m' := by
  generalize hall : a :: out = all at h
  induction h with
  | refl => cases hall
  | on hstep _ ih =>
    obtain ⟨i, j, middle, rfl, hsilent, ha, hrest⟩ := ih hall
    exact ⟨i + 1, j, middle, by omega, .on hstep hsilent, ha, hrest⟩
  | @solved n _ m _ _ hrest _ =>
    cases hall
    exact ⟨0, n, m, by omega, .refl _ _, rfl, hrest⟩

end Trace

/-! ### Traces and searches -/

variable {n fuel : Nat} {goal goal' : Goal κ} {m m' : Machine κ}

theorem search_of_silent (h : Trace exec view n goal m [] goal' m') (more : Nat) :
    search exec (n + more) goal m = search exec more goal' m' := by
  generalize hnone : ([] : List α) = out at h
  induction h with
  | refl goal m => simp
  | on hstep _ ih =>
    rw [Nat.add_right_comm, search, hstep]
    exact ih hnone
  | solved => cases hnone

/-- The step at which a search stops in this way. -/
def Stop.At (exec : Exec κ) (goal : Goal κ) (m : Machine κ) : Stop κ → Prop
  | .solved last => goal = .success ∧ m = last
  | .exhausted last => step exec goal m = .exhausted last
  | .faulted fault last => step exec goal m = .faulted fault last
  | .unfinished _ _ => False

/-- No step leads on from a place where the search is over. -/
theorem Stop.At.eq_zero {stop : Stop κ} {out : List α} (hat : stop.At exec goal m)
    (hunsolved : ∀ last, stop ≠ .solved last) (h : Trace exec view n goal m out goal' m') :
    n = 0 := by
  cases h with
  | refl => rfl
  | on hstep => cases stop <;> simp_all [Stop.At]
  | solved => cases stop <;> simp_all [Stop.At, step]

theorem step_eq_solved {last : Machine κ} (h : step exec goal m = .solved last) :
    goal = .success ∧ m = last := by
  cases goal with
  | success => exact ⟨rfl, by simpa [step] using h⟩
  | failure =>
    obtain ⟨store, choices⟩ := m
    cases choices <;> simp [step] at h
  | run job =>
    simp only [step] at h
    split at h <;> cases h

-- how a search that is not cut short got to its end
theorem trace_of_search (view : Store → α) {stop : Stop κ} (h : search exec fuel goal m = stop)
    (hfinished : ∀ goal m, stop ≠ .unfinished goal m) :
    ∃ i < fuel, ∃ goal' m', Trace exec view i goal m [] goal' m' ∧ stop.At exec goal' m' := by
  induction fuel generalizing goal m with
  | zero => exact absurd h.symm (hfinished goal m)
  | succ fuel ih =>
    rw [search] at h
    cases hstep : step exec goal m with
    | on next machine =>
      rw [hstep] at h
      obtain ⟨i, hi, goal', m', htrace, hend⟩ := ih h
      exact ⟨i + 1, by omega, goal', m', .on hstep htrace, hend⟩
    | solved machine =>
      rw [hstep] at h
      subst h
      exact ⟨0, by omega, goal, m, .refl _ _, step_eq_solved hstep⟩
    | exhausted machine =>
      rw [hstep] at h
      subst h
      exact ⟨0, by omega, goal, m, .refl _ _, hstep⟩
    | faulted fault machine =>
      rw [hstep] at h
      subst h
      exact ⟨0, by omega, goal, m, .refl _ _, hstep⟩

end Machines

/-! ### Traces and streams -/

namespace Stream

/-- A stream that has not ended and gives as many solutions as there are. -/
def Unlimited (stream : Stream) : Prop := stream.ended = false ∧ stream.limit = none

def moveTo (stream : Stream) (goal : Goal Job) (m : Machine Job) : Stream :=
  { stream with goal, machine := m }

variable {stream : Stream} {fuel : Nat} {m : Machine Job}

theorem pull_of_solved (hopen : stream.Unlimited)
    (h : search (exec stream.program) fuel stream.goal stream.machine = .solved m) :
    stream.pull fuel = (.solution (stream.snapshot m.store), stream.moveTo .failure m) := by
  obtain ⟨hended, hlimit⟩ := hopen
  simp [pull, isClosed, hended, hlimit, h, moveTo]

theorem pull_of_exhausted (hopen : stream.Unlimited)
    (h : search (exec stream.program) fuel stream.goal stream.machine = .exhausted m) :
    stream.pull fuel = (.done, stream.close m) := by
  obtain ⟨hended, hlimit⟩ := hopen
  simp [pull, isClosed, hended, hlimit, h]

theorem pull_of_faulted {fault : Fault} (hopen : stream.Unlimited)
    (h : search (exec stream.program) fuel stream.goal stream.machine = .faulted fault m) :
    stream.pull fuel = (.fault fault, stream.close m) := by
  obtain ⟨hended, hlimit⟩ := hopen
  simp [pull, isClosed, hended, hlimit, h]

theorem pulls_succ (fuel n : Nat) (stream : Stream) :
    stream.pulls fuel (n + 1) =
      ((stream.pull fuel).1 :: ((stream.pull fuel).2.pulls fuel n).1,
        ((stream.pull fuel).2.pulls fuel n).2) := rfl

theorem pulls_concat {fuel n : Nat} {stream next : Stream} {items : List Item}
    (h : stream.pulls fuel n = (items, next)) :
    (stream.pulls fuel (n + 1)).1 = items ++ [(next.pull fuel).1] := by
  induction n generalizing stream items with
  | zero =>
    cases h
    rfl
  | succ n ih =>
    rw [pulls_succ] at h ⊢
    cases h
    rw [ih rfl]
    rfl

/-- A stream gives what was seen at the solutions of a trace, and is then silently on its
    way to the end of the trace. -/
theorem pulls_of_trace {n : Nat} {out : List Solution} {goal' : Goal Job} {m' : Machine Job}
    (hopen : stream.Unlimited)
    (h : Trace (exec stream.program) stream.snapshot n stream.goal stream.machine out goal' m')
    (hfuel : n < fuel) :
    ∃ i ≤ n, ∃ goal m, stream.pulls fuel out.length = (out.map .solution, stream.moveTo goal m) ∧
      Trace (exec stream.program) stream.snapshot i goal m [] goal' m' := by
  induction out generalizing stream n with
  | nil => exact ⟨n, Nat.le_refl n, stream.goal, stream.machine, rfl, h⟩
  | cons solution out ih =>
    obtain ⟨i, j, middle, rfl, hsilent, rfl, hrest⟩ := h.cons_inv
    obtain ⟨more, rfl⟩ : ∃ more, fuel = i + (more + 1) := ⟨fuel - i - 1, by omega⟩
    have hpull := pull_of_solved hopen (search_of_silent hsilent (more + 1))
    obtain ⟨i', hi', goal, m, hpulls, htrace⟩ :=
      @ih (stream.moveTo .failure middle) j hopen hrest (by omega)
    refine ⟨i', by omega, goal, m, ?_, htrace⟩
    rw [List.length_cons, pulls, hpull]
    simp only [hpulls]
    rfl

/-- A stream that does not run out of steps gives no more than what stands in a trace
    that is long enough. -/
theorem count_le_of_trace {n count : Nat} {out : List Solution} {goal' : Goal Job}
    {m' : Machine Job} (hopen : stream.Unlimited)
    (h : Trace (exec stream.program) stream.snapshot n stream.goal stream.machine out goal' m')
    (hlong : count * fuel ≤ n) (hfinished : .unfinished ∉ (stream.pulls fuel count).1) :
    count ≤ out.length := by
  induction count generalizing stream n out with
  | zero => exact Nat.zero_le _
  | succ count ih =>
    rw [Nat.succ_mul] at hlong
    rw [pulls_succ] at hfinished
    cases hsearch : search (exec stream.program) fuel stream.goal stream.machine with
    | unfinished goal m =>
      obtain ⟨hended, hlimit⟩ := hopen
      simp [pull, isClosed, hended, hlimit, hsearch] at hfinished
    | solved m =>
      obtain ⟨i, hi, goal, m, htrace, rfl, rfl⟩ :=
        trace_of_search stream.snapshot hsearch (by simp)
      have hfirst := htrace.trans (Trace.solved (Trace.refl .failure m))
      obtain ⟨rest, rfl, hrest⟩ := hfirst.split h (by omega)
      rw [pull_of_solved hopen hsearch] at hfinished
      have hcount := @ih (stream.moveTo .failure m) _ rest hopen hrest (by omega)
        (fun hmem => hfinished (List.mem_cons_of_mem _ hmem))
      simpa using hcount
    | exhausted m =>
      obtain ⟨i, hi, goal, m', htrace, hat⟩ := trace_of_search stream.snapshot hsearch (by simp)
      obtain ⟨rest, -, hrest⟩ := htrace.split h (by omega)
      have hover := hat.eq_zero (by simp) hrest
      omega
    | faulted fault m =>
      obtain ⟨i, hi, goal, m', htrace, hat⟩ := trace_of_search stream.snapshot hsearch (by simp)
      obtain ⟨rest, -, hrest⟩ := htrace.split h (by omega)
      have hover := hat.eq_zero (by simp) hrest
      omega

end Stream

end CandidateSearch.Search
