/-
  CandidateSearch/Proofs/Search/Derivation.lean
  =============================================
  **What has been done, and what of it has led here.**

  A situation is a state of the machine together with its history: all the jobs that have
  been run, and those among them that have led to where the machine is.  A branch that is
  given up stays in the history, but leads nowhere.

      main     method 1:  Y = true;  test(false);        all that is done:   enter  m1  retry  m2
               method 2:  X = true;                      its derivation:     retry  m2

  The history explains the store.  A cell holds what was written into it last, and it does
  not matter whether that was on the way here or on a branch that was given up
  (`Replays.value?`).  Every job on the way here went on without a failure.

  A solution that a stream gives is read off in a situation in which the machine has
  succeeded (`solves_of_pull`).
-/
import CandidateSearch.Proofs.Search.Acts
import CandidateSearch.Proofs.Search.InRange
import CandidateSearch.Proofs.Search.Trace
import Mathlib.Logic.Relation

namespace CandidateSearch.Search

/-! ### Situations -/

/-- A job that has been run, and the store in which it was. -/
structure Deed (κ : Type) where
  job : κ
  store : Store

structure Situation (κ : Type) where
  goal : Goal κ
  machine : Machine κ
  deeds : List (Deed κ) := []            -- all that has been done, the earliest first
  path : List (Deed κ) := []             -- what of it has led here
  paths : List (List (Deed κ)) := []     -- what has led to each of the choice points

section Machines

variable {κ : Type} {exec : Exec κ} {x y : Situation κ}

namespace Situation

/-- The situation after one step of the machine.  A choice point is left on the way that
    has led to the job, and is taken up there. -/
def next? (exec : Exec κ) (x : Situation κ) : Option (Situation κ) :=
  match x.goal, step exec x.goal x.machine with
  | .run job, .on goal m =>
      let deed : Deed κ := ⟨job, x.machine.store⟩
      some ⟨goal, m, x.deeds ++ [deed], x.path ++ [deed],
        List.replicate (m.depth - x.machine.depth) x.path ++ x.paths⟩
  | _, .on goal m => some ⟨goal, m, x.deeds, x.paths.headD [], x.paths.tail⟩
  | _, .solved m => some { x with goal := .failure, machine := m }
  | _, _ => none

/-- The situation that is left after a job with such an outcome. -/
def ran (x : Situation κ) (job : κ) (outcome : Outcome κ) (s : Store) : Situation κ :=
  let deed : Deed κ := ⟨job, x.machine.store⟩
  ⟨outcome.goal, ⟨s, outcome.choices ++ x.machine.choices⟩, x.deeds ++ [deed], x.path ++ [deed],
    List.replicate outcome.choices.length x.path ++ x.paths⟩

/-- The situation in which a choice point is taken up. -/
def resumed (x : Situation κ) (job : κ) (rest : List κ) : Situation κ :=
  ⟨.run job, ⟨x.machine.store, rest⟩, x.deeds, x.paths.headD [], x.paths.tail⟩

/-- What a step can be: the search for a further solution begins, a choice point is taken
    up, or a job is run. -/
theorem next?_cases (h : x.next? exec = some y) :
    (x.goal = .success ∧ y = { x with goal := .failure }) ∨
      (∃ job rest, x.goal = .failure ∧ x.machine.choices = job :: rest ∧ y = x.resumed job rest) ∨
      ∃ job outcome s, x.goal = .run job ∧ exec job x.machine.store = .ok outcome s ∧
        y = x.ran job outcome s := by
  obtain ⟨goal, ⟨store, choices⟩, deeds, path, paths⟩ := x
  cases goal with
  | success =>
    left
    simpa [next?, step, eq_comm] using h
  | failure =>
    right; left
    cases choices with
    | nil => simp [next?, step] at h
    | cons job rest =>
      refine ⟨job, rest, rfl, rfl, ?_⟩
      simpa [next?, step, resumed, eq_comm] using h
  | run job =>
    right; right
    cases hrun : exec job store with
    | error fault s => simp [next?, step, hrun] at h
    | ok outcome s =>
      refine ⟨job, outcome, s, rfl, hrun, ?_⟩
      simpa [next?, step, hrun, ran, Machine.depth, eq_comm] using h

/-- Where the machine goes on, so does its history. -/
theorem next?_of_on {goal : Goal κ} {m : Machine κ} (h : step exec x.goal x.machine = .on goal m) :
    ∃ y, x.next? exec = some y ∧ y.goal = goal ∧ y.machine = m := by
  obtain ⟨goal', machine, deeds, path, paths⟩ := x
  cases goal' <;> simp [next?, h]

end Situation

/-- One situation comes after the other in a run. -/
abbrev LeadsTo (exec : Exec κ) : Situation κ → Situation κ → Prop :=
  Relation.ReflTransGen fun x y => x.next? exec = some y

/-- The situation after so many steps. -/
def Situation.after? (exec : Exec κ) : Nat → Situation κ → Option (Situation κ)
  | 0, x => some x
  | steps + 1, x => (x.next? exec).bind (after? exec steps)

theorem leadsTo_of_after? {steps : Nat} (h : x.after? exec steps = some y) : LeadsTo exec x y := by
  induction steps generalizing x with
  | zero =>
    cases h
    exact .refl
  | succ steps ih =>
    obtain ⟨middle, hnext, hrest⟩ := Option.bind_eq_some_iff.mp h
    exact .head hnext (ih hrest)

/-! ### Histories -/

/-- The deeds, one after the other, lead from one store to the other. -/
def Replays (exec : Exec κ) : Store → List (Deed κ) → Store → Prop
  | s, [], s' => s = s'
  | s, d :: rest, s' =>
      d.store = s ∧ ∃ outcome s₁, exec d.job s = .ok outcome s₁ ∧ Replays exec s₁ rest s'

theorem replays_append {s s' : Store} {first second : List (Deed κ)} :
    Replays exec s (first ++ second) s' ↔
      ∃ s₁, Replays exec s first s₁ ∧ Replays exec s₁ second s' := by
  induction first generalizing s with
  | nil => simp [Replays]
  | cons d rest ih =>
    simp only [List.cons_append, Replays, ih]
    grind

/-- The job did not end with a failure or a fault. -/
def Deed.WentOn (exec : Exec κ) (d : Deed κ) : Prop :=
  ∃ outcome s, exec d.job d.store = .ok outcome s ∧ outcome.goal ≠ .failure

/-- The history explains how the machine got from the store to where it is. -/
structure Situation.Recorded (exec : Exec κ) (s : Store) (x : Situation κ) : Prop where
  replays : Replays exec s x.deeds x.machine.store
  path : x.path.Sublist x.deeds
  paths : ∀ path ∈ x.paths, path.Sublist x.deeds
  wentOn : x.goal ≠ .failure → ∀ d ∈ x.path, d.WentOn exec
  pathsWentOn : ∀ path ∈ x.paths, ∀ d ∈ path, d.WentOn exec
  depth : x.paths.length = x.machine.depth

/-- **One step.** -/
theorem Situation.Recorded.next {s : Store} (h : x.Recorded exec s)
    (hnext : x.next? exec = some y) : y.Recorded exec s := by
  obtain ⟨hreplays, hpath, hpaths, hwent, hpathsWent, hdepth⟩ := h
  obtain ⟨-, rfl⟩ | ⟨job, rest, -, hchoices, rfl⟩ | ⟨job, outcome, s', hgoal, hrun, rfl⟩ :=
    Situation.next?_cases hnext
  · exact ⟨hreplays, hpath, hpaths, fun hne => absurd rfl hne, hpathsWent, hdepth⟩
  · -- there is a way for each of the choice points, so for the first one too
    rw [Machine.depth, hchoices, List.length_cons] at hdepth
    obtain ⟨first, others, hsplit⟩ := List.exists_cons_of_length_eq_add_one hdepth
    rw [hsplit] at hpaths hpathsWent hdepth
    obtain ⟨hfirst, hothers⟩ := List.forall_mem_cons.mp hpaths
    obtain ⟨hfirstWent, hothersWent⟩ := List.forall_mem_cons.mp hpathsWent
    unfold Situation.resumed
    rw [hsplit]
    exact ⟨hreplays, hfirst, hothers, fun _ => hfirstWent, hothersWent, Nat.succ.inj hdepth⟩
  · have hwentBefore : ∀ d ∈ x.path, d.WentOn exec := hwent (by simp [hgoal])
    refine ⟨?_, ?_, ?_, ?_, ?_, ?_⟩
    · exact replays_append.mpr ⟨_, hreplays, rfl, outcome, s', hrun, rfl⟩
    · exact hpath.append (List.Sublist.refl _)
    · intro path hmem
      apply List.Sublist.trans _ (List.sublist_append_left _ _)
      rcases List.mem_append.mp hmem with hnew | hold
      · rw [List.eq_of_mem_replicate hnew]
        exact hpath
      · exact hpaths path hold
    · intro hne d hd
      rcases List.mem_append.mp hd with hbefore | hlast
      · exact hwentBefore d hbefore
      · rw [List.mem_singleton.mp hlast]
        exact ⟨outcome, s', hrun, hne⟩
    · intro path hmem
      rcases List.mem_append.mp hmem with hnew | hold
      · rw [List.eq_of_mem_replicate hnew]
        exact hwentBefore
      · exact hpathsWent path hold
    · simp [Situation.ran, Machine.depth, hdepth]

/-- **Whole runs** are recorded. -/
theorem Situation.Recorded.leadsTo {s : Store} (h : x.Recorded exec s) (hleads : LeadsTo exec x y) :
    y.Recorded exec s := by
  induction hleads with
  | refl => exact h
  | tail _ hnext ih => exact ih.next hnext

/-- The jobs that have been run, the one to run and those that are left satisfy `P`. -/
structure Situation.Deals (P : κ → Prop) (x : Situation κ) : Prop where
  jobs : Holds P x.goal x.machine.choices
  deeds : ∀ d ∈ x.deeds, P d.job

theorem Situation.Deals.next {P : κ → Prop}
    (hexec : ∀ job, P job → Gives (exec job) fun outcome => Holds P outcome.goal outcome.choices)
    (h : x.Deals P) (hnext : x.next? exec = some y) : y.Deals P := by
  obtain ⟨hjobs, hdeeds⟩ := h
  obtain ⟨hgoal, hchoices⟩ := holds_iff.mp hjobs
  obtain ⟨-, rfl⟩ | ⟨job, rest, -, hsplit, rfl⟩ | ⟨job, outcome, s, hjob, hrun, rfl⟩ :=
    Situation.next?_cases hnext
  · exact ⟨holds_iff.mpr ⟨by simp [Goal.jobs], hchoices⟩, hdeeds⟩
  · rw [hsplit] at hchoices
    exact ⟨hchoices, hdeeds⟩
  · have hP : P job := hgoal job (by simp [hjob, Goal.jobs])
    obtain ⟨hnext, hnew⟩ := holds_iff.mp (hexec job hP _ outcome s hrun)
    refine ⟨holds_iff.mpr ⟨hnext, List.forall_mem_append.mpr ⟨hnew, hchoices⟩⟩, ?_⟩
    exact List.forall_mem_append.mpr ⟨hdeeds, List.forall_mem_singleton.mpr hP⟩

/-! ### Searches -/

/-- Where the machine is when a search ends with a solution or is cut short. -/
def Stop.place? : Stop κ → Option (Goal κ × Machine κ)
  | .solved m => some (.success, m)
  | .unfinished goal m => some (goal, m)
  | .exhausted _ | .faulted _ _ => none

theorem leadsTo_of_search (fuel : Nat) (x : Situation κ) {goal : Goal κ} {m : Machine κ}
    (h : (search exec fuel x.goal x.machine).place? = some (goal, m)) :
    ∃ y, LeadsTo exec x y ∧ y.goal = goal ∧ y.machine = m := by
  induction fuel generalizing x with
  | zero =>
    cases h
    exact ⟨x, .refl, rfl, rfl⟩
  | succ fuel ih =>
    rw [search] at h
    cases hstep : step exec x.goal x.machine with
    | on goal' m' =>
      rw [hstep] at h
      obtain ⟨y, hnext, rfl, rfl⟩ := Situation.next?_of_on hstep
      obtain ⟨z, hleads, hz⟩ := ih y h
      exact ⟨z, .head hnext hleads, hz⟩
    | solved m' =>
      rw [hstep] at h
      cases h
      obtain ⟨hgoal, rfl⟩ := step_eq_solved hstep
      exact ⟨x, .refl, hgoal, rfl⟩
    | exhausted m' | faulted _ m' =>
      rw [hstep] at h
      cases h

end Machines

/-! ### What the cells hold -/

/-- What was written in the course of a deed, the earliest first. -/
def Deed.writes (d : Deed Job) : List (Ref × Value) := d.job.writes d.store

/-- Something was written into the cell in the course of the deed. -/
def Deed.Binds (d : Deed Job) (r : Ref) : Prop := ∃ v, (r, v) ∈ d.writes

/-- What was written in the course of deeds one after the other. -/
def writesOfAll (deeds : List (Deed Job)) : List (Ref × Value) := deeds.flatMap Deed.writes

theorem value?_of_exec {p : Plan.Program} {job : Job} {s s' : Store} {outcome : Outcome Job}
    (h : exec p job s = .ok outcome s') :
    s.size ≤ s'.size ∧
      ∀ r < s.size, s'.value? r = (Store.lastOf r (job.writes s)).or (s.value? r) := by
  have hextends := extends_exec p job s
  rw [Effect.after_of_ok h] at hextends
  obtain ⟨hsize, hvalues⟩ := hextends
  rw [Store.size_writeAll] at hsize hvalues
  refine ⟨hsize, fun r hr => ?_⟩
  rw [hvalues r hr, Store.value?_writeAll _ hr]

/-- **A cell holds what was written into it last.** -/
theorem Replays.value? {p : Plan.Program} {deeds : List (Deed Job)} {s s' : Store}
    (h : Replays (exec p) s deeds s') {r : Ref} (hr : r < s.size) :
    s'.value? r = (Store.lastOf r (writesOfAll deeds)).or (s.value? r) := by
  induction deeds generalizing s with
  | nil =>
    cases h
    rfl
  | cons d rest ih =>
    obtain ⟨rfl, outcome, s₁, hrun, hrest⟩ := h
    obtain ⟨hsize, hvalues⟩ := value?_of_exec hrun
    have hsplit : writesOfAll (d :: rest) = d.job.writes d.store ++ writesOfAll rest := rfl
    rw [ih hrest (Nat.lt_of_lt_of_le hr hsize), hvalues r hr, hsplit, Store.lastOf_append,
      Option.or_assoc]

/-! ### Streams -/

namespace Stream

/-- A stream that starts in a module: the inputs are in the first cells and have their
    values, the outputs are in the cells behind them and have none. -/
structure Opens (b : Bindings) (entry : Plan.Module) (stream : Stream) : Prop where
  outputs : stream.outputs =
    entry.outputs.zip (List.range' entry.inputs.length entry.outputs.length)
  goal : stream.goal = .run (.enter ⟨entry, List.range' 0 entry.fields.length⟩ [])
  choices : stream.machine.choices = []
  size : stream.machine.store.size = entry.fields.length
  inputs : ∀ i field, entry.inputs[i]? = some field →
    stream.machine.store.value? i = b.get? field.name
  others : ∀ r, entry.inputs.length ≤ r → stream.machine.store.value? r = none

theorem opens_of_start {p : Plan.Program} {b : Bindings} {limit : Option Nat} {stream : Stream}
    (h : start p b limit = .ok stream) :
    stream.program = p ∧ ∃ entry, p.entry? = some entry ∧ stream.Opens b entry := by
  unfold start at h
  split at h
  · cases h
  · rename_i entry hentry
    simp only [bind_eq_ok, pure_eq_ok] at h
    obtain ⟨⟨inputs, s⟩, hinputs, rfl⟩ := h
    obtain ⟨hrefs, hsize, -, hvalues⟩ := bindInputs_spec hinputs
    obtain ⟨hrefs', hsize', hold, hnew⟩ := s.allocAll_spec (entry.outputs.map (·.name))
    have hempty : (Store.size {}) = 0 := rfl
    rw [hempty, Nat.zero_add] at hsize
    rw [hempty] at hrefs hvalues
    rw [hsize, List.length_map] at hrefs' hsize'
    rw [hsize] at hold hnew
    refine ⟨rfl, entry, hentry, ?_, ?_, rfl, ?_, ?_, hnew⟩
    · simp only [hrefs']
    · simp only [hrefs, hrefs', ← length_inputs_add_outputs entry, ← List.range'_append_1,
        Nat.zero_add]
    · simp only [hsize', length_inputs_add_outputs]
    · intro i field hfield
      have hlt := (List.getElem?_eq_some_iff.mp hfield).1
      simpa [hold i hlt] using hvalues i field hfield

/-- Where a stream is when nothing has been done yet. -/
def situation (stream : Stream) : Situation Job :=
  ⟨stream.goal, stream.machine, [], [], stream.machine.choices.map fun _ => []⟩

/-- The run of the stream comes to the situation. -/
def Visits (stream : Stream) (x : Situation Job) : Prop :=
  LeadsTo (exec stream.program) stream.situation x

/-- The run of the stream comes to a success in which the solution is read off. -/
structure Solves (stream : Stream) (solution : Solution) (x : Situation Job) : Prop where
  visits : stream.Visits x
  goal : x.goal = .success
  solution : solution = stream.snapshot x.machine.store

theorem Visits.recorded {stream : Stream} {x : Situation Job} (h : stream.Visits x) :
    x.Recorded (exec stream.program) stream.machine.store := by
  apply Situation.Recorded.leadsTo _ h
  constructor
  case replays => rfl
  case path => exact List.Sublist.refl _
  case wentOn => exact fun _ => List.forall_mem_nil _
  case depth => exact List.length_map _
  all_goals
    intro path hmem
    obtain ⟨job, -, rfl⟩ := List.mem_map.mp hmem
  · exact List.Sublist.refl _
  · exact List.forall_mem_nil _

/-- All that a run of a well-formed program has done was in range. -/
theorem Visits.deeds_inRange {p : Plan.Program} {stream : Stream} {x : Situation Job}
    (hp : p.WellFormed) (hstream : stream.InRange p) (h : stream.Visits x) :
    ∀ d ∈ x.deeds, d.job.InRange p := by
  have hdeals : x.Deals (Job.InRange p) := by
    induction h with
    | refl => exact ⟨hstream.jobs, List.forall_mem_nil _⟩
    | tail _ hnext ih =>
      rw [hstream.program] at hnext
      exact ih.next (gives_exec hp) hnext
  exact hdeals.deeds

/-- The stream is on its way through the run of the other one, or has ended. -/
structure On (stream later : Stream) : Prop where
  program : later.program = stream.program
  outputs : later.outputs = stream.outputs
  place : later.ended = true ∨
    ∃ x, stream.Visits x ∧ x.goal = later.goal ∧ x.machine = later.machine

theorem On.search {stream later : Stream} (h : stream.On later) (hopen : later.isClosed = false)
    (fuel : Nat) {goal : Goal Job} {m : Machine Job}
    (hplace : (search (exec later.program) fuel later.goal later.machine).place? = some (goal, m)) :
    ∃ x, stream.Visits x ∧ x.goal = goal ∧ x.machine = m := by
  obtain ⟨hprogram, -, hended | ⟨x, hvisits, hgoal, hmachine⟩⟩ := h
  · simp [isClosed, hended] at hopen
  · rw [hprogram, ← hgoal, ← hmachine] at hplace
    obtain ⟨y, hleads, hy⟩ := leadsTo_of_search fuel x hplace
    exact ⟨y, hvisits.trans hleads, hy⟩

theorem On.pull {stream later : Stream} (h : stream.On later) (fuel : Nat) :
    stream.On (later.pull fuel).2 ∧ ∀ solution, (later.pull fuel).1 = .solution solution →
      ∃ x, stream.Solves solution x := by
  unfold Stream.pull
  cases hclosed : later.isClosed with
  | true => exact ⟨h, by simp⟩
  | false =>
    cases hstop : Search.search (exec later.program) fuel later.goal later.machine with
    | solved m =>
      obtain ⟨x, hvisits, hgoal, rfl⟩ := h.search hclosed fuel (congrArg Stop.place? hstop)
      -- the search for the next solution starts with a failure
      have hnext : x.next? (exec stream.program) = some { x with goal := .failure } := by
        simp [Situation.next?, hgoal, step]
      refine ⟨⟨h.program, h.outputs, Or.inr ⟨_, hvisits.tail hnext, rfl, rfl⟩⟩, ?_⟩
      intro solution hsolution
      refine ⟨x, hvisits, hgoal, ?_⟩
      rw [← Item.solution.inj hsolution, snapshot, snapshot, h.outputs]
    | unfinished goal m =>
      obtain ⟨x, hx⟩ := h.search hclosed fuel (congrArg Stop.place? hstop)
      exact ⟨⟨h.program, h.outputs, Or.inr ⟨x, hx⟩⟩, by simp⟩
    | exhausted m | faulted _ m => exact ⟨⟨h.program, h.outputs, Or.inl rfl⟩, by simp⟩

theorem Reaches.on {stream later : Stream} (h : stream.Reaches later) : stream.On later := by
  induction h with
  | refl => exact ⟨rfl, rfl, Or.inr ⟨stream.situation, .refl, rfl, rfl⟩⟩
  | pull fuel _ ih => exact (ih.pull fuel).1

/-- Every solution that is given at any time is read off at a success of the run. -/
theorem solves_of_pull {stream later : Stream} (h : stream.Reaches later) {fuel : Nat}
    {solution : Solution} (hpull : (later.pull fuel).1 = .solution solution) :
    ∃ x, stream.Solves solution x :=
  (h.on.pull fuel).2 solution hpull

end Stream

/-! ### Runs of sources -/

/-- What a source without inputs comes to in so many steps. -/
def visited? (steps : Nat) (source : String) : Option (Stream × Situation Job) :=
  match (compile {} source).result with
  | .error _ => none
  | .ok compiled =>
      match Stream.start compiled.program {} none with
      | .error _ => none
      | .ok stream => (stream.situation.after? (exec stream.program) steps).map fun x => (stream, x)

theorem visits_of_visited? {steps : Nat} {source : String} {check : Stream × Situation Job → Bool}
    (h : (visited? steps source).any check = true) :
    ∃ compiled stream x, (compile {} source).result = .ok compiled ∧
      Stream.start compiled.program {} none = .ok stream ∧ stream.Visits x ∧
      check (stream, x) = true := by
  obtain ⟨⟨stream, x⟩, hvisited, hcheck⟩ := (Option.any_eq_true _ _).mp h
  unfold visited? at hvisited
  split at hvisited
  · cases hvisited
  · rename_i compiled hcompile
    split at hvisited
    · cases hvisited
    · rename_i stream' hstart
      obtain ⟨x', hafter, heq⟩ := Option.map_eq_some_iff.mp hvisited
      cases heq
      exact ⟨compiled, stream, x, hcompile, hstart, leadsTo_of_after? hafter, hcheck⟩

def Situation.isSuccess (x : Situation Job) : Bool :=
  match x.goal with
  | .success => true
  | _ => false

theorem Situation.goal_of_isSuccess {x : Situation Job} (h : x.isSuccess = true) :
    x.goal = .success := by
  unfold isSuccess at h
  split at h
  · assumption
  · cases h

end CandidateSearch.Search
