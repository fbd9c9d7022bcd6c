/-
  CandidateSearch/Proofs/Search/Refinement.lean
  =============================================
  **The machine does what the nested loops do.**

  The machine keeps what is left of the loops as choice points.  A goal with some jobs
  waiting corresponds to an exploration if the machine, started there, finds the same
  solutions in the same order and is then left with the store that the exploration leaves
  behind, with all choice points below untouched (`Simulates`).

      generate 2 of (1, 2, 3)  with  [generate 3 of …]    ~    the loop from 2 on

  Correspondence is shown for each kind of job, from what follows it to the job itself,
  and for modules by induction on the depth.  Where an exploration is cut the machine has
  taken at least as many steps as the depth says, so a machine that stops is not cut at
  every depth.
-/
import CandidateSearch.Proofs.Search.Direct
import CandidateSearch.Proofs.Search.Trace

namespace CandidateSearch.Search

open Explore

/-! ### Correspondence -/

section Correspondence

variable {κ : Type} {exec : Exec κ} {view : Store → Solution} {bound bound' : Nat}
  {goal : Goal κ} {jobs : List κ} {s : Store}

/-- An exploration that ends in this way leaves the machine at this place after so many
    steps; if it is cut, the steps are at least as many as the bound says. -/
def Ending.Reached (exec : Exec κ) (bound : Nat) (choices : List κ) (steps : Nat) (goal : Goal κ)
    (m : Machine κ) : Ending → Prop
  | .done s => goal = .failure ∧ m = ⟨s, choices⟩
  | .fault f => ∃ last, step exec goal m = .faulted f last
  | .cut => bound ≤ steps

theorem Ending.Reached.mono {ending : Ending} {choices : List κ} {steps steps' : Nat}
    {m : Machine κ} (h : ending.Reached exec bound choices steps goal m)
    (hle : bound ≤ steps → bound' ≤ steps') :
    ending.Reached exec bound' choices steps' goal m := by
  cases ending with
  | done s => exact h
  | fault f => exact h
  | cut => exact hle h

/-- From the goal, with the jobs waiting, the machine does what the exploration does. -/
def Realizes (exec : Exec κ) (view : Store → Solution) (bound : Nat) (goal : Goal κ)
    (jobs : List κ) (s : Store) (sweep : Sweep) : Prop :=
  ∀ choices, ∃ steps goal' m',
    Trace exec view steps goal ⟨s, jobs ++ choices⟩ sweep.found goal' m' ∧
      sweep.ending.Reached exec bound choices steps goal' m'

/-- A goal with jobs waiting corresponds to an exploration, whatever the store. -/
def Simulates (exec : Exec κ) (view : Store → Solution) (bound : Nat) (goal : Goal κ)
    (jobs : List κ) (next : Explore) : Prop :=
  ∀ s, Realizes exec view bound goal jobs s (next s)

theorem Realizes.mono {sweep : Sweep} (h : Realizes exec view bound goal jobs s sweep)
    (hle : bound' ≤ bound) : Realizes exec view bound' goal jobs s sweep := by
  intro choices
  obtain ⟨steps, goal', m', htrace, hend⟩ := h choices
  exact ⟨steps, goal', m', htrace, hend.mono (Nat.le_trans hle)⟩

theorem Simulates.mono {next : Explore} (h : Simulates exec view bound goal jobs next)
    (hle : bound' ≤ bound) : Simulates exec view bound' goal jobs next :=
  fun s => (h s).mono hle

theorem simulates_nothing : Simulates exec view bound .failure [] nothing :=
  fun s choices => ⟨0, .failure, ⟨s, choices⟩, .refl _ _, rfl, rfl⟩

theorem simulates_giveUp : Simulates exec view 0 goal jobs giveUp :=
  fun s choices => ⟨0, goal, ⟨s, jobs ++ choices⟩, .refl _ _, Nat.le_refl 0⟩

/-- After what the goal does, the machine comes to the jobs that are waiting. -/
theorem Simulates.also {first second : Explore} (hfirst : Simulates exec view bound goal [] first)
    (hsecond : Simulates exec view bound .failure jobs second) :
    Simulates exec view bound goal jobs (first.also second) := by
  intro s choices
  obtain ⟨steps, goal', m', htrace, hend⟩ := hfirst s (jobs ++ choices)
  rw [List.nil_append] at htrace
  rw [Explore.also]
  rcases hsweep : first s with ⟨found, s' | f | _⟩
  · rw [hsweep] at htrace hend
    obtain ⟨rfl, rfl⟩ := hend
    obtain ⟨steps', goal'', m'', htrace', hend'⟩ := hsecond s' choices
    refine ⟨steps + steps', goal'', m'', htrace.trans htrace', hend'.mono ?_⟩
    intro hle
    omega
  · rw [hsweep] at htrace hend
    exact ⟨steps, goal', m', htrace, hend⟩
  · rw [hsweep] at htrace hend
    exact ⟨steps, goal', m', htrace, hend⟩

theorem Realizes.step {goal' : Goal κ} {jobs' : List κ} {s' : Store} {sweep : Sweep}
    (hstep : ∀ choices, Search.step exec goal ⟨s, jobs ++ choices⟩ =
      .on goal' ⟨s', jobs' ++ choices⟩)
    (h : Realizes exec view bound goal' jobs' s' sweep) :
    Realizes exec view (bound + 1) goal jobs s sweep := by
  intro choices
  obtain ⟨steps, goal'', m'', htrace, hend⟩ := h choices
  exact ⟨steps + 1, goal'', m'', .on (hstep choices) htrace, hend.mono Nat.succ_le_succ⟩

theorem Simulates.pop {job : κ} {next : Explore}
    (h : Simulates exec view bound (.run job) jobs next) :
    Simulates exec view (bound + 1) .failure (job :: jobs) next :=
  fun s => (h s).step fun _ => rfl

/-! ### What jobs do -/

/-- What a job does to the store and how it goes on correspond to an exploration. -/
def Carries (exec : Exec κ) (view : Store → Solution) (bound : Nat)
    (effect : Effect (Outcome κ)) (next : Explore) : Prop :=
  ∀ s, match effect s with
    | .ok outcome s' => Realizes exec view bound outcome.goal outcome.choices s' (next s)
    | .error f _ => next s = ⟨[], .fault f⟩

theorem Carries.pure {outcome : Outcome κ} {next : Explore}
    (h : Simulates exec view bound outcome.goal outcome.choices next) :
    Carries exec view bound (Pure.pure outcome) next := h

theorem Carries.bind {α : Type} {effect : Effect α} {rest : α → Effect (Outcome κ)}
    {next : α → Explore} (h : ∀ a, Carries exec view bound (rest a) (next a)) :
    Carries exec view bound (effect >>= rest) (perform effect next) := by
  intro s
  cases heffect : effect s with
  | ok a s' =>
    rw [Effect.bind_of_ok heffect, perform, heffect]
    exact h a s'
  | error f s' =>
    rw [Effect.bind_of_error heffect, perform, heffect]

theorem Carries.run {job : κ} {next : Explore} (h : Carries exec view bound (exec job) next) :
    Simulates exec view (bound + 1) (.run job) [] next := by
  intro s
  have hjob := h s
  cases heffect : exec job s with
  | ok outcome s' =>
    rw [heffect] at hjob
    refine hjob.step fun choices => ?_
    simp [step, heffect]
  | error f s' =>
    rw [heffect] at hjob
    intro choices
    rw [hjob]
    exact ⟨0, .run job, ⟨s, choices⟩, .refl _ _, ⟨s', choices⟩, by simp [step, heffect]⟩

end Correspondence

/-! ### Generators -/

section Jobs

variable {p : Plan.Program} {view : Store → Solution} {bound : Nat} {after : List Activation}
  {body : Explore}

theorem exec_generate (g : Generator) (after : List Activation) :
    exec p (.generate g after) = (do
      g.bind
      return { choices := g.next?.toList.map (.generate · after), goal := proceed after }) := by
  simp [exec, Generator.advance]

theorem simulates_countUp {target : Ref} {last increment : Decimal} {rounds : Nat}
    (hbody : Simulates (exec p) view bound (proceed after) [] body) (hrounds : rounds ≤ bound)
    {current : Decimal} (hcurrent : current.atMost last = true) :
    Simulates (exec p) view rounds
      (.run (.generate (.range ⟨target, current, last, increment⟩) after)) []
      (countUp target last increment body rounds current) := by
  induction rounds generalizing current with
  | zero => exact simulates_giveUp
  | succ rounds ih =>
    rw [countUp, if_pos hcurrent, perform_also]
    apply Carries.run
    rw [exec_generate]
    refine Carries.bind fun _ => Carries.pure ((hbody.mono (by omega)).also ?_)
    -- the rest of the loop is a choice point if there is a number left
    by_cases hnext : (current.add increment).atMost last = true
    · have hrest := (ih (by omega) hnext).pop
      simpa [Generator.next?, Range.next?, hnext] using hrest.mono (Nat.le_succ rounds)
    · cases rounds with
      | zero => exact simulates_giveUp
      | succ rounds =>
        rw [countUp, if_neg hnext]
        simpa [Generator.next?, Range.next?, hnext] using simulates_nothing

theorem simulates_forEach {target : Binder} {items : List Value}
    (hbody : Simulates (exec p) view bound (proceed after) [] body) :
    Simulates (exec p) view bound
      (startGenerator ((Member.start? target items).map .member) after) []
      (forEach target body items) := by
  induction items with
  | nil => exact simulates_nothing
  | cons item rest ih =>
    rw [forEach, perform_also]
    refine Simulates.mono (Carries.run ?_) (Nat.le_succ bound)
    rw [exec_generate]
    refine Carries.bind fun _ => Carries.pure (hbody.also ?_)
    cases rest with
    | nil => exact simulates_nothing
    | cons next rest => exact ih.pop.mono (Nat.le_succ bound)

/-! ### Stages -/

variable {call : Instance → Explore → Explore}

/-- Entering a module corresponds to exploring it, for what follows it as well. -/
def CallsSimulate (p : Plan.Program) (view : Store → Solution) (bound : Nat)
    (call : Instance → Explore → Explore) : Prop :=
  ∀ callee after follow, Simulates (exec p) view bound (proceed after) [] follow →
    Simulates (exec p) view bound (.run (.enter callee after)) [] (call callee follow)

theorem carries_fail {α : Type} (f : Fault) (rest : α → Effect (Outcome Job)) :
    Carries (exec p) view bound (Effect.ofExcept (.error f) >>= rest) (fail f) :=
  fun _ => rfl

theorem carries_transfer (hcalls : CallsSimulate p view bound call)
    (hbody : Simulates (exec p) view bound (proceed after) [] body) (env : Env)
    (t : Plan.Transfer) :
    Carries (exec p) view bound (do
        let goal ← transfer p env after t
        return { goal })
      (exploreTransfer p bound call env body t) := by
  cases t with
  | proceed => exact Carries.pure hbody
  | range target first last step =>
    simp only [transfer, exploreTransfer, bind_assoc]
    refine Carries.bind fun r => Carries.bind fun first => Carries.bind fun last =>
      Carries.bind fun step => ?_
    by_cases hstep : step.atMost (.ofInt 0) = true
    · rw [Range.start?, if_pos hstep, if_pos hstep]
      exact carries_fail _ _
    · rw [Range.start?, if_neg hstep, if_neg hstep]
      by_cases hfirst : first.atMost last = true
      · rw [if_pos hfirst]
        exact Carries.pure (simulates_countUp hbody (Nat.le_refl bound) hfirst)
      · rw [if_neg hfirst]
        refine Carries.pure ?_
        cases bound with
        | zero => exact simulates_giveUp
        | succ rounds =>
          rw [countUp, if_neg hfirst]
          exact simulates_nothing
  | member target list =>
    simp only [transfer, exploreTransfer, bind_assoc]
    refine Carries.bind fun v => Carries.bind fun items => Carries.bind fun binder => ?_
    exact Carries.pure (simulates_forEach hbody)
  | call callee inputs outputs =>
    simp only [transfer, exploreTransfer]
    cases p.modules[callee]? with
    | none => exact Carries.pure simulates_nothing
    | some plan =>
      simp only [bind_assoc]
      refine Carries.bind fun inputs => Carries.bind fun outputs => ?_
      exact Carries.pure (hcalls _ _ _ hbody)

/-- An open method with the stages that it has left corresponds to exploring them. -/
theorem simulates_stages (hcalls : CallsSimulate p view bound call) {follow : Explore}
    (hfollow : Simulates (exec p) view bound (proceed after) [] follow) (env : Env)
    (stages : List Plan.Stage) :
    Simulates (exec p) view bound (proceed (⟨env, stages⟩ :: after)) []
      (exploreStages p bound call env follow stages) := by
  induction stages with
  | nil => exact hfollow
  | cons stage rest ih =>
    refine Simulates.mono (Carries.run ?_) (Nat.le_succ bound)
    refine Carries.bind fun holds => ?_
    cases holds with
    | true => exact carries_transfer hcalls ih env stage.transfer
    | false => exact Carries.pure simulates_nothing

/-! ### Modules -/

/-- The first of several methods, if the others correspond to what is explored after it,
    both as choice points and when they are tried at once. -/
theorem carries_choose_cons (hcalls : CallsSimulate p view bound call) {follow rest : Explore}
    (hfollow : Simulates (exec p) view bound (proceed after) [] follow) (callee : Instance)
    (method : Plan.Method) (later : List Plan.Method)
    (hwaiting : Simulates (exec p) view bound .failure
      (later.map fun m => .alternative callee m after) rest)
    (hchosen : Carries (exec p) view bound (choose callee after later) rest) :
    Carries (exec p) view bound (choose callee after (method :: later))
      ((exploreMethod p bound call callee follow method).also rest) := by
  rw [choose, exploreMethod, perform_also]
  refine Carries.bind fun env => ?_
  rw [perform_also]
  refine Carries.bind fun holds => ?_
  cases holds with
  | true => exact Carries.pure ((simulates_stages hcalls hfollow env method.stages).also hwaiting)
  | false => simpa using hchosen

/-- Methods that wait as choice points correspond to exploring them in order. -/
theorem simulates_alternatives (hcalls : CallsSimulate p view bound call) {follow : Explore}
    (hfollow : Simulates (exec p) view bound (proceed after) [] follow) (callee : Instance)
    (methods : List Plan.Method) :
    Simulates (exec p) view bound .failure (methods.map fun m => .alternative callee m after)
      (exploreMethods p bound call callee follow methods) := by
  induction methods with
  | nil => exact simulates_nothing
  | cons method later ih =>
    have hone := carries_choose_cons hcalls hfollow callee method [] simulates_nothing
      (Carries.pure simulates_nothing)
    rw [also_nothing] at hone
    have hretry : Simulates (exec p) view (bound + 1) (.run (.alternative callee method after)) []
        (exploreMethod p bound call callee follow method) := Carries.run hone
    exact ((hretry.mono (Nat.le_succ bound)).also ih).pop.mono (Nat.le_succ bound)

theorem carries_choose (hcalls : CallsSimulate p view bound call) {follow : Explore}
    (hfollow : Simulates (exec p) view bound (proceed after) [] follow) (callee : Instance)
    (methods : List Plan.Method) :
    Carries (exec p) view bound (choose callee after methods)
      (exploreMethods p bound call callee follow methods) := by
  induction methods with
  | nil => exact Carries.pure simulates_nothing
  | cons method later ih =>
    exact carries_choose_cons hcalls hfollow callee method later
      (simulates_alternatives hcalls hfollow callee later) ih

/-- **Entering a module** corresponds to exploring it, at every depth. -/
theorem calls_simulate (p : Plan.Program) (view : Store → Solution) (depth : Nat) :
    CallsSimulate p view depth (exploreModule p depth) := by
  induction depth with
  | zero => exact fun _ _ _ _ => simulates_giveUp
  | succ depth ih =>
    intro callee after follow hfollow
    have hfollow' := hfollow.mono (Nat.le_succ depth)
    apply Carries.run
    show Carries (exec p) view depth (enter callee after) _
    -- an only method is entered without a look at its guard
    rcases hmethods : callee.plan.methods with _ | ⟨method, _ | ⟨second, later⟩⟩
    · simp only [enter, exploreModule, hmethods]
      exact carries_choose ih hfollow' callee []
    · simp only [enter, exploreModule, hmethods]
      refine Carries.bind fun env => Carries.pure ?_
      exact simulates_stages ih hfollow' env method.stages
    · simp only [enter, exploreModule, hmethods]
      exact carries_choose ih hfollow' callee (method :: second :: later)

end Jobs

/-! ### The whole run -/

theorem simulates_emit (p : Plan.Program) (outputs : List (Plan.Field × Ref)) (bound : Nat) :
    Simulates (exec p) (snapshotOf outputs) bound (proceed []) [] (emit outputs) :=
  fun s choices => ⟨1, .failure, ⟨s, choices⟩, .solved (.refl _ _), rfl, rfl⟩

theorem start_cases (p : Plan.Program) (b : Bindings) :
    (∃ f, Stream.start p b none = .error f ∧ ∀ depth, explore depth p b = .error f) ∨
    ∃ callee outputs s,
      Stream.start p b none =
        .ok { program := p, outputs, goal := .run (.enter callee []), machine := ⟨s, []⟩ } ∧
      ∀ depth, explore depth p b = .ok (exploreModule p depth callee (emit outputs) s) := by
  simp only [Stream.start, explore]
  cases p.entry? with
  | none => exact Or.inl ⟨_, rfl, fun _ => rfl⟩
  | some entry =>
    cases hinputs : bindInputs b entry.inputs {} with
    | error f => exact Or.inl ⟨f, by simp [hinputs, bind, Except.bind], by
        simp [hinputs, bind, Except.bind]⟩
    | ok bound =>
      obtain ⟨inputs, s⟩ := bound
      let cells := s.allocAll (entry.outputs.map (·.name))
      refine Or.inr ⟨⟨entry, inputs ++ cells.1⟩, entry.outputs.zip cells.1, cells.2, ?_, ?_⟩
      · simp only [hinputs, bind, Except.bind, pure, Except.pure, cells]
      · intro depth
        simp only [hinputs, bind, Except.bind, pure, Except.pure, cells]

/-- What a stream gives if the machine gets to the end of an exploration. -/
theorem pulls_of_reached {stream : Stream} (hopen : stream.Unlimited) {sweep : Sweep} {n fuel : Nat}
    {goal : Goal Job} {m : Machine Job} {bound : Nat}
    (htrace : Trace (exec stream.program) stream.snapshot n stream.goal stream.machine
      sweep.found goal m)
    (hend : sweep.ending.Reached (exec stream.program) bound [] n goal m) (hfuel : n < fuel) :
    (stream.pulls fuel sweep.items.length).1 = sweep.items := by
  obtain ⟨i, hi, goal', m', hpulls, hsilent⟩ := Stream.pulls_of_trace hopen htrace hfuel
  obtain ⟨more, rfl⟩ : ∃ more, fuel = i + (more + 1) := ⟨fuel - i - 1, by omega⟩
  have hsearch := search_of_silent hsilent (more + 1)
  obtain ⟨found, ending⟩ := sweep
  cases ending with
  | cut => simp [Sweep.items, hpulls]
  | done s =>
    obtain ⟨rfl, rfl⟩ := hend
    have hpull : (stream.moveTo goal' m').pull (i + (more + 1)) = _ :=
      Stream.pull_of_exhausted hopen hsearch
    have hlength : (Sweep.mk found (.done s)).items.length = found.length + 1 := by
      simp [Sweep.items]
    rw [hlength, Stream.pulls_concat hpulls, hpull]
    rfl
  | fault f =>
    obtain ⟨last, hstep⟩ := hend
    rw [search, hstep] at hsearch
    have hpull : (stream.moveTo goal' m').pull (i + (more + 1)) = _ :=
      Stream.pull_of_faulted hopen hsearch
    have hlength : (Sweep.mk found (.fault f)).items.length = found.length + 1 := by
      simp [Sweep.items]
    rw [hlength, Stream.pulls_concat hpulls, hpull]
    rfl

/-- **The machine refines the nested loops.**  A program that cannot be started cannot be
    explored, for the same reason.  Of one that can, and at every depth, a stream gives
    the solutions that the exploration finds, in its order, and then, unless the
    exploration is cut, the same fault or the end.  All that a stream gives without
    running out of steps is found by an exploration that is deep enough. -/
theorem pulls_eq_items (p : Plan.Program) (b : Bindings) :
    (∃ f, Stream.start p b none = .error f ∧ ∀ depth, explore depth p b = .error f) ∨
    ∃ stream, Stream.start p b none = .ok stream ∧
      (∀ depth, ∃ sweep, explore depth p b = .ok sweep ∧
        ∃ steps, ∀ fuel ≥ steps, (stream.pulls fuel sweep.items.length).1 = sweep.items) ∧
      ∀ fuel count, .unfinished ∉ (stream.pulls fuel count).1 →
        ∃ depth sweep, explore depth p b = .ok sweep ∧
          (sweep.ending = .cut → count ≤ sweep.found.length) := by
  rcases start_cases p b with herror | ⟨callee, outputs, s, hstart, hexplore⟩
  · exact Or.inl herror
  refine Or.inr ⟨_, hstart, fun depth => ⟨_, hexplore depth, ?_⟩, fun fuel count hfinished => ?_⟩
  · obtain ⟨steps, goal, m, htrace, hend⟩ :=
      calls_simulate p (snapshotOf outputs) depth callee [] _ (simulates_emit p outputs depth) s []
    refine ⟨steps + 1, fun fuel hfuel => ?_⟩
    exact pulls_of_reached ⟨rfl, rfl⟩ htrace hend (by omega)
  · obtain ⟨steps, goal, m, htrace, hend⟩ :=
      calls_simulate p (snapshotOf outputs) (count * fuel) callee [] _
        (simulates_emit p outputs _) s []
    refine ⟨count * fuel, _, hexplore _, fun hcut => ?_⟩
    rw [hcut] at hend
    exact Stream.count_le_of_trace ⟨rfl, rfl⟩ htrace hend hfinished

end CandidateSearch.Search
