/-
  CandidateSearch/Proofs/Search/InRange.lean
  ==========================================
  **Runs stay in range.**

  A module is entered with one cell for each of its fields, a method is opened with one for
  each of its locals, and what is left of a method is the end of its stages.  So it is when
  a run starts, and running a job of a well-formed program leaves it so for the job that
  comes next and for all that are left as choice points (`gives_exec`).  The machine only
  moves such jobs about, so it is so in every state of every run:

      f({N}, {X})  calls  g({N}, {Y})      enter g with the cells of N and Y,
                                           its fields 0 and 1

  All that a job looks up is then there.  No slot is out of range, and it would make no
  difference if the lists of cells went on behind their ends.
-/
import CandidateSearch.Proofs.Declarative.Layout
import CandidateSearch.Proofs.Search.Lookups

namespace CandidateSearch.Search

/-! ### Results of effects -/

section Effects

variable {α β : Type} {x : Effect α} {f : α → Effect β} {P : α → Prop} {Q : β → Prop}

/-- The result satisfies `P`, unless there is a fault. -/
def Gives (x : Effect α) (P : α → Prop) : Prop := ∀ s a s', x s = .ok a s' → P a

theorem gives_any (x : Effect α) : Gives x fun _ => True := fun _ _ _ _ => trivial

theorem gives_pure {a : α} (h : P a) : Gives (pure a) P := by
  intro s b s' hrun
  cases hrun
  exact h

theorem Gives.bind (hx : Gives x P) (hf : ∀ a, P a → Gives (f a) Q) : Gives (x >>= f) Q := by
  intro s b s' h
  cases hrun : x s with
  | ok a s₁ =>
    rw [Effect.bind_of_ok hrun] at h
    exact hf a (hx s a s₁ hrun) s₁ b s' h
  | error fault s₁ =>
    rw [Effect.bind_of_error hrun] at h
    cases h

theorem gives_ofExcept {result : Except Fault α} (h : ∀ a, result = .ok a → P a) :
    Gives (Effect.ofExcept result) P := by
  cases result with
  | ok a => exact gives_pure (h a rfl)
  | error fault =>
    intro s a s' hrun
    cases hrun

end Effects

/-! ### The machine -/

section Machines

variable {κ : Type} {exec : Exec κ} {P : κ → Prop}

/-- The job that a goal has to run, if there is one. -/
def Goal.jobs : Goal κ → List κ
  | .run job => [job]
  | _ => []

/-- The job to run and all that are left as choice points satisfy `P`. -/
def Holds (P : κ → Prop) (goal : Goal κ) (choices : List κ) : Prop :=
  ∀ job ∈ goal.jobs ++ choices, P job

theorem holds_iff {goal : Goal κ} {choices : List κ} :
    Holds P goal choices ↔ (∀ job ∈ goal.jobs, P job) ∧ ∀ job ∈ choices, P job :=
  List.forall_mem_append

def Move.Holds (P : κ → Prop) : Move κ → Prop
  | .on goal m => Search.Holds P goal m.choices
  | .solved m | .exhausted m | .faulted _ m => ∀ job ∈ m.choices, P job

def Stop.Holds (P : κ → Prop) : Stop κ → Prop
  | .solved m | .exhausted m | .faulted _ m => ∀ job ∈ m.choices, P job
  | .unfinished goal m => Search.Holds P goal m.choices

variable (hexec : ∀ job, P job → Gives (exec job) fun outcome =>
  Holds P outcome.goal outcome.choices)

include hexec

/-- One step brings in no jobs but those that come out of the one that is run. -/
theorem step_holds {goal : Goal κ} {m : Machine κ} (h : Holds P goal m.choices) :
    (step exec goal m).Holds P := by
  obtain ⟨hgoal, hchoices⟩ := holds_iff.mp h
  obtain ⟨store, choices⟩ := m
  cases goal with
  | success => exact hchoices
  | failure =>
    cases choices with
    | nil => exact hchoices
    | cons job rest => exact h
  | run job =>
    rw [step]
    split
    · rename_i outcome store' hrun
      have houtcome := hexec job (hgoal job (by simp [Goal.jobs])) store outcome store' hrun
      obtain ⟨hnext, hnew⟩ := holds_iff.mp houtcome
      exact holds_iff.mpr ⟨hnext, List.forall_mem_append.mpr ⟨hnew, hchoices⟩⟩
    · exact hchoices

theorem search_holds (fuel : Nat) {goal : Goal κ} {m : Machine κ} (h : Holds P goal m.choices) :
    (search exec fuel goal m).Holds P := by
  induction fuel generalizing goal m with
  | zero => exact h
  | succ fuel ih =>
    have hstep := step_holds hexec h
    rw [search]
    cases hmove : step exec goal m with
    | on goal' m' =>
      rw [hmove] at hstep
      exact ih hstep
    | solved m' | exhausted m' | faulted _ m' =>
      rw [hmove] at hstep
      exact hstep

end Machines

/-! ### Jobs in range -/

/-- There is a cell for each field of the module and for each local of the method. -/
structure Env.Serves (env : Env) (m : Plan.Module) (method : Plan.Method) : Prop where
  fields : env.fields.length = m.fields.length
  locals : env.locals.length = method.locals.length

/-- A module of the program, with one cell for each of its fields. -/
structure Instance.InRange (p : Plan.Program) (callee : Instance) : Prop where
  plan : callee.plan ∈ p.modules
  fields : callee.fields.length = callee.plan.fields.length

/-- A method of the program with all its cells, and the end of its stages. -/
def Activation.InRange (p : Plan.Program) (a : Activation) : Prop :=
  ∃ m ∈ p.modules, ∃ method ∈ m.methods, a.env.Serves m method ∧ a.stages <:+ method.stages

/-- The methods that are still open. -/
abbrev OpenInRange (p : Plan.Program) (after : List Activation) : Prop :=
  ∀ a ∈ after, a.InRange p

/-- The job is about a module, a method and a stage of the program, with the cells that
    belong to it, and so is all that follows it. -/
def Job.InRange (p : Plan.Program) : Job → Prop
  | .enter callee after => callee.InRange p ∧ OpenInRange p after
  | .alternative callee method after =>
      callee.InRange p ∧ method ∈ callee.plan.methods ∧ OpenInRange p after
  | .stage env st after => ∃ rest outer, after = ⟨env, rest⟩ :: outer ∧
      Activation.InRange p ⟨env, st :: rest⟩ ∧ OpenInRange p outer
  | .generate _ after => OpenInRange p after

variable {p : Plan.Program}

theorem Activation.InRange.tail {env : Env} {stage : Plan.Stage} {rest : List Plan.Stage}
    (h : Activation.InRange p ⟨env, stage :: rest⟩) : Activation.InRange p ⟨env, rest⟩ := by
  obtain ⟨m, hm, method, hmethod, hserves, hstages⟩ := h
  exact ⟨m, hm, method, hmethod, hserves, (List.suffix_cons stage rest).trans hstages⟩

theorem proceed_inRange {after : List Activation} (h : OpenInRange p after) :
    ∀ job ∈ (proceed after).jobs, job.InRange p := by
  induction after with
  | nil => simp [proceed, Goal.jobs]
  | cons a outer ih =>
    obtain ⟨ha, houter⟩ := List.forall_mem_cons.mp h
    obtain ⟨env, stages⟩ := a
    cases stages with
    | nil => exact ih houter
    | cons stage rest =>
      intro job hjob
      cases List.mem_singleton.mp hjob
      exact ⟨rest, outer, rfl, ha, houter⟩

theorem length_inputs_add_outputs (m : Plan.Module) :
    m.inputs.length + m.outputs.length = m.fields.length := by
  rw [← List.length_append, Plan.Module.inputs, Plan.Module.outputs, List.take_append_drop]

/-! ### Entering a module -/

theorem openMethod_eq (callee : Instance) (method : Plan.Method) (s : Store) :
    openMethod callee method s = .ok ⟨callee.fields, (s.allocAll method.locals).1⟩
      (s.allocAll method.locals).2 := rfl

theorem gives_openMethod {callee : Instance} (h : callee.InRange p) (method : Plan.Method) :
    Gives (openMethod callee method) fun env => env.Serves callee.plan method := by
  intro s env s' hrun
  rw [openMethod_eq] at hrun
  cases hrun
  refine ⟨h.fields, ?_⟩
  rw [(s.allocAll_spec method.locals).1, List.length_range']

section Entering

variable {callee : Instance} {after : List Activation}
  (hcallee : callee.InRange p) (hafter : OpenInRange p after)

include hcallee hafter

theorem opened_inRange {env : Env} {method : Plan.Method} (hmethod : method ∈ callee.plan.methods)
    (hserves : env.Serves callee.plan method) :
    ∀ job ∈ (proceed (⟨env, method.stages⟩ :: after)).jobs, job.InRange p := by
  apply proceed_inRange
  exact List.forall_mem_cons.mpr
    ⟨⟨callee.plan, hcallee.plan, method, hmethod, hserves, List.suffix_rfl⟩, hafter⟩

theorem gives_choose {methods : List Plan.Method}
    (hmethods : ∀ method ∈ methods, method ∈ callee.plan.methods) :
    Gives (choose callee after methods) fun outcome =>
      Holds (Job.InRange p) outcome.goal outcome.choices := by
  induction methods with
  | nil => exact gives_pure (by simp [Holds, Goal.jobs])
  | cons method later ih =>
    obtain ⟨hmethod, hlater⟩ := List.forall_mem_cons.mp hmethods
    refine (gives_openMethod hcallee method).bind fun env hserves => ?_
    refine (gives_any _).bind fun holds _ => ?_
    split
    · apply gives_pure
      refine holds_iff.mpr ⟨opened_inRange hcallee hafter hmethod hserves, ?_⟩
      intro job hjob
      obtain ⟨other, hother, rfl⟩ := List.mem_map.mp hjob
      exact ⟨hcallee, hlater other hother, hafter⟩
    · exact ih hlater

theorem gives_enter : Gives (enter callee after) fun outcome =>
    Holds (Job.InRange p) outcome.goal outcome.choices := by
  unfold enter
  split
  · rename_i method honly
    refine (gives_openMethod hcallee method).bind fun env hserves => gives_pure ?_
    refine holds_iff.mpr ⟨opened_inRange hcallee hafter ?_ hserves, by simp⟩
    simp [honly]
  · exact gives_choose hcallee hafter fun _ hmethod => hmethod

end Entering

/-! ### Calling a module -/

theorem length_of_refs {env : Env} {slots : List Slot} {rs : List Ref}
    (h : env.refs slots = .ok rs) : rs.length = slots.length := by
  induction slots generalizing rs with
  | nil =>
    cases h
    rfl
  | cons slot rest ih =>
    simp only [Env.refs, bind_eq_ok, pure_eq_ok] at h
    obtain ⟨r, -, others, hothers, rfl⟩ := h
    rw [List.length_cons, List.length_cons, ih hothers]

theorem gives_passInputs (env : Env) (inputs : List (Plan.Expr × Plan.Field)) :
    Gives (passInputs env inputs) fun rs => rs.length = inputs.length := by
  induction inputs with
  | nil => exact gives_pure rfl
  | cons input rest ih =>
    obtain ⟨e, field⟩ := input
    have hrest : ∀ r : Ref, Gives (do
        let rs ← passInputs env rest
        return r :: rs) fun rs => rs.length = rest.length + 1 := by
      intro r
      exact ih.bind fun rs hrs => gives_pure (by rw [List.length_cons, hrs])
    cases e with
    | var slot => exact (gives_any _).bind fun r _ => hrest r
    | _ =>
      exact (gives_any _).bind fun v _ => (gives_any _).bind fun s _ =>
        (gives_any _).bind fun _ _ => hrest _

/-- The inputs come first and the outputs after them, as the fields of a module do. -/
theorem gives_call {callee : Nat} {inputs : List Plan.Expr} {outputs : List Slot}
    (hfits : p.arity? callee = some (inputs.length, outputs.length)) (env : Env)
    {after : List Activation} (hafter : OpenInRange p after) :
    Gives (transfer p env after (.call callee inputs outputs)) fun goal =>
      ∀ job ∈ goal.jobs, job.InRange p := by
  obtain ⟨plan, hplan, harity⟩ := Option.map_eq_some_iff.mp hfits
  have hfields := length_inputs_add_outputs plan
  rw [Prod.mk.injEq] at harity
  simp only [transfer, hplan]
  refine (gives_passInputs env (inputs.zip plan.fields)).bind fun rs hrs => ?_
  refine (gives_ofExcept fun _ => length_of_refs).bind fun os hos => gives_pure ?_
  intro job hjob
  cases List.mem_singleton.mp hjob
  refine ⟨⟨List.mem_of_getElem? hplan, ?_⟩, hafter⟩
  show (rs ++ os).length = plan.fields.length
  rw [List.length_zip] at hrs
  rw [List.length_append, hrs, hos]
  omega

/-! ### Running a job -/

theorem startGenerator_inRange (generator : Option Generator) {after : List Activation}
    (hafter : OpenInRange p after) :
    ∀ job ∈ (startGenerator generator after).jobs, job.InRange p := by
  cases generator with
  | none => simp [startGenerator, Goal.jobs]
  | some g =>
    intro job hjob
    cases List.mem_singleton.mp hjob
    exact hafter

theorem gives_transfer {t : Plan.Transfer} (hfits : t.Fits p.arity?) (env : Env)
    {after : List Activation} (hafter : OpenInRange p after) :
    Gives (transfer p env after t) fun goal => ∀ job ∈ goal.jobs, job.InRange p := by
  cases t with
  | proceed => exact gives_pure (proceed_inRange hafter)
  | range target first last step =>
    exact (gives_any _).bind fun _ _ => (gives_any _).bind fun _ _ =>
      (gives_any _).bind fun _ _ => (gives_any _).bind fun _ _ =>
        (gives_any _).bind fun _ _ => gives_pure (startGenerator_inRange _ hafter)
  | member target list =>
    exact (gives_any _).bind fun _ _ => (gives_any _).bind fun _ _ =>
      (gives_any _).bind fun _ _ => gives_pure (startGenerator_inRange _ hafter)
  | call callee inputs outputs => exact gives_call hfits env hafter

theorem Activation.InRange.wellFormed {env : Env} {stage : Plan.Stage} {rest : List Plan.Stage}
    (h : Activation.InRange p ⟨env, stage :: rest⟩) (hp : p.WellFormed) :
    stage.WellFormed p.arity? env.fields.length env.locals.length := by
  obtain ⟨m, hm, method, hmethod, hserves, hstages⟩ := h
  rw [hserves.fields, hserves.locals]
  exact ((hp m hm).methods method hmethod).stages stage (hstages.subset (by simp))

/-- **One job.**  In a well-formed program a job in range leaves only such jobs. -/
theorem gives_exec (hp : p.WellFormed) (job : Job) (h : job.InRange p) :
    Gives (exec p job) fun outcome => Holds (Job.InRange p) outcome.goal outcome.choices := by
  cases job with
  | enter callee after => exact gives_enter h.1 h.2
  | alternative callee method after =>
    apply gives_choose h.1 h.2.2
    intro other hother
    rw [List.mem_singleton.mp hother]
    exact h.2.1
  | stage env stage after =>
    obtain ⟨rest, outer, rfl, hactivation, houter⟩ := h
    have hafter : OpenInRange p (⟨env, rest⟩ :: outer) :=
      List.forall_mem_cons.mpr ⟨hactivation.tail, houter⟩
    refine (gives_any _).bind fun holds _ => ?_
    split
    · refine (gives_transfer (hactivation.wellFormed hp).fits env hafter).bind fun goal hgoal => ?_
      exact gives_pure (holds_iff.mpr ⟨hgoal, by simp⟩)
    · exact gives_pure (by simp [Holds, Goal.jobs])
  | generate generator after =>
    refine (gives_any _).bind fun left _ => gives_pure (holds_iff.mpr ⟨proceed_inRange h, ?_⟩)
    intro job hjob
    obtain ⟨g, -, rfl⟩ := List.mem_map.mp hjob
    exact h

/-! ### Whole runs -/

/-- The job that a stream goes on with, and its choice points. -/
def Stream.jobs (stream : Stream) : List Job := stream.goal.jobs ++ stream.machine.choices

/-- What pulls lead to.  Each of them may have any number of steps, so these are all the
    states of a run, with those in the middle of a search. -/
inductive Stream.Reaches (stream : Stream) : Stream → Prop where
  | refl : Reaches stream stream
  | pull {later : Stream} (fuel : Nat) : Reaches stream later → Reaches stream (later.pull fuel).2

/-- A stream of the program's solutions, all of whose jobs are in range. -/
structure Stream.InRange (p : Plan.Program) (stream : Stream) : Prop where
  program : stream.program = p
  jobs : ∀ job ∈ stream.jobs, job.InRange p

theorem start_inRange {b : Bindings} {limit : Option Nat} {stream : Stream}
    (h : Stream.start p b limit = .ok stream) : stream.InRange p := by
  unfold Stream.start at h
  split at h
  · cases h
  · rename_i entry hentry
    simp only [bind_eq_ok, pure_eq_ok] at h
    obtain ⟨⟨inputs, s⟩, hinputs, rfl⟩ := h
    refine ⟨rfl, ?_⟩
    intro job hjob
    simp only [Stream.jobs, Goal.jobs, List.append_nil] at hjob
    cases List.mem_singleton.mp hjob
    refine ⟨⟨List.mem_of_mem_head? hentry, ?_⟩, List.forall_mem_nil _⟩
    rw [List.length_append, (bindInputs_spec hinputs).1, (s.allocAll_spec _).1]
    rw [List.length_range', List.length_range', List.length_map]
    exact length_inputs_add_outputs entry

theorem Stream.InRange.pull {stream : Stream} (hp : p.WellFormed) (h : stream.InRange p)
    (fuel : Nat) : (stream.pull fuel).2.InRange p := by
  obtain ⟨rfl, hjobs⟩ := h
  have hsearch := search_holds (gives_exec hp) fuel hjobs
  unfold Stream.pull
  split
  · exact ⟨rfl, hjobs⟩
  · split <;> rename_i hstop <;> rw [hstop] at hsearch <;> exact ⟨rfl, hsearch⟩

/-- **Whole runs** of a well-formed program stay in range. -/
theorem Stream.Reaches.inRange {stream later : Stream} (hp : p.WellFormed)
    (h : stream.InRange p) (hreaches : stream.Reaches later) : later.InRange p := by
  induction hreaches with
  | refl => exact h
  | pull fuel _ ih => exact ih.pull hp fuel

/-! ### Nothing is looked up out of range -/

/-- The environment has a cell for each of the slots. -/
def Env.Covers (env : Env) (slots : List Slot) : Prop := ∀ slot ∈ slots, ∃ r, env.ref slot = .ok r

/-- An environment with further cells behind its own. -/
def Env.extend (env more : Env) : Env := ⟨env.fields ++ more.fields, env.locals ++ more.locals⟩

/-- When the method is opened, its guard finds all that it looks up, and would not notice
    any further cells. -/
def Instance.Covers (callee : Instance) (method : Plan.Method) : Prop :=
  ∀ s env s', openMethod callee method s = .ok env s' →
    (∀ guard ∈ method.guard, env.Covers guard.slots) ∧
      ∀ more, guardHolds (env.extend more) method = guardHolds env method

/-- The job finds all that it looks up, and would not notice any further cells. -/
def Job.Covered (p : Plan.Program) : Job → Prop
  | .enter callee _ => ∀ method ∈ callee.plan.methods, callee.Covers method
  | .alternative callee method _ => callee.Covers method
  | .stage env st after => env.Covers st.slots ∧ st.transfer.Fits p.arity? ∧
      ∀ more, exec p (.stage (env.extend more) st after) = exec p (.stage env st after)
  | .generate _ _ => True

theorem ref_of_within {env : Env} {slot : Slot}
    (h : slot.Within env.fields.length env.locals.length) :
    ∃ r, env.ref slot = .ok r ∧ ∀ more, (env.extend more).ref slot = .ok r := by
  cases slot with
  | outer i =>
    have hi : i < env.fields.length := h
    refine ⟨env.fields[i], by simp [Env.ref, Env.ref?, hi], fun more => ?_⟩
    simp [Env.ref, Env.ref?, Env.extend, List.getElem?_append_left hi, hi]
  | inner i =>
    have hi : i < env.locals.length := h
    refine ⟨env.locals[i], by simp [Env.ref, Env.ref?, hi], fun more => ?_⟩
    simp [Env.ref, Env.ref?, Env.extend, List.getElem?_append_left hi, hi]

section Covering

variable {env : Env} {slots : List Slot}
  (h : ∀ slot ∈ slots, slot.Within env.fields.length env.locals.length)

include h

theorem covers_of_within : env.Covers slots := by
  intro slot hslot
  obtain ⟨r, hr, -⟩ := ref_of_within (h slot hslot)
  exact ⟨r, hr⟩

theorem sameCells_extend (more : Env) : Env.SameCells env (env.extend more) slots := by
  intro slot hslot
  obtain ⟨r, hr, hextended⟩ := ref_of_within (h slot hslot)
  rw [hr, hextended more]

end Covering

theorem covers_method (hp : p.WellFormed) {callee : Instance} (h : callee.InRange p)
    {method : Plan.Method} (hmethod : method ∈ callee.plan.methods) : callee.Covers method := by
  intro s env s' hopen
  have hserves := gives_openMethod h method s env s' hopen
  have hguard := ((hp callee.plan h.plan).methods method hmethod).guard
  rw [← hserves.fields, ← hserves.locals] at hguard
  constructor
  · intro guard hmem
    exact covers_of_within (hguard guard hmem)
  · intro more
    exact guardHolds_congr fun guard hmem => sameCells_extend (hguard guard hmem) more

/-- A job in range looks up nothing that is not there. -/
theorem Job.InRange.covered (hp : p.WellFormed) {job : Job} (h : job.InRange p) :
    job.Covered p := by
  cases job with
  | enter callee after => exact fun method hmethod => covers_method hp h.1 hmethod
  | alternative callee method after => exact covers_method hp h.1 h.2.1
  | stage env stage after =>
    obtain ⟨rest, outer, -, hactivation, -⟩ := h
    have hstage := hactivation.wellFormed hp
    refine ⟨covers_of_within hstage.slots, hstage.fits, fun more => ?_⟩
    exact exec_stage_congr p after (sameCells_extend hstage.slots more)
  | generate generator after => trivial

/-- **A compiled program never looks anything up out of range.**  The program is well
    formed: its slots are in range, and its calls go to modules that there are, with as many
    inputs and outputs as these take.  In every state of every run each module that is
    entered has one cell for each of its fields, each open method one for each of its
    locals, and stages and alternatives belong to the program; whatever a job looks up is
    there, and none would notice if there were more cells behind the last ones. -/
theorem compiled_runs_stay_in_range {options : Options} {source : String} {compiled : Compiled}
    (h : (compile options source).result = .ok compiled) :
    compiled.program.WellFormed ∧
      ∀ b limit stream, Stream.start compiled.program b limit = .ok stream →
        ∀ later, stream.Reaches later → ∀ job ∈ later.jobs,
          job.InRange compiled.program ∧ job.Covered compiled.program := by
  have hp := wellFormed_of_compile h
  refine ⟨hp, ?_⟩
  intro b limit stream hstart later hreaches job hjob
  have hjobs := (hreaches.inRange hp (start_inRange hstart)).jobs
  exact ⟨hjobs job hjob, (hjobs job hjob).covered hp⟩

/-- A module that calls itself and has two methods. -/
def flipSource : String :=
  "flip({P: bool}, {X: bool})
method
  when(P);
  call(flip, {not(P)}, {Y: bool});
  X = not(Y);
end method;
method
  X = P;
end method;
end module;
"

/-- The jobs after so many steps of a run, in words. -/
def labelsAfter? (steps : Nat) (source : String) (b : Bindings) : Option (List String) :=
  match (compile {} source).result with
  | .error _ => none
  | .ok compiled =>
      match Stream.start compiled.program b none with
      | .error _ => none
      | .ok stream => some ((stream.pull steps).2.jobs.map Job.label)

theorem exists_of_labelsAfter? {steps : Nat} {source : String} {b : Bindings}
    {labels : List String} (h : labelsAfter? steps source b = some labels) :
    ∃ compiled stream, (compile {} source).result = .ok compiled ∧
      Stream.start compiled.program b none = .ok stream ∧
      (stream.pull steps).2.jobs.map Job.label = labels := by
  unfold labelsAfter? at h
  split at h
  · cases h
  · rename_i compiled hcompile
    split at h
    · cases h
    · rename_i stream hstart
      exact ⟨compiled, stream, hcompile, hstart, Option.some.inj h⟩

-- three steps on, the second method runs inside the first
set_option maxRecDepth 100000 in
theorem compiled_runs_stay_in_range_flipSource :
    ∃ compiled stream, (compile {} flipSource).result = .ok compiled ∧
      Stream.start compiled.program (.ofList [("P", .bool true)]) none = .ok stream ∧
      (stream.pull 3).2.jobs.map Job.label = ["Unit", "Alternative(flip, 2)"] ∧
      compiled.program.WellFormed ∧ ∀ job ∈ (stream.pull 3).2.jobs,
        job.InRange compiled.program ∧ job.Covered compiled.program := by
  have hlabels : labelsAfter? 3 flipSource (.ofList [("P", .bool true)]) =
      some ["Unit", "Alternative(flip, 2)"] := by
    rw [labelsAfter?, compile, Library.load, Library.State.load, Source.Document.ofText,
      show flipSource.toList = _ from String.toList_ofList]
    decide +kernel
  obtain ⟨compiled, stream, hcompile, hstart, hjobs⟩ := exists_of_labelsAfter? hlabels
  obtain ⟨hp, hruns⟩ := compiled_runs_stay_in_range hcompile
  exact ⟨compiled, stream, hcompile, hstart, hjobs, hp, hruns _ none stream hstart _ (.pull 3 .refl)⟩

end CandidateSearch.Search
