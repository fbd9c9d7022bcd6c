/-
  CandidateSearch/Proofs/Search/Inputs.lean
  =========================================
  **Inputs keep their values.**

  A variable that is passed as an input is not copied: the module that is called has the
  cell of its caller.  So one cell can be a field of many modules at a time, and an input of
  one can be an output of another.

      main(low, {A}, {B})                      main    A 0   B 1   C 2
        call(low, {A}, {C});                   low     P 0   X 2
        B = C;

  Where no method binds an input of its own module, a job writes only cells that the method
  it is run for has for itself: its locals, and the fields of its module that are no inputs.
  None of these is ever an input of the entry module, in no open method and no choice
  point (`Framed`).  For that it matters that a call brings as many inputs as the module it
  goes to has, so that outputs become outputs.
-/
import CandidateSearch.Proofs.Search.Derivation
import CandidateSearch.Proofs.Search.Outcomes

namespace CandidateSearch

namespace Plan

/-- No method binds an input of the module, be it by a statement or as the output of a
    call. -/
def Module.KeepsInputs (m : Module) : Prop :=
  ∀ method ∈ m.methods, ∀ st ∈ method.stages, ∀ slot ∈ st.targets, ∀ i < m.inputCount,
    slot ≠ .outer i

def Program.KeepsInputs (p : Program) : Prop := ∀ m ∈ p.modules, m.KeepsInputs

instance (m : Module) : Decidable m.KeepsInputs :=
  inferInstanceAs (Decidable (∀ method ∈ m.methods, ∀ st ∈ method.stages, ∀ slot ∈ st.targets,
    ∀ i < m.inputCount, slot ≠ .outer i))

instance (p : Program) : Decidable p.KeepsInputs :=
  inferInstanceAs (Decidable (∀ m ∈ p.modules, m.KeepsInputs))

end Plan

namespace Search

/-! ### What a job writes -/

/-- The cells that a method of the module has for itself: its locals, and the fields that
    are no inputs. -/
def Env.own (env : Env) (m : Plan.Module) : List Ref := env.locals ++ env.fields.drop m.inputCount

/-- The job belongs to an open method of the module with these cells: it runs a stage of it,
    or draws a candidate for one. -/
inductive Job.RunsFor (m : Plan.Module) (env : Env) : Job → Prop where
  | stage {method : Plan.Method} {st : Plan.Stage} {rest : List Plan.Stage}
      {outer : List Activation} : method ∈ m.methods → env.Serves m method →
      st :: rest <:+ method.stages → RunsFor m env (.stage env st (⟨env, rest⟩ :: outer))
  | generate {method : Plan.Method} {st : Plan.Stage} {rest : List Plan.Stage}
      {outer : List Activation} {generator : Generator} : method ∈ m.methods →
      env.Serves m method → st :: rest <:+ method.stages →
      env.Locates st.transfer.targets generator.refs →
      RunsFor m env (.generate generator (⟨env, rest⟩ :: outer))

theorem mem_own_of_ref {env : Env} {m : Plan.Module} {slot : Slot} {r : Ref}
    (hslot : ∀ i < m.inputCount, slot ≠ .outer i) (hr : env.ref slot = .ok r) : r ∈ env.own m := by
  unfold Env.ref at hr
  split at hr
  · rename_i found hfound
    cases hr
    cases slot with
    | inner i => exact List.mem_append_left _ (List.mem_of_getElem? hfound)
    | outer i =>
      have hi : m.inputCount ≤ i := by
        rcases Nat.lt_or_ge i m.inputCount with hlt | hge
        · exact absurd rfl (hslot i hlt)
        · exact hge
      apply List.mem_append_right
      apply List.mem_of_getElem? (i := i - m.inputCount)
      rw [List.getElem?_drop, Nat.add_sub_cancel' hi]
      exact hfound
  · cases hr

/-- What is done in a row of operations is what the operations do. -/
theorem exists_op_of_mem_opActs {env : Env} {ops : List Plan.Op} {s : Store} {a : Act}
    (h : a ∈ opActs env ops s) : ∃ op ∈ ops, a.doing = .operate env op := by
  induction ops generalizing s with
  | nil => cases h
  | cons op rest ih =>
    rw [opActs] at h
    rcases List.mem_cons.mp h with rfl | hlater
    · exact ⟨op, List.mem_cons_self, rfl⟩
    · split at hlater
      · obtain ⟨other, hother, hdoing⟩ := ih hlater
        exact ⟨other, List.mem_cons_of_mem _ hother, hdoing⟩
      · cases hlater

theorem locates_opWrites {env : Env} {s : Store} {op : Plan.Op} {writes : List (Ref × Value)}
    (h : opWrites env s op = .ok writes) : env.Locates op.targets (writes.map (·.1)) := by
  have hbound : ∀ {target : Plan.Target} {v : Value},
      (env.binder target >>= fun binder => binder.writes v) = .ok writes →
      env.Locates target.slots (writes.map (·.1)) := by
    intro target v hwrites
    obtain ⟨binder, hbinder, hwrites⟩ := bind_eq_ok.mp hwrites
    intro r hr
    obtain ⟨w, hw, rfl⟩ := List.mem_map.mp hr
    exact locates_of_binder hbinder _ (mem_refs_of_writes hwrites w hw)
  cases op with
  | assign target value =>
    simp only [opWrites, bind_eq_ok] at h
    obtain ⟨binder, hbinder, v, -, hwrites⟩ := h
    exact hbound (bind_eq_ok.mpr ⟨binder, hbinder, hwrites⟩)
  | cases target arms =>
    simp only [opWrites, bind_eq_ok] at h
    obtain ⟨found, -, hwrites⟩ := h
    cases found with
    | none =>
      cases hwrites
      exact List.forall_mem_nil _
    | some v => exact hbound hwrites
  | check condition =>
    cases h
    exact List.forall_mem_nil _

theorem mem_refs_of_generator {generator : Generator} {writes : List (Ref × Value)}
    (h : generator.writes = .ok writes) : ∀ w ∈ writes, w.1 ∈ generator.refs := by
  cases generator with
  | range r =>
    simp only [Generator.writes, bind_eq_ok, pure_eq_ok] at h
    obtain ⟨v, -, rfl⟩ := h
    exact List.forall_mem_singleton.mpr (List.mem_singleton_self _)
  | member m => exact mem_refs_of_writes h

theorem exists_of_mem_getD {result : Except Fault (List (Ref × Value))} {w : Ref × Value}
    (h : w ∈ result.toOption.getD []) : ∃ writes, result = .ok writes ∧ w ∈ writes := by
  cases result with
  | error fault => cases h
  | ok writes => exact ⟨writes, rfl, h⟩

/-- A method writes into its own cells only. -/
theorem Job.RunsFor.writes_own {m : Plan.Module} {env : Env} {job : Job} (h : job.RunsFor m env)
    (hm : m.KeepsInputs) (s : Store) : ∀ w ∈ job.writes s, w.1 ∈ env.own m := by
  intro w hw
  obtain ⟨a, ha, hwrite⟩ := List.mem_flatMap.mp hw
  cases h with
  | @stage method st rest outer hmethod _ hstages =>
    obtain ⟨op, hop, hdoing⟩ := exists_op_of_mem_opActs ha
    simp only [Act.writes, hdoing] at hwrite
    obtain ⟨writes, hwrites, hmem⟩ := exists_of_mem_getD hwrite
    obtain ⟨slot, hslot, hr⟩ := locates_opWrites hwrites w.1 (List.mem_map_of_mem hmem)
    refine mem_own_of_ref (hm method hmethod st (hstages.subset List.mem_cons_self) slot ?_) hr
    exact List.mem_append_left _ (List.mem_flatMap.mpr ⟨op, hop, hslot⟩)
  | @generate method st rest outer generator hmethod _ hstages hlocates =>
    cases List.mem_singleton.mp ha
    obtain ⟨writes, hwrites, hmem⟩ := exists_of_mem_getD hwrite
    obtain ⟨slot, hslot, hr⟩ := hlocates w.1 (mem_refs_of_generator hwrites w hmem)
    refine mem_own_of_ref (hm method hmethod st (hstages.subset List.mem_cons_self) slot ?_) hr
    exact List.mem_append_right _ hslot

/-! ### Cells that are off limits -/

section Framing

variable {p : Plan.Program} {k : Nat}

/-- A method of the program that has none of the first cells for itself. -/
def Activation.Framed (p : Plan.Program) (k : Nat) (a : Activation) : Prop :=
  ∃ m ∈ p.modules, ∃ method ∈ m.methods, a.env.Serves m method ∧ a.stages <:+ method.stages ∧
    ∀ r ∈ a.env.own m, k ≤ r

/-- A module whose fields are none of the first cells, unless they are inputs. -/
structure Instance.Framed (p : Plan.Program) (k : Nat) (callee : Instance) : Prop where
  inRange : callee.InRange p
  fields : ∀ r ∈ callee.fields.drop callee.plan.inputCount, k ≤ r

/-- Neither the method that the job belongs to nor any that is open has one of the first
    cells for itself. -/
def Job.Framed (p : Plan.Program) (k : Nat) : Job → Prop
  | .enter callee after => callee.Framed p k ∧ ∀ a ∈ after, a.Framed p k
  | .alternative callee method after =>
      callee.Framed p k ∧ method ∈ callee.plan.methods ∧ ∀ a ∈ after, a.Framed p k
  | .stage env st after => ∃ rest outer, after = ⟨env, rest⟩ :: outer ∧
      Activation.Framed p k ⟨env, st :: rest⟩ ∧ ∀ a ∈ outer, a.Framed p k
  | .generate generator after => ∃ env st rest outer, after = ⟨env, rest⟩ :: outer ∧
      Activation.Framed p k ⟨env, st :: rest⟩ ∧
      env.Locates st.transfer.targets generator.refs ∧ ∀ a ∈ outer, a.Framed p k

theorem Activation.Framed.tail {env : Env} {st : Plan.Stage} {rest : List Plan.Stage}
    (h : Activation.Framed p k ⟨env, st :: rest⟩) : Activation.Framed p k ⟨env, rest⟩ := by
  obtain ⟨m, hm, method, hmethod, hserves, hstages, hown⟩ := h
  exact ⟨m, hm, method, hmethod, hserves, (List.suffix_cons st rest).trans hstages, hown⟩

theorem proceed_framed {after : List Activation} (h : ∀ a ∈ after, a.Framed p k) :
    ∀ job ∈ (proceed after).jobs, job.Framed p k := by
  induction after with
  | nil => simp [proceed, Goal.jobs]
  | cons a outer ih =>
    obtain ⟨ha, houter⟩ := List.forall_mem_cons.mp h
    obtain ⟨env, stages⟩ := a
    cases stages with
    | nil => exact ih houter
    | cons st rest => exact List.forall_mem_singleton.mpr ⟨rest, outer, rfl, ha, houter⟩

/-- A method that is opened gets new cells for its locals. -/
theorem opened_framed {callee : Instance} (hcallee : callee.Framed p k) {method : Plan.Method}
    (hmethod : method ∈ callee.plan.methods) {locals : List Ref}
    (hlength : locals.length = method.locals.length) (hlocals : ∀ r ∈ locals, k ≤ r)
    {after : List Activation} (hafter : ∀ a ∈ after, a.Framed p k) :
    ∀ job ∈ (proceed (⟨⟨callee.fields, locals⟩, method.stages⟩ :: after)).jobs,
      job.Framed p k := by
  apply proceed_framed
  refine List.forall_mem_cons.mpr ⟨?_, hafter⟩
  exact ⟨callee.plan, hcallee.inRange.plan, method, hmethod, ⟨hcallee.inRange.fields, hlength⟩,
    List.suffix_rfl, List.forall_mem_append.mpr ⟨hlocals, hcallee.fields⟩⟩

/-- The outputs of a call become outputs of the module it goes to. -/
theorem called_framed (hp : p.WellFormed) (hkeeps : p.KeepsInputs) {env : Env} {st : Plan.Stage}
    {rest : List Plan.Stage} (h : Activation.Framed p k ⟨env, st :: rest⟩) {index : Nat}
    {inputs : List Plan.Expr} {outputs : List Slot} {plan : Plan.Module} {ins outs : List Ref}
    (htransfer : st.transfer = .call index inputs outputs) (hplan : p.modules[index]? = some plan)
    (hins : ins.length = min inputs.length plan.fields.length)
    (houts : env.refs outputs = .ok outs) :
    Instance.Framed p k ⟨plan, ins ++ outs⟩ := by
  obtain ⟨m, hm, method, hmethod, hserves, hstages, hown⟩ := h
  have hst : st ∈ method.stages := hstages.subset List.mem_cons_self
  have hfits := (((hp m hm).methods method hmethod).stages st hst).fits
  rw [htransfer, Plan.Transfer.Fits, Plan.Program.arity?, hplan] at hfits
  simp only [Option.map_some, Option.some.injEq, Prod.mk.injEq] at hfits
  have hfields := length_inputs_add_outputs plan
  have hcount : plan.inputs.length = plan.inputCount := by
    have hbound := (hp plan (List.mem_of_getElem? hplan)).inputs
    rw [Plan.Module.inputs, List.length_take, Nat.min_eq_left hbound]
  have hlength : ins.length = plan.inputCount := by omega
  refine ⟨⟨List.mem_of_getElem? hplan, ?_⟩, ?_⟩
  · have houtsLength := length_of_refs houts
    simp only [List.length_append]
    omega
  · simp only [← hlength, List.drop_left]
    intro r hr
    obtain ⟨slot, hslot, hr⟩ := locates_of_refs houts r hr
    apply hown
    refine mem_own_of_ref (hkeeps m hm method hmethod st hst slot ?_) hr
    apply List.mem_append_right
    rw [htransfer]
    exact hslot

/-- **One job** leaves only jobs for which the first cells are off limits. -/
theorem framed_of_follows (hp : p.WellFormed) (hkeeps : p.KeepsInputs) {s : Store}
    (hk : k ≤ s.size) {job : Job} {outcome : Outcome Job} (hjob : job.Framed p k)
    (h : Follows p s job outcome) : Holds (Job.Framed p k) outcome.goal outcome.choices := by
  cases h with
  | failed => simp [Holds, Goal.jobs]
  | entered hmethod hlater hlength hlocals =>
    obtain ⟨hcallee, hafter⟩ := hjob
    refine holds_iff.mpr ⟨opened_framed hcallee hmethod hlength ?_ hafter, ?_⟩
    · exact fun r hr => Nat.le_trans hk (hlocals r hr)
    · intro job hmem
      obtain ⟨other, hother, rfl⟩ := List.mem_map.mp hmem
      exact ⟨hcallee, hlater other hother, hafter⟩
  | retried hlength hlocals =>
    obtain ⟨hcallee, hmethod, hafter⟩ := hjob
    refine holds_iff.mpr ⟨opened_framed hcallee hmethod hlength ?_ hafter, by simp⟩
    exact fun r hr => Nat.le_trans hk (hlocals r hr)
  | proceeded =>
    obtain ⟨rest, outer, rfl, hactivation, houter⟩ := hjob
    refine holds_iff.mpr ⟨proceed_framed ?_, by simp⟩
    exact List.forall_mem_cons.mpr ⟨hactivation.tail, houter⟩
  | @started env st after generator hlocates =>
    obtain ⟨rest, outer, rfl, hactivation, houter⟩ := hjob
    refine holds_iff.mpr ⟨List.forall_mem_singleton.mpr ?_, by simp⟩
    exact ⟨env, st, rest, outer, rfl, hactivation, hlocates, houter⟩
  | called htransfer hplan hins houts =>
    obtain ⟨rest, outer, rfl, hactivation, houter⟩ := hjob
    refine holds_iff.mpr ⟨List.forall_mem_singleton.mpr ⟨?_, ?_⟩, by simp⟩
    · exact called_framed hp hkeeps hactivation htransfer hplan hins houts
    · exact List.forall_mem_cons.mpr ⟨hactivation.tail, houter⟩
  | drawn left hleft =>
    obtain ⟨env, st, rest, outer, rfl, hactivation, hlocates, houter⟩ := hjob
    refine holds_iff.mpr ⟨proceed_framed ?_, ?_⟩
    · exact List.forall_mem_cons.mpr ⟨hactivation.tail, houter⟩
    · intro job hmem
      obtain ⟨other, hother, rfl⟩ := List.mem_map.mp hmem
      refine ⟨env, st, rest, outer, rfl, hactivation, ?_, houter⟩
      rw [hleft other (Option.mem_toList.mp hother)]
      exact hlocates

/-- A job for which the first cells are off limits runs for an open method that has none of
    them, or it writes nothing. -/
theorem Job.Framed.runsFor {job : Job} (h : job.Framed p k) (s : Store) :
    job.writes s = [] ∨ ∃ m ∈ p.modules, ∃ env, job.RunsFor m env ∧ ∀ r ∈ env.own m, k ≤ r := by
  cases job with
  | enter callee after => exact Or.inl rfl
  | alternative callee method after => exact Or.inl rfl
  | stage env st after =>
    obtain ⟨rest, outer, rfl, ⟨m, hm, method, hmethod, hserves, hstages, hown⟩, -⟩ := h
    exact Or.inr ⟨m, hm, env, .stage hmethod hserves hstages, hown⟩
  | generate generator after =>
    obtain ⟨env, st, rest, outer, rfl, ⟨m, hm, method, hmethod, hserves, hstages, hown⟩,
      hlocates, -⟩ := h
    exact Or.inr ⟨m, hm, env, .generate hmethod hserves hstages hlocates, hown⟩

/-- The first cells keep their values while a job is run. -/
theorem Job.Framed.value?_after (hkeeps : p.KeepsInputs) {job : Job} (h : job.Framed p k)
    {s : Store} (hk : k ≤ s.size) {r : Ref} (hr : r < k) :
    (Effect.after (exec p job) s).value? r = s.value? r := by
  have hextends := extends_exec p job s
  have hbound : r < s.size := Nat.lt_of_lt_of_le hr hk
  have hnone : Store.lastOf r (job.writes s) = none := by
    apply Store.lastOf_eq_none
    intro w hw
    rcases h.runsFor s with hnothing | ⟨m, hm, env, hruns, hown⟩
    · rw [hnothing] at hw
      cases hw
    · have hle := hown w.1 (hruns.writes_own (hkeeps m hm) s w hw)
      exact Nat.ne_of_gt (Nat.lt_of_lt_of_le hr hle)
  rw [hextends.values r (by rwa [Store.size_writeAll]), Store.value?_writeAll _ hbound, hnone]
  rfl

/-! ### Whole runs -/

/-- The first cells are off limits and have kept their values. -/
structure Kept (p : Plan.Program) (k : Nat) (s : Store) (goal : Goal Job) (m : Machine Job) :
    Prop where
  size : k ≤ m.store.size
  jobs : Holds (Job.Framed p k) goal m.choices
  values : ∀ r < k, m.store.value? r = s.value? r

variable {s : Store} {goal : Goal Job} {m : Machine Job}

/-- The same place with a failure. -/
theorem Kept.failure (h : Kept p k s goal m) : Kept p k s .failure m :=
  ⟨h.size, holds_iff.mpr ⟨by simp [Goal.jobs], (holds_iff.mp h.jobs).2⟩, h.values⟩

theorem Kept.after {job : Job} (hkeeps : p.KeepsInputs) (h : Kept p k s (.run job) m) :
    k ≤ (Effect.after (exec p job) m.store).size ∧
      ∀ r < k, (Effect.after (exec p job) m.store).value? r = s.value? r := by
  have hjob : job.Framed p k := (holds_iff.mp h.jobs).1 job (by simp [Goal.jobs])
  have hgrown := (extends_exec p job m.store).size
  rw [Store.size_writeAll] at hgrown
  refine ⟨Nat.le_trans h.size hgrown, fun r hr => ?_⟩
  rw [hjob.value?_after hkeeps h.size hr, h.values r hr]

theorem Kept.step (hp : p.WellFormed) (hkeeps : p.KeepsInputs) (h : Kept p k s goal m) :
    (step (exec p) goal m).Keeps (Kept p k s) := by
  obtain ⟨store, choices⟩ := m
  cases goal with
  | success => exact h.failure
  | failure =>
    cases choices with
    | nil => exact h
    | cons job rest => exact ⟨h.size, h.jobs, h.values⟩
  | run job =>
    obtain ⟨hsize, hvalues⟩ := h.after hkeeps
    obtain ⟨hjob, hchoices⟩ := holds_iff.mp h.jobs
    rw [Search.step]
    cases hrun : exec p job store with
    | ok outcome store' =>
      rw [Effect.after_of_ok hrun] at hsize hvalues
      have hnext := framed_of_follows hp hkeeps h.size (hjob job (by simp [Goal.jobs]))
        (follows_exec hrun)
      obtain ⟨hgoal, hnew⟩ := holds_iff.mp hnext
      exact ⟨hsize, holds_iff.mpr ⟨hgoal, List.forall_mem_append.mpr ⟨hnew, hchoices⟩⟩, hvalues⟩
    | error fault store' =>
      rw [Effect.after_of_error hrun] at hsize hvalues
      exact ⟨hsize, holds_iff.mpr ⟨by simp [Goal.jobs], hchoices⟩, hvalues⟩

/-- At the start the entry module has the first cells as its inputs, and nothing else. -/
theorem kept_of_opens {b : Bindings} {entry : Plan.Module} {stream : Stream}
    (hentry : p.entry? = some entry) (h : stream.Opens b entry) :
    Kept p entry.inputs.length stream.machine.store stream.goal stream.machine := by
  have hcallee : Instance.Framed p entry.inputs.length
      ⟨entry, List.range' 0 entry.fields.length⟩ := by
    refine ⟨⟨List.mem_of_mem_head? hentry, List.length_range'⟩, ?_⟩
    intro r hr
    simp only [List.drop_range', List.mem_range'_1] at hr
    have hle : entry.inputs.length ≤ entry.inputCount := List.length_take_le _ _
    omega
  refine ⟨?_, ?_, fun _ _ => rfl⟩
  · rw [h.size, ← length_inputs_add_outputs]
    exact Nat.le_add_right _ _
  · rw [h.goal, h.choices]
    exact holds_iff.mpr ⟨List.forall_mem_singleton.mpr ⟨hcallee, List.forall_mem_nil _⟩,
      List.forall_mem_nil _⟩

end Framing

/-- **Inputs are kept.**  Take a compiled program in which no method binds an input of its
    own module, and any state of any of its runs.  The job that is run next does nothing to
    the cells that are there but its writes.  It writes nothing, or it runs for an open
    method, and all that it writes are cells that this method has for itself: its locals,
    and the fields of its module that are no inputs.  The inputs of the entry module, which
    are the first cells, have the values that were given for them. -/
theorem compiled_runs_keep_inputs {options : Options} {source : String} {compiled : Compiled}
    (hcompile : (compile options source).result = .ok compiled)
    (hkeeps : compiled.program.KeepsInputs) {b : Bindings} {limit : Option Nat} {stream : Stream}
    (hstart : Stream.start compiled.program b limit = .ok stream) :
    ∃ entry, compiled.program.entry? = some entry ∧ stream.Opens b entry ∧
      ∀ later, stream.Reaches later →
        (∀ job, later.goal = .run job →
          Store.Extends (later.machine.store.writeAll (job.writes later.machine.store))
            (Effect.after (exec compiled.program job) later.machine.store) ∧
          (job.writes later.machine.store = [] ∨
            ∃ m ∈ compiled.program.modules, ∃ env, job.RunsFor m env) ∧
          ∀ m ∈ compiled.program.modules, ∀ env, job.RunsFor m env →
            ∀ w ∈ job.writes later.machine.store, w.1 ∈ env.own m) ∧
        ∀ i field, entry.inputs[i]? = some field →
          later.machine.store.value? i = b.get? field.name := by
  have hp := wellFormed_of_compile hcompile
  obtain ⟨hprogram, entry, hentry, hopens⟩ := Stream.opens_of_start hstart
  refine ⟨entry, hentry, hopens, ?_⟩
  intro later hreaches
  have hkept := (Stream.Reaches.keeps (fun goal m h => Kept.step hp hkeeps h) hreaches hprogram
    (kept_of_opens hentry hopens)).2
  refine ⟨?_, ?_⟩
  · intro job hgoal
    have hjob : job.Framed compiled.program entry.inputs.length :=
      (holds_iff.mp hkept.jobs).1 job (by simp [hgoal, Goal.jobs])
    refine ⟨extends_exec _ job _, ?_, ?_⟩
    · rcases hjob.runsFor later.machine.store with hnothing | ⟨m, hm, env, hruns, -⟩
      · exact Or.inl hnothing
      · exact Or.inr ⟨m, hm, env, hruns⟩
    · intro m hm env hruns
      exact hruns.writes_own (hkeeps m hm) _
  · intro i field hfield
    have hi := (List.getElem?_eq_some_iff.mp hfield).1
    rw [hkept.values i hi, hopens.inputs i field hfield]

/-- The input of the caller is the input of the module it calls. -/
def sharedSource : String :=
  "main(low, {A: bool}, {B: bool})
method
  call(low, {A}, {C: bool});
  B = not(C);
end method;
end module;
low({P: bool}, {X: bool})
method
  X = P;
end method;
end module;
"

/-- Whether no method of the source binds an input, and the jobs after so many steps. -/
def keepsAfter? (steps : Nat) (source : String) (b : Bindings) : Option (Bool × List String) :=
  match (compile {} source).result with
  | .error _ => none
  | .ok compiled =>
      match Stream.start compiled.program b none with
      | .error _ => none
      | .ok stream =>
          some (decide compiled.program.KeepsInputs, (stream.pull steps).2.jobs.map Job.label)

theorem exists_of_keepsAfter? {steps : Nat} {source : String} {b : Bindings}
    {labels : List String} (h : keepsAfter? steps source b = some (true, labels)) :
    ∃ compiled stream, (compile {} source).result = .ok compiled ∧
      compiled.program.KeepsInputs ∧ Stream.start compiled.program b none = .ok stream ∧
      (stream.pull steps).2.jobs.map Job.label = labels := by
  unfold keepsAfter? at h
  split at h
  · cases h
  · rename_i compiled hcompile
    split at h
    · cases h
    · rename_i stream hstart
      simp only [Option.some.injEq, Prod.mk.injEq, decide_eq_true_eq] at h
      exact ⟨compiled, stream, hcompile, h.1, hstart, h.2⟩

-- three steps on, the called module is about to write its output
set_option maxRecDepth 100000 in
theorem compiled_runs_keep_inputs_sharedSource :
    ∃ compiled stream entry, (compile {} sharedSource).result = .ok compiled ∧
      compiled.program.KeepsInputs ∧
      Stream.start compiled.program (.ofList [("A", .bool true)]) none = .ok stream ∧
      (stream.pull 3).2.jobs.map Job.label = ["Unit"] ∧
      compiled.program.entry? = some entry ∧ stream.Opens (.ofList [("A", .bool true)]) entry ∧
      (∀ job, (stream.pull 3).2.goal = .run job →
        ∀ m ∈ compiled.program.modules, ∀ env, job.RunsFor m env →
          ∀ w ∈ job.writes (stream.pull 3).2.machine.store, w.1 ∈ env.own m) ∧
      ∀ i field, entry.inputs[i]? = some field → (stream.pull 3).2.machine.store.value? i =
        (Bindings.ofList [("A", .bool true)]).get? field.name := by
  have hexamined : keepsAfter? 3 sharedSource (.ofList [("A", .bool true)]) =
      some (true, ["Unit"]) := by
    rw [keepsAfter?, compile, Library.load, Library.State.load, Source.Document.ofText,
      show sharedSource.toList = _ from String.toList_ofList]
    decide +kernel
  obtain ⟨compiled, stream, hcompile, hkeeps, hstart, hlabels⟩ := exists_of_keepsAfter? hexamined
  obtain ⟨entry, hentry, hopens, hruns⟩ := compiled_runs_keep_inputs hcompile hkeeps hstart
  obtain ⟨hjobs, hinputs⟩ := hruns _ (.pull 3 .refl)
  exact ⟨compiled, stream, entry, hcompile, hkeeps, hstart, hlabels, hentry, hopens,
    fun job hjob => (hjobs job hjob).2.2, hinputs⟩

end Search

end CandidateSearch
