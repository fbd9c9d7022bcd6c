/-
  CandidateSearch/Proofs/Search/Outcomes.lean
  ===========================================
  **What can come of a job.**

  A job that ends without a fault fails, or it comes to one of a few things: a method is
  opened with new cells for its locals, the innermost open method goes on, a generator is
  started for the targets of a stage, a module is called, or a generator goes on with what
  it has left.

      enter f          f's first method that applies, the later ones as choice points
      stage            go on, start a generator, or enter a module
      generate         go on, and the rest of the candidates as a choice point

  `Follows` says all that can come of a job, so what a run preserves can be proved case by
  case, without looking at how jobs are run.
-/
import CandidateSearch.Proofs.Search.Acts
import CandidateSearch.Proofs.Search.InRange

namespace CandidateSearch

/-- The cells that a binder writes. -/
def Binder.refs : Binder → List Ref
  | .single r => [r]
  | .destructure rs => rs

namespace Plan

/-! ### Targets -/

/-- The slots that an operation binds. -/
def Op.targets : Op → List Slot
  | .assign target _ | .cases target _ => target.slots
  | .check _ => []

/-- The slots that a transfer binds, itself or by what it calls. -/
def Transfer.targets : Transfer → List Slot
  | .proceed => []
  | .range target _ _ _ => [target]
  | .member target _ => target.slots
  | .call _ _ outputs => outputs

def Stage.targets (st : Stage) : List Slot := st.ops.flatMap Op.targets ++ st.transfer.targets

end Plan

namespace Search

/-- The cells that a generator writes. -/
def Generator.refs : Generator → List Ref
  | .range r => [r.target]
  | .member m => m.target.refs

/-- The cells are those of some of the slots. -/
def Env.Locates (env : Env) (slots : List Slot) (refs : List Ref) : Prop :=
  ∀ r ∈ refs, ∃ slot ∈ slots, env.ref slot = .ok r

theorem locates_of_refs {env : Env} {slots : List Slot} {rs : List Ref}
    (h : env.refs slots = .ok rs) : env.Locates slots rs := by
  induction slots generalizing rs with
  | nil =>
    cases h
    exact List.forall_mem_nil _
  | cons slot rest ih =>
    simp only [Env.refs, bind_eq_ok, pure_eq_ok] at h
    obtain ⟨r, hr, others, hothers, rfl⟩ := h
    refine List.forall_mem_cons.mpr ⟨⟨slot, List.mem_cons_self, hr⟩, ?_⟩
    intro q hq
    obtain ⟨other, hother, hq⟩ := ih hothers q hq
    exact ⟨other, List.mem_cons_of_mem _ hother, hq⟩

theorem locates_of_binder {env : Env} {target : Plan.Target} {binder : Binder}
    (h : env.binder target = .ok binder) : env.Locates target.slots binder.refs := by
  cases target with
  | single slot =>
    obtain ⟨r, hr, rfl⟩ := map_eq_ok.mp h
    exact List.forall_mem_singleton.mpr ⟨slot, List.mem_singleton_self _, hr⟩
  | destructure slots =>
    obtain ⟨rs, hrs, rfl⟩ := map_eq_ok.mp h
    exact locates_of_refs hrs

theorem mem_refs_of_writes {binder : Binder} {v : Value} {writes : List (Ref × Value)}
    (h : binder.writes v = .ok writes) : ∀ w ∈ writes, w.1 ∈ binder.refs := by
  cases binder with
  | single r =>
    cases h
    exact List.forall_mem_singleton.mpr (List.mem_singleton_self _)
  | destructure rs =>
    cases v with
    | vector items =>
      simp only [Binder.writes] at h
      split at h
      · cases h
        rintro ⟨r, x⟩ hmem
        exact (List.of_mem_zip hmem).1
      · cases h
    | _ => cases h

/-! ### What comes of a job -/

/-- What can come of a job that is run in the store. -/
inductive Follows (p : Plan.Program) (s : Store) : Job → Outcome Job → Prop where
  | failed (job : Job) : Follows p s job { goal := .failure }
  | entered {callee : Instance} {after : List Activation} {method : Plan.Method}
      {later : List Plan.Method} {locals : List Ref} :
      method ∈ callee.plan.methods → (∀ other ∈ later, other ∈ callee.plan.methods) →
      locals.length = method.locals.length → (∀ r ∈ locals, s.size ≤ r) →
      Follows p s (.enter callee after)
        { choices := later.map fun other => .alternative callee other after
          goal := proceed (⟨⟨callee.fields, locals⟩, method.stages⟩ :: after) }
  | retried {callee : Instance} {after : List Activation} {method : Plan.Method}
      {locals : List Ref} :
      locals.length = method.locals.length → (∀ r ∈ locals, s.size ≤ r) →
      Follows p s (.alternative callee method after)
        { goal := proceed (⟨⟨callee.fields, locals⟩, method.stages⟩ :: after) }
  | proceeded {env : Env} {st : Plan.Stage} {after : List Activation} :
      Follows p s (.stage env st after) { goal := proceed after }
  | started {env : Env} {st : Plan.Stage} {after : List Activation} {generator : Generator} :
      env.Locates st.transfer.targets generator.refs →
      Follows p s (.stage env st after) { goal := .run (.generate generator after) }
  | called {env : Env} {st : Plan.Stage} {after : List Activation} {callee : Nat}
      {inputs : List Plan.Expr} {outputs : List Slot} {plan : Plan.Module} {ins outs : List Ref} :
      st.transfer = .call callee inputs outputs → p.modules[callee]? = some plan →
      ins.length = min inputs.length plan.fields.length → env.refs outputs = .ok outs →
      Follows p s (.stage env st after) { goal := .run (.enter ⟨plan, ins ++ outs⟩ after) }
  | drawn {generator : Generator} {after : List Activation} (left : Option Generator) :
      (∀ other ∈ left, other.refs = generator.refs) →
      Follows p s (.generate generator after)
        { choices := left.toList.map fun other => .generate other after, goal := proceed after }

variable {p : Plan.Program} {s s' : Store} {outcome : Outcome Job}

/-- A method that is taken up, with the ones that come after it. -/
theorem choose_cases {callee : Instance} {after : List Activation} {methods : List Plan.Method}
    (h : choose callee after methods s = .ok outcome s') :
    outcome = { goal := .failure } ∨
      ∃ passed method later locals, methods = passed ++ method :: later ∧
        locals.length = method.locals.length ∧ (∀ r ∈ locals, s.size ≤ r) ∧
        outcome = { choices := later.map fun other => .alternative callee other after
                    goal := proceed (⟨⟨callee.fields, locals⟩, method.stages⟩ :: after) } := by
  induction methods generalizing s with
  | nil =>
    cases h
    exact Or.inl rfl
  | cons method later ih =>
    obtain ⟨hlocals, hsize, -, -⟩ := s.allocAll_spec method.locals
    rw [choose, Effect.bind_of_ok (openMethod_eq callee method s)] at h
    obtain ⟨holds, s₁, hguard, hrest⟩ := Effect.exists_of_bind_eq_ok h
    cases holds with
    | true =>
      cases hrest
      refine Or.inr ⟨[], method, later, _, rfl, ?_, ?_, rfl⟩
      · rw [hlocals, List.length_range']
      · rw [hlocals]
        exact fun r hr => (List.mem_range'_1.mp hr).1
    | false =>
      have hgrown := (extending_guardHolds ⟨callee.fields, (s.allocAll method.locals).1⟩ method
        (s.allocAll method.locals).2).size
      rw [Effect.after_of_ok hguard] at hgrown
      rcases ih hrest with hfailed | ⟨passed, chosen, rest, locals, rfl, hlength, hnew, houtcome⟩
      · exact Or.inl hfailed
      · refine Or.inr ⟨method :: passed, chosen, rest, locals, rfl, hlength, ?_, houtcome⟩
        intro r hr
        have hr := hnew r hr
        omega

theorem follows_enter {callee : Instance} {after : List Activation}
    (h : enter callee after s = .ok outcome s') : Follows p s (.enter callee after) outcome := by
  by_cases honly : ∃ method, callee.plan.methods = [method]
  · obtain ⟨method, honly⟩ := honly
    obtain ⟨hlocals, -⟩ := s.allocAll_spec method.locals
    simp only [enter, honly] at h
    rw [Effect.bind_of_ok (openMethod_eq callee method s)] at h
    cases h
    refine @Follows.entered p s callee after method [] _ (by simp [honly])
      (List.forall_mem_nil _) ?_ ?_
    · rw [hlocals, List.length_range']
    · rw [hlocals]
      exact fun r hr => (List.mem_range'_1.mp hr).1
  · have hchoose : enter callee after = choose callee after callee.plan.methods := by
      unfold enter
      split
      · rename_i method hmethod
        exact absurd ⟨method, hmethod⟩ honly
      · rfl
    rw [hchoose] at h
    rcases choose_cases h with rfl | ⟨passed, method, later, locals, hmethods, hlength, hnew, rfl⟩
    · exact .failed _
    · refine .entered ?_ ?_ hlength hnew
      · simp [hmethods]
      · intro other hother
        simp [hmethods, hother]

/-- What a transfer comes to, as far as the stage is concerned. -/
theorem gives_follows_transfer (env : Env) (st : Plan.Stage) (after : List Activation) :
    Gives (transfer p env after st.transfer) fun goal =>
      ∀ s, Follows p s (.stage env st after) { goal } := by
  have hstart : ∀ generator : Option Generator,
      (∀ g ∈ generator, env.Locates st.transfer.targets g.refs) →
      ∀ s, Follows p s (.stage env st after) { goal := startGenerator generator after } := by
    intro generator hgenerator s
    cases generator with
    | none => exact .failed _
    | some g => exact .started (hgenerator g rfl)
  cases ht : st.transfer with
  | proceed => exact gives_pure fun s => .proceeded
  | range target first last step =>
    rw [ht] at hstart
    refine (gives_ofExcept fun r hr => hr).bind fun r hr => ?_
    refine (gives_any _).bind fun _ _ => (gives_any _).bind fun _ _ => ?_
    refine (gives_any _).bind fun _ _ => ?_
    refine (gives_ofExcept fun range hrange => hrange).bind fun range hrange => ?_
    refine gives_pure (hstart _ ?_)
    intro g hg
    obtain ⟨started, hstarted, rfl⟩ := Option.map_eq_some_iff.mp hg
    unfold Range.start? at hrange
    split at hrange
    · cases hrange
    · split at hrange <;> cases hrange
      · cases hstarted
        exact List.forall_mem_singleton.mpr ⟨target, List.mem_singleton_self _, hr⟩
      · cases hstarted
  | member target list =>
    rw [ht] at hstart
    refine (gives_any _).bind fun _ _ => (gives_any _).bind fun items _ => ?_
    refine (gives_ofExcept fun binder hbinder => hbinder).bind fun binder hbinder => ?_
    refine gives_pure (hstart _ ?_)
    intro g hg
    obtain ⟨started, hstarted, rfl⟩ := Option.map_eq_some_iff.mp hg
    cases items with
    | nil => cases hstarted
    | cons item rest =>
      cases hstarted
      exact locates_of_binder hbinder
  | call callee inputs outputs =>
    cases hplan : p.modules[callee]? with
    | none =>
      simp only [transfer, hplan]
      exact gives_pure fun s => .failed _
    | some plan =>
      simp only [transfer, hplan]
      refine (gives_passInputs env (inputs.zip plan.fields)).bind fun ins hins => ?_
      refine (gives_ofExcept fun outs houts => houts).bind fun outs houts => gives_pure fun s => ?_
      exact .called ht hplan (by rw [hins, List.length_zip]) houts

theorem refs_next? {generator : Generator} :
    ∀ other ∈ generator.next?, other.refs = generator.refs := by
  intro other hother
  cases generator with
  | range r =>
    obtain ⟨next, hnext, rfl⟩ := Option.map_eq_some_iff.mp hother
    unfold Range.next? at hnext
    dsimp only at hnext
    split at hnext <;> cases hnext
    rfl
  | member m =>
    obtain ⟨next, hnext, rfl⟩ := Option.map_eq_some_iff.mp hother
    unfold Member.next? Member.start? at hnext
    split at hnext <;> cases hnext
    rfl

/-- **All that can come of a job.** -/
theorem follows_exec {job : Job} (h : exec p job s = .ok outcome s') : Follows p s job outcome := by
  cases job with
  | enter callee after => exact follows_enter h
  | alternative callee method after =>
    rcases choose_cases h with rfl | ⟨passed, chosen, later, locals, hmethods, hlength, hnew, rfl⟩
    · exact .failed _
    · -- there is nothing before or after the only method
      obtain ⟨rfl, rfl, rfl⟩ : passed = [] ∧ chosen = method ∧ later = [] := by
        cases passed with
        | nil => simpa [eq_comm] using hmethods
        | cons first rest => simp at hmethods
      exact .retried hlength hnew
  | stage env st after =>
    rw [exec] at h
    obtain ⟨holds, s₁, -, hrest⟩ := Effect.exists_of_bind_eq_ok h
    cases holds with
    | false =>
      cases hrest
      exact .failed _
    | true =>
      obtain ⟨goal, s₂, htransfer, hgoal⟩ := Effect.exists_of_bind_eq_ok hrest
      cases hgoal
      exact gives_follows_transfer env st after s₁ goal _ htransfer s
  | generate generator after =>
    rw [exec] at h
    obtain ⟨left, s₁, hadvance, hgoal⟩ := Effect.exists_of_bind_eq_ok h
    cases hgoal
    refine .drawn left ?_
    have hleft : Gives generator.advance fun left => left = generator.next? :=
      (gives_any _).bind fun _ _ => gives_pure rfl
    rw [hleft s left _ hadvance]
    exact refs_next?

/-! ### Whole runs -/

section Machines

variable {κ : Type} {P : Goal κ → Machine κ → Prop} {exec : Exec κ}

/-- What a step leads to satisfies `P`; a search that is over counts as a failure. -/
def Move.Keeps (P : Goal κ → Machine κ → Prop) : Move κ → Prop
  | .on goal m => P goal m
  | .solved m | .exhausted m | .faulted _ m => P .failure m

def Stop.Keeps (P : Goal κ → Machine κ → Prop) : Stop κ → Prop
  | .unfinished goal m => P goal m
  | .solved m | .exhausted m | .faulted _ m => P .failure m

theorem search_keeps (hstep : ∀ goal m, P goal m → (step exec goal m).Keeps P) (fuel : Nat)
    {goal : Goal κ} {m : Machine κ} (h : P goal m) : (search exec fuel goal m).Keeps P := by
  induction fuel generalizing goal m with
  | zero => exact h
  | succ fuel ih =>
    have hnext := hstep goal m h
    rw [search]
    cases hmove : step exec goal m with
    | on goal' m' =>
      rw [hmove] at hnext
      exact ih hnext
    | solved m' | exhausted m' | faulted _ m' =>
      rw [hmove] at hnext
      exact hnext

end Machines

/-- What is kept by every step of the machine holds in every state of a run. -/
theorem Stream.Reaches.keeps {P : Goal Job → Machine Job → Prop}
    (hstep : ∀ goal m, P goal m → (step (exec p) goal m).Keeps P) {stream later : Stream}
    (hreaches : stream.Reaches later) (hprogram : stream.program = p)
    (h : P stream.goal stream.machine) : later.program = p ∧ P later.goal later.machine := by
  induction hreaches with
  | refl => exact ⟨hprogram, h⟩
  | @pull later fuel _ ih =>
    obtain ⟨rfl, hlater⟩ := ih
    have hsearch := search_keeps hstep fuel hlater
    unfold Stream.pull
    split
    · exact ⟨rfl, hlater⟩
    · split <;> rename_i hstop <;> rw [hstop] at hsearch <;> exact ⟨rfl, hsearch⟩

end Search

end CandidateSearch
