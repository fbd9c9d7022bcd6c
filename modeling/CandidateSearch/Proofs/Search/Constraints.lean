/-
  CandidateSearch/Proofs/Search/Constraints.lean
  ==============================================
  **Constraints on the way to a solution.**

  A variable with a constraint name that is assigned a plain expression is checked by the
  operation that comes next.  A stage goes on only if all its operations hold, so on the
  way to a solution every such assignment has bound the variable to true.

      X = select([false, true]);  Fits_constraint = X;

  The first round fails at the check, and the assignment of the second round is on the way
  to the solution.  At the solution the variable is still true, unless something that was
  done after the assignment has bound it again.  That may have been
  in a branch that was given up, for its values stay.
-/
import CandidateSearch.Proofs.Compiling.Checks
import CandidateSearch.Proofs.Search.Derivation

namespace CandidateSearch.Search

open Plan (ChecksFollow)

/-! ### Operations that hold -/

theorem runOps_cons_inv {env : Env} {op : Plan.Op} {ops : List Plan.Op} {s s' : Store}
    (h : runOps env (op :: ops) s = .ok true s') :
    ∃ s₁, runOp env op s = .ok true s₁ ∧ runOps env ops s₁ = .ok true s' := by
  rw [runOps] at h
  obtain ⟨holds, s₁, hop, hrest⟩ := Effect.exists_of_bind_eq_ok h
  cases holds with
  | false => cases hrest
  | true => exact ⟨s₁, hop, hrest⟩

theorem store_of_runOp {env : Env} {op : Plan.Op} {s s₁ : Store} {holds : Bool}
    (h : runOp env op s = .ok holds s₁) :
    s₁ = s.writeAll (Act.writes ⟨.operate env op, s⟩) := by
  rw [← after_runOp, Effect.after_of_ok h]

theorem opActs_cons_of_ok {env : Env} {op : Plan.Op} {ops : List Plan.Op} {s s₁ : Store}
    (h : runOp env op s = .ok true s₁) :
    opActs env (op :: ops) s = ⟨.operate env op, s⟩ :: opActs env ops s₁ := by
  rw [opActs, h]

/-- An assignment to a single slot writes one value. -/
theorem writes_of_assign {env : Env} {slot : Slot} {e : Plan.Expr} {s s₁ : Store} {r : Ref}
    (hr : env.ref slot = .ok r) (h : runOp env (.assign (.single slot) e) s = .ok true s₁) :
    ∃ v, Act.writes ⟨.operate env (.assign (.single slot) e), s⟩ = [(r, v)] := by
  have hbinder : env.binder (.single slot) = .ok (.single r) := by rw [Env.binder, hr]; rfl
  obtain ⟨binder, s₂, hfound, hrest⟩ := Effect.exists_of_bind_eq_ok h
  obtain ⟨-, rfl⟩ := Effect.eq_of_ofExcept_eq_ok hfound
  obtain ⟨v, s₃, hreading, -⟩ := Effect.exists_of_bind_eq_ok hrest
  obtain ⟨hv, -⟩ := Effect.eq_of_ofExcept_eq_ok hreading
  refine ⟨v, ?_⟩
  simp only [Act.writes, opWrites, hbinder, hv]
  rfl

/-- A check of a slot that holds has read the value true. -/
theorem value?_of_check {env : Env} {slot : Slot} {s s₁ : Store} {r : Ref}
    (hr : env.ref slot = .ok r) (h : runOp env (.check (.var slot)) s = .ok true s₁) :
    s.value? r = some (.bool true) := by
  have hholds : (Plan.Expr.var slot).evalBool (env.reader s) = .ok true :=
    (Effect.eq_of_ofExcept_eq_ok h).1
  have hread : env.reader s slot = s.read r := by
    simp [Env.reader, hr, bind, Except.bind]
  cases hv : s.value? r with
  | some v =>
    rw [Store.read, hv] at hread
    rw [eq_bool_of_evalBool hread hholds]
  | none =>
    rw [Store.read, hv] at hread
    simp [Plan.Expr.evalBool, Plan.Expr.eval, hread, bind, Except.bind] at hholds

/-- In a row of operations that all hold, an assignment with its check has written true. -/
theorem writes_true_of_runOps {demanded : Slot → Prop} {env : Env} {ops : List Plan.Op}
    {s s' : Store} (hchecks : ChecksFollow demanded ops) (hrun : runOps env ops s = .ok true s')
    {a : Act} (ha : a ∈ opActs env ops s) {slot : Slot} {e : Plan.Expr} {r : Ref}
    (hdoing : a.doing = .operate env (.assign (.single slot) e)) (hslot : demanded slot)
    (hr : env.ref slot = .ok r) : r < s.size ∧ a.writes = [(r, .bool true)] := by
  induction ops generalizing s with
  | nil => cases ha
  | cons op rest ih =>
    obtain ⟨s₁, hop, hrest⟩ := runOps_cons_inv hrun
    have hstore := store_of_runOp hop
    have hsize : s₁.size = s.size := by rw [hstore, Store.size_writeAll]
    rw [opActs_cons_of_ok hop] at ha
    rcases List.mem_cons.mp ha with rfl | hlater
    · cases hdoing
      obtain ⟨later, rfl⟩ := hchecks.1 slot e rfl hslot
      obtain ⟨v, hwrites⟩ := writes_of_assign hr hop
      obtain ⟨s₂, hcheck, -⟩ := runOps_cons_inv hrest
      have hvalue := value?_of_check hr hcheck
      -- the cell is there, since something was read from it
      have hlt : r < s.size := by
        rcases Nat.lt_or_ge r s.size with hlt | hge
        · exact hlt
        · rw [Store.value?_of_size_le (hsize ▸ hge)] at hvalue
          cases hvalue
      rw [hstore, hwrites] at hvalue
      change (s.write r v).value? r = _ at hvalue
      rw [Store.value?_write_self v hlt] at hvalue
      cases hvalue
      exact ⟨hlt, hwrites⟩
    · rw [← hsize]
      exact ih hchecks.2 hrest hlater

/-! ### Deeds that went on -/

theorem runOps_of_wentOn {p : Plan.Program} {d : Deed Job} {env : Env} {st : Plan.Stage}
    {after : List Activation} (h : d.WentOn (exec p)) (hjob : d.job = .stage env st after) :
    ∃ s', runOps env st.ops d.store = .ok true s' := by
  obtain ⟨outcome, s₁, hrun, hgoal⟩ := h
  rw [hjob, exec] at hrun
  obtain ⟨holds, s', hops, hrest⟩ := Effect.exists_of_bind_eq_ok hrun
  cases holds with
  | true => exact ⟨s', hops⟩
  | false =>
    cases hrest
    exact absurd rfl hgoal

/-- In the course of the deed the act assigns a plain expression to a variable alone, which
    has a constraint name in its method and is kept in the cell. -/
def Act.AssignsConstraint (p : Plan.Program) (d : Deed Job) (r : Ref) (a : Act) : Prop :=
  ∃ env st after slot e, d.job = .stage env st after ∧
    a.doing = .operate env (.assign (.single slot) e) ∧ env.ref slot = .ok r ∧
    ∃ m ∈ p.modules, ∃ method ∈ m.methods, st ∈ method.stages ∧ m.NamesConstraint method slot

/-- What is done in the course of a deed. -/
def Deed.acts (d : Deed Job) : List Act := d.job.acts d.store

theorem Deed.WentOn.writes_true {p : Plan.Program} {d : Deed Job} (h : d.WentOn (exec p))
    (hp : ∀ m ∈ p.modules, ∀ method ∈ m.methods, ∀ st ∈ method.stages,
      ChecksFollow (m.NamesConstraint method) st.ops)
    {a : Act} (ha : a ∈ d.acts) {r : Ref} (hassigns : a.AssignsConstraint p d r) :
    r < d.store.size ∧ a.writes = [(r, .bool true)] := by
  obtain ⟨env, st, after, slot, e, hjob, hdoing, hr, m, hm, method, hmethod, hst, hslot⟩ := hassigns
  obtain ⟨s', hrun⟩ := runOps_of_wentOn h hjob
  rw [Deed.acts, hjob] at ha
  exact writes_true_of_runOps (hp m hm method hmethod st hst) hrun ha hdoing hslot hr

/-- What was written last stays, unless it is written over. -/
theorem Replays.value?_after_act {p : Plan.Program} {s s' : Store} {before after : List (Deed Job)}
    {d : Deed Job} (h : Replays (exec p) s (before ++ d :: after) s') {first rest : List Act}
    {a : Act} (hacts : d.acts = first ++ a :: rest) {r : Ref} {v : Value}
    (hr : r < d.store.size) (ha : a.writes = [(r, v)]) :
    s'.value? r =
      some ((Store.lastOf r (rest.flatMap Act.writes ++ writesOfAll after)).getD v) := by
  obtain ⟨s₁, -, hlater⟩ := replays_append.mp h
  obtain rfl : d.store = s₁ := hlater.1
  have hwrites : writesOfAll (d :: after) = first.flatMap Act.writes ++
      ([(r, v)] ++ (rest.flatMap Act.writes ++ writesOfAll after)) := by
    have hd : d.writes = (first ++ a :: rest).flatMap Act.writes := by rw [← hacts]; rfl
    rw [writesOfAll, List.flatMap_cons, hd]
    simp [ha, writesOfAll]
  have hone : Store.lastOf r [(r, v)] = some v := by simp [Store.lastOf]
  rw [hlater.value? hr, hwrites, Store.lastOf_append, Store.lastOf_append, hone]
  cases Store.lastOf r (rest.flatMap Act.writes ++ writesOfAll after) <;> rfl

/-- **A constraint that is assigned on the way to a solution is true.**  Every solution that
    a stream of a compiled program gives is read off at a success of the run.  Wherever on
    the way to it a plain expression has been assigned to a variable alone that has a
    constraint name, it was the value true that has been bound, and the variable holds it at
    the success, unless something that was done later has bound it again. -/
theorem assigned_constraints_are_true {options : Options} {source : String} {compiled : Compiled}
    (hcompile : (compile options source).result = .ok compiled) {b : Bindings}
    {limit : Option Nat} {stream : Stream}
    (hstart : Stream.start compiled.program b limit = .ok stream) :
    (∀ later fuel solution, stream.Reaches later → (later.pull fuel).1 = .solution solution →
        ∃ x, stream.Solves solution x) ∧
      ∀ solution x, stream.Solves solution x → x.path.Sublist x.deeds ∧
        ∀ d ∈ x.path, ∀ before after, x.deeds = before ++ d :: after →
          ∀ first a rest, d.acts = first ++ a :: rest →
            ∀ r, a.AssignsConstraint compiled.program d r →
              a.writes = [(r, .bool true)] ∧
              x.machine.store.value? r = some ((Store.lastOf r
                (rest.flatMap Act.writes ++ writesOfAll after)).getD (.bool true)) := by
  obtain ⟨hprogram, -⟩ := Stream.opens_of_start hstart
  refine ⟨fun later fuel solution hreaches hpull => Stream.solves_of_pull hreaches hpull, ?_⟩
  intro solution x hsolves
  have hrecorded := hsolves.visits.recorded
  rw [hprogram] at hrecorded
  refine ⟨hrecorded.path, ?_⟩
  intro d hd before after hdeeds first a rest hacts r hassigns
  have hwent := hrecorded.wentOn (by simp [hsolves.goal]) d hd
  obtain ⟨hr, hwrites⟩ := hwent.writes_true
    (fun m hm method hmethod st hst => checksFollow_of_compile hcompile hm hmethod hst)
    (by simp [hacts]) hassigns
  have hreplays := hrecorded.replays
  rw [hdeeds] at hreplays
  exact ⟨hwrites, hreplays.value?_after_act hacts hr hwrites⟩

/-! ### A constraint that fails once -/

def fitsSource : String :=
  "main({}, {Fits_constraint: bool})
method
  X = select([false, true]);
  Fits_constraint = X;
end method;
end module;
"

/-- The first operation of the stage assigns something to the first field. -/
def assignsFirst (st : Plan.Stage) : Bool :=
  match st.ops with
  | .assign (.single (.outer 0)) _ :: _ => true
  | _ => false

/-- The cell of the first field, if the job starts with an assignment to it. -/
def Job.firstAssigned? : Job → Option Ref
  | .stage ⟨r :: _, _⟩ st _ => if assignsFirst st then some r else none
  | _ => none

/-- Where a stage starts with an assignment to the first field, this has a constraint name. -/
def demandsFirst (p : Plan.Program) : Bool :=
  p.modules.all fun m => m.methods.all fun method => method.stages.all fun st =>
    !assignsFirst st || m.fields.head?.any fun field => Syntax.isConstraintName field.name

theorem assignsConstraint_of_firstAssigned? {p : Plan.Program} {d : Deed Job} {r : Ref}
    (hdemands : demandsFirst p = true) (hrange : d.job.InRange p)
    (h : d.job.firstAssigned? = some r) :
    ∃ a rest, d.acts = a :: rest ∧ a.AssignsConstraint p d r := by
  obtain ⟨job, store⟩ := d
  dsimp only at hrange h
  unfold Job.firstAssigned? at h
  split at h
  · rename_i cell fields locals st after
    split at h
    · rename_i hfirst
      cases h
      obtain ⟨rest, outer, -, ⟨m, hm, method, hmethod, -, hstages⟩, -⟩ := hrange
      have hst : st ∈ method.stages := hstages.subset List.mem_cons_self
      have hnamed : m.fields.head?.any (fun field => Syntax.isConstraintName field.name) = true := by
        have hstage := List.all_eq_true.mp (List.all_eq_true.mp (List.all_eq_true.mp hdemands m hm)
          method hmethod) st hst
        simpa [hfirst] using hstage
      obtain ⟨field, hfield, hconstraint⟩ := (Option.any_eq_true _ _).mp hnamed
      unfold assignsFirst at hfirst
      split at hfirst
      · rename_i e ops hops
        have hacts : ∃ later, opActs ⟨r :: fields, locals⟩ st.ops store =
            ⟨.operate ⟨r :: fields, locals⟩ (.assign (.single (.outer 0)) e), store⟩ :: later := by
          rw [hops]
          exact ⟨_, rfl⟩
        obtain ⟨later, hacts⟩ := hacts
        refine ⟨_, later, hacts, _, _, _, _, e, rfl, rfl, rfl, m, hm, method, hmethod, hst,
          field.name, ?_, hconstraint⟩
        rw [Plan.Module.nameOf, ← List.head?_eq_getElem?, hfield]
        rfl
      · cases hfirst
    · cases h
  · cases h

theorem Stream.Visits.assignsConstraint {compiled : Compiled} {options : Options}
    {source : String} (hcompile : (compile options source).result = .ok compiled) {b : Bindings}
    {limit : Option Nat} {stream : Stream}
    (hstart : Stream.start compiled.program b limit = .ok stream) {x : Situation Job}
    (hvisits : stream.Visits x) (hdemands : demandsFirst stream.program = true) {d : Deed Job}
    (hd : d ∈ x.path) {r : Ref} (hfirst : d.job.firstAssigned? = some r) :
    ∃ a rest, d.acts = a :: rest ∧ a.AssignsConstraint compiled.program d r := by
  rw [(Stream.opens_of_start hstart).1] at hdemands
  refine assignsConstraint_of_firstAssigned? hdemands ?_ hfirst
  exact hvisits.deeds_inRange (wellFormed_of_compile hcompile) (start_inRange hstart) d
    (hvisits.recorded.path.subset hd)

-- the first round of the generator is given up at the check
set_option maxRecDepth 100000 in
theorem assigned_constraints_are_true_fitsSource :
    ∃ compiled stream solution x, (compile {} fitsSource).result = .ok compiled ∧
      Stream.start compiled.program {} none = .ok stream ∧ stream.Solves solution x ∧
      ∃ d ∈ x.path, ∃ a rest r, d.acts = a :: rest ∧ a.AssignsConstraint compiled.program d r ∧
        a.writes = [(r, .bool true)] := by
  have hvisited : (visited? 7 fitsSource).any (fun (stream, x) => x.isSuccess &&
      demandsFirst stream.program && x.path.any fun d => d.job.firstAssigned?.isSome) = true := by
    rw [visited?, compile, Library.load, Library.State.load, Source.Document.ofText,
      show fitsSource.toList = _ from String.toList_ofList]
    decide +kernel
  obtain ⟨compiled, stream, x, hcompile, hstart, hvisits, hcheck⟩ := visits_of_visited? hvisited
  simp only [Bool.and_eq_true, List.any_eq_true, Option.isSome_iff_exists] at hcheck
  obtain ⟨⟨hsuccess, hdemands⟩, d, hd, r, hfirst⟩ := hcheck
  have hsolves : stream.Solves (stream.snapshot x.machine.store) x :=
    ⟨hvisits, Situation.goal_of_isSuccess hsuccess, rfl⟩
  obtain ⟨a, rest, hacts, hconstraint⟩ :=
    hvisits.assignsConstraint hcompile hstart hdemands hd hfirst
  obtain ⟨hpath, htrue⟩ := (assigned_constraints_are_true hcompile hstart).2 _ x hsolves
  obtain ⟨before, after, hsplit⟩ := List.append_of_mem (hpath.subset hd)
  exact ⟨compiled, stream, _, x, hcompile, hstart, hsolves, d, hd, a, rest, r, hacts, hconstraint,
    (htrue d hd before after hsplit [] a rest hacts r hconstraint).1⟩

/-! ### A constraint that is written over -/

/-- The called module has the constraint for its output.  Its first method binds it to
    false and fails, and its second one does not mention it. -/
def overwrittenSource : String :=
  "f(g,{},{Aconstraint:b})
method Aconstraint=true; call(g,{true},{Aconstraint}); end method; end module;
g({P:b},{X:b}) method X=false; test(X); end method; method test(P); end method; end module;"

def holdsFalse (s : Store) (r : Ref) : Bool :=
  match s.value? r with
  | some (.bool false) => true
  | _ => false

theorem value?_of_holdsFalse {s : Store} {r : Ref} (h : holdsFalse s r = true) :
    s.value? r = some (.bool false) := by
  unfold holdsFalse at h
  split at h
  · assumption
  · cases h

set_option maxRecDepth 100000 in
/-- A constraint that was assigned on the way to a solution, and was true then, can be false
    at the solution. -/
theorem overwritten_constraint_is_false :
    ∃ compiled stream solution x, (compile {} overwrittenSource).result = .ok compiled ∧
      Stream.start compiled.program {} none = .ok stream ∧ stream.Solves solution x ∧
      ∃ d ∈ x.path, ∃ a rest r, d.acts = a :: rest ∧ a.AssignsConstraint compiled.program d r ∧
        x.machine.store.value? r = some (.bool false) := by
  have hvisited : (visited? 8 overwrittenSource).any (fun (stream, x) => x.isSuccess &&
      demandsFirst stream.program &&
        x.path.any fun d => d.job.firstAssigned?.any (holdsFalse x.machine.store)) = true := by
    rw [visited?, compile, Library.load, Library.State.load, Source.Document.ofText,
      show overwrittenSource.toList = _ from String.toList_ofList]
    decide +kernel
  obtain ⟨compiled, stream, x, hcompile, hstart, hvisits, hcheck⟩ := visits_of_visited? hvisited
  simp only [Bool.and_eq_true, List.any_eq_true, Option.any_eq_true] at hcheck
  obtain ⟨⟨hsuccess, hdemands⟩, d, hd, r, hfirst, hfalse⟩ := hcheck
  obtain ⟨a, rest, hacts, hconstraint⟩ :=
    hvisits.assignsConstraint hcompile hstart hdemands hd hfirst
  exact ⟨compiled, stream, _, x, hcompile, hstart,
    ⟨hvisits, Situation.goal_of_isSuccess hsuccess, rfl⟩, d, hd, a, rest, r, hacts, hconstraint,
    value?_of_holdsFalse hfalse⟩

end CandidateSearch.Search
