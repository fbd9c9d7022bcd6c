/-
  CandidateSearch/Proofs/Search/Footprint.lean
  ============================================
  **What a statement reads and writes is all that matters to it.**

  Scheduling moves statements about and looks at nothing but the variables that they read
  and write.  That is sound only if the stage of a statement depends on no other variable
  and binds no other one:

      Y = X + 1;      in two stores with the same X:  the same Y, or the same fault

  Two stores with the same cells are run side by side (`Lockstep`).  As long as they agree
  on what is read, each step has the same result in both and makes the same writes.  A
  constraint is read right after it has been written, so it is the same in both by then.
-/
import CandidateSearch.Proofs.Declarative.Planning
import CandidateSearch.Proofs.Search.Outcomes

namespace CandidateSearch

open Relation (ReflTransGen)

/-! ### Two stores -/

namespace Store

variable {s t : Store} {r : Ref}

/-- Both stores have the same cells, whatever is in them. -/
structure Alike (s t : Store) : Prop where
  size : t.size = s.size
  names : ∀ r, t.name r = s.name r

theorem read_congr (h : Alike s t) (hvalue : t.value? r = s.value? r) : t.read r = s.read r := by
  unfold read
  rw [hvalue, h.names r]

theorem name_write (s : Store) (q r : Ref) (v : Value) : (s.write q v).name r = s.name r := by
  unfold name
  by_cases hr : r = q
  · subst hr
    by_cases hlt : r < s.size
    · rw [cell_write_self v hlt]
    · have hout : ¬ r < s.cells.size := hlt
      simp [write, cell, hout]
  · rw [cell_write_of_ne s v hr]

theorem cell_writeAll_of_notMem {writes : List (Ref × Value)} (h : ∀ w ∈ writes, w.1 ≠ r) :
    (s.writeAll writes).cell r = s.cell r := by
  induction writes generalizing s with
  | nil => rfl
  | cons w rest ih =>
    obtain ⟨hfirst, hrest⟩ := List.forall_mem_cons.mp h
    rw [writeAll, ih hrest, cell_write_of_ne s w.2 (Ne.symm hfirst)]

/-- A cell that has just been written is the same in both, be it there or not. -/
theorem read_write_congr (h : Alike s t) (v : Value) :
    (t.write r v).read r = (s.write r v).read r := by
  have hcell : (t.write r v).value? r = (s.write r v).value? r := by
    by_cases hlt : r < s.size
    · rw [value?_write_self v hlt, value?_write_self v (by rw [h.size]; exact hlt)]
    · have hs : ¬ r < s.cells.size := hlt
      have ht : ¬ r < t.cells.size := fun hr => hlt (h.size ▸ hr)
      simp [write, value?, cell, hs, ht]
  unfold read
  rw [hcell, name_write, name_write, h.names]

end Store

/-! ### Side by side -/

namespace Effect

variable {α β : Type} {s t : Store} {x : Effect α} {f : α → Effect β}
  {P : Except Fault α → List (Ref × Value) → Prop} {Q : Except Fault β → List (Ref × Value) → Prop}

/-- In both stores the effect has the same result and makes the same writes, and these
    satisfy `P`. -/
def Lockstep (P : Except Fault α → List (Ref × Value) → Prop) (x : Effect α) (s t : Store) : Prop :=
  ∃ result writes, x s = ofExcept result (s.writeAll writes) ∧
    x t = ofExcept result (t.writeAll writes) ∧ P result writes

theorem Lockstep.mono {P' : Except Fault α → List (Ref × Value) → Prop} (h : Lockstep P x s t)
    (himp : ∀ result writes, P result writes → P' result writes) : Lockstep P' x s t := by
  obtain ⟨result, writes, hs, ht, hP⟩ := h
  exact ⟨result, writes, hs, ht, himp _ _ hP⟩

theorem lockstep_pure {a : α} (h : P (.ok a) []) : Lockstep P (pure a) s t :=
  ⟨.ok a, [], rfl, rfl, h⟩

theorem Lockstep.bind (hx : Lockstep P x s t)
    (hok : ∀ a writes, P (.ok a) writes →
      Lockstep (fun result more => Q result (writes ++ more)) (f a) (s.writeAll writes)
        (t.writeAll writes))
    (herror : ∀ fault writes, P (.error fault) writes → Q (.error fault) writes) :
    Lockstep Q (x >>= f) s t := by
  obtain ⟨result, writes, hs, ht, hP⟩ := hx
  cases result with
  | error fault =>
    exact ⟨.error fault, writes, bind_of_error hs, bind_of_error ht, herror fault writes hP⟩
  | ok a =>
    obtain ⟨result, more, hs', ht', hQ⟩ := hok a writes hP
    refine ⟨result, writes ++ more, ?_, ?_, hQ⟩
    · rw [bind_of_ok hs, hs', Store.writeAll_append]
    · rw [bind_of_ok ht, ht', Store.writeAll_append]

/-- A step in front that only looks something up. -/
theorem lockstep_ofExcept_bind {result : Except Fault α}
    (hok : ∀ a, result = .ok a → Lockstep Q (f a) s t) (herror : ∀ fault, Q (.error fault) []) :
    Lockstep Q (ofExcept result >>= f) s t := by
  cases result with
  | error fault => exact ⟨.error fault, [], rfl, rfl, herror fault⟩
  | ok a => exact hok a rfl

end Effect

namespace Search

open Effect
open Plan (Expr Op Yields)

variable {env : Env} {s t : Store} {following : List Activation} {vars : List Resolved.Var}

/-- Both stores have the same for these slots. -/
def Env.Agree (env : Env) (slots : List Slot) (s t : Store) : Prop :=
  ∀ slot ∈ slots, env.reader t slot = env.reader s slot

theorem lockstep_reading {α : Type} {P : Except Fault α → List (Ref × Value) → Prop}
    {g : Plan.Reader → Except Fault α} (h : g (env.reader t) = g (env.reader s))
    (hP : P (g (env.reader s)) []) : Lockstep P (env.reading g) s t := by
  refine ⟨g (env.reader s), [], rfl, ?_, hP⟩
  show ofExcept (g (env.reader t)) t = _
  rw [h]
  rfl

theorem lockstep_reading_bind {α β : Type} {f : α → Effect β}
    {Q : Except Fault β → List (Ref × Value) → Prop}
    {g : Plan.Reader → Except Fault α} (h : g (env.reader t) = g (env.reader s))
    (hok : ∀ a, g (env.reader s) = .ok a → Lockstep Q (f a) s t)
    (herror : ∀ fault, Q (.error fault) []) : Lockstep Q (env.reading g >>= f) s t := by
  refine (lockstep_reading (P := fun result writes => result = g (env.reader s) ∧ writes = []) h
    ⟨rfl, rfl⟩).bind ?_ ?_
  · rintro a writes ⟨ha, rfl⟩
    exact hok a ha.symm
  · rintro fault writes ⟨-, rfl⟩
    exact herror fault

/-! ### What is bound -/

/-- The writes bind the variables, one after the other. -/
def Env.Binds (env : Env) (vars : List Resolved.Var) (writes : List (Ref × Value)) : Prop :=
  writes.map (fun w => some w.1) = vars.map fun v => env.ref? v.slot

theorem Env.Binds.exists_var {writes : List (Ref × Value)} (h : env.Binds vars writes) :
    ∀ w ∈ writes, ∃ v ∈ vars, env.ref? v.slot = some w.1 := by
  intro w hw
  have hmem : some w.1 ∈ vars.map fun v => env.ref? v.slot := by
    rw [← h]
    exact List.mem_map_of_mem hw
  exact List.mem_map.mp hmem

theorem ref?_of_ref {slot : Slot} {r : Ref} (h : env.ref slot = .ok r) :
    env.ref? slot = some r := by
  unfold Env.ref at h
  split at h
  · rename_i found hfound
    cases h
    exact hfound
  · cases h

theorem map_some_refs {slots : List Slot} {rs : List Ref} (h : env.refs slots = .ok rs) :
    rs.map some = slots.map env.ref? := by
  induction slots generalizing rs with
  | nil =>
    cases h
    rfl
  | cons slot rest ih =>
    simp only [Env.refs, bind_eq_ok, pure_eq_ok] at h
    obtain ⟨r, hr, others, hothers, rfl⟩ := h
    rw [List.map_cons, List.map_cons, ih hothers, ref?_of_ref hr]

theorem map_some_binder {target : Resolved.Target} {binder : Binder}
    (h : env.binder (.ofResolved target) = .ok binder) :
    binder.refs.map some = target.vars.map fun v => env.ref? v.slot := by
  cases target with
  | single v =>
    obtain ⟨r, hr, rfl⟩ := map_eq_ok.mp h
    simp [Binder.refs, Resolved.Target.vars, ref?_of_ref hr]
  | destructure vs =>
    obtain ⟨rs, hrs, rfl⟩ := map_eq_ok.mp h
    rw [Binder.refs, map_some_refs hrs, List.map_map]
    rfl

theorem map_fst_writes {binder : Binder} {v : Value} {writes : List (Ref × Value)}
    (h : binder.writes v = .ok writes) : writes.map (·.1) = binder.refs := by
  cases binder with
  | single r =>
    cases h
    rfl
  | destructure rs =>
    cases v with
    | vector items =>
      simp only [Binder.writes] at h
      split at h
      · rename_i hlength
        cases h
        exact List.map_fst_zip hlength.ge
      · cases h
    | _ => cases h

theorem binds_of_map_fst {refs : List Ref} {writes : List (Ref × Value)}
    (hwrites : writes.map (·.1) = refs)
    (hrefs : refs.map some = vars.map fun v => env.ref? v.slot) : env.Binds vars writes := by
  rw [Env.Binds, ← hrefs, ← hwrites, List.map_map]
  rfl

/-! ### Operations -/

/-- Nothing is written, or all the variables are, and all of them if the operations hold. -/
def Env.Assigns (env : Env) (vars : List Resolved.Var) (result : Except Fault Bool)
    (writes : List (Ref × Value)) : Prop :=
  (writes = [] ∨ env.Binds vars writes) ∧ (result = .ok true → env.Binds vars writes)

theorem lockstep_bind {target : Resolved.Target} {binder : Binder}
    (hbinder : env.binder (.ofResolved target) = .ok binder) (v : Value) :
    Lockstep (env.Assigns target.vars) (binder.bind v >>= fun _ => pure true) s t := by
  cases hwrites : binder.writes v with
  | error fault =>
    refine ⟨.error fault, [], ?_, ?_, Or.inl rfl, nofun⟩ <;>
      · unfold Binder.bind
        rw [hwrites]
        rfl
  | ok writes =>
    have hbinds : env.Binds target.vars writes :=
      binds_of_map_fst (map_fst_writes hwrites) (map_some_binder hbinder)
    refine ⟨.ok true, writes, ?_, ?_, Or.inr hbinds, fun _ => hbinds⟩ <;>
      · unfold Binder.bind
        rw [hwrites]
        rfl

theorem assigns_error (fault : Fault) : env.Assigns vars (.error fault) [] :=
  ⟨Or.inl rfl, nofun⟩

theorem lockstep_assign {target : Resolved.Target} {q : Expr} (h : env.Agree q.slots s t) :
    Lockstep (env.Assigns target.vars) (runOp env (.assign (.ofResolved target) q)) s t := by
  have hvalue : q.evalValue (env.reader t) = q.evalValue (env.reader s) := by
    rw [Expr.evalValue, Expr.evalValue, q.eval_congr h]
  refine lockstep_ofExcept_bind (fun binder hbinder => ?_) assigns_error
  exact lockstep_reading_bind hvalue (fun v _ => lockstep_bind hbinder v) assigns_error

theorem lockstep_cases {target : Resolved.Target} {arms : List (Expr × Expr)}
    (h : env.Agree (arms.flatMap fun arm => arm.1.slots ++ arm.2.slots) s t) :
    Lockstep (env.Assigns target.vars) (runOp env (.cases (.ofResolved target) arms)) s t := by
  refine lockstep_reading_bind (Plan.firstMatch_congr h) (fun found _ => ?_) assigns_error
  cases found with
  | none => exact lockstep_pure ⟨Or.inl rfl, nofun⟩
  | some v =>
    exact lockstep_ofExcept_bind (fun binder hbinder => lockstep_bind hbinder v) assigns_error

theorem lockstep_check {q : Expr} (h : env.Agree q.slots s t) :
    Lockstep (env.Assigns []) (runOp env (.check q)) s t := by
  have hbool : q.evalBool (env.reader t) = q.evalBool (env.reader s) := by
    rw [Expr.evalBool, Expr.evalBool, q.eval_congr h]
  exact lockstep_reading (g := q.evalBool) hbool ⟨Or.inl rfl, fun _ => rfl⟩

theorem lockstep_runOps_single {op : Op} (h : Lockstep (env.Assigns vars) (runOp env op) s t) :
    Lockstep (env.Assigns vars) (runOps env [op]) s t := by
  refine h.bind (fun holds writes hwrites => ?_) fun _ _ h => h
  cases holds <;> exact lockstep_pure (by simpa using hwrites)

/-- An assignment to a constraint and the check behind it, which reads what has just been
    written. -/
theorem lockstep_constraint {v : Resolved.Var} {q : Expr} (halike : Store.Alike s t)
    (h : env.Agree q.slots s t) :
    Lockstep (env.Assigns (Resolved.Target.single v).vars)
      (runOps env [.assign (.ofResolved (.single v)) q, .check (.var v.slot)]) s t := by
  refine (lockstep_assign h).bind (fun holds writes hwrites => ?_)
    fun _ _ h => h
  cases holds with
  | false => exact lockstep_pure (by simpa using hwrites)
  | true =>
    have hbinds := hwrites.2 rfl
    have hagree : env.Agree (Expr.var v.slot).slots (s.writeAll writes) (t.writeAll writes) := by
      intro slot hslot
      obtain rfl : slot = v.slot := List.mem_singleton.mp hslot
      obtain ⟨w, rfl, hw⟩ := List.map_eq_singleton_iff.mp hbinds
      have href : env.ref v.slot = .ok w.1 := by
        have hw : some w.1 = env.ref? v.slot := hw
        unfold Env.ref
        rw [← hw]
      simp only [Env.reader, href]
      exact Store.read_write_congr halike w.2
    refine (lockstep_runOps_single (lockstep_check hagree)).mono fun result more hmore => ?_
    obtain rfl : more = [] := by
      rcases hmore.1 with hnone | hnone
      · exact hnone
      · exact List.map_eq_nil_iff.mp hnone
    rw [List.append_nil]
    exact ⟨Or.inr hbinds, fun _ => hbinds⟩

/-! ### Generators -/

/-- The generators that are left of a generator, one candidate after the other. -/
def Generator.Leaves : Generator → Generator → Prop :=
  ReflTransGen fun g left => g.next? = some left

/-- Whatever store it is in, each candidate of the generator is bound to the variables, all of
    them or none, and leaves the same. -/
def Generator.BindsTo (env : Env) (vars : List Resolved.Var) (g : Generator) : Prop :=
  ∀ left, g.Leaves left → ∀ s t, Lockstep
    (fun _ writes => writes = [] ∨ env.Binds vars writes) left.advance s t

theorem map_fst_generator {g : Generator} {writes : List (Ref × Value)}
    (h : g.writes = .ok writes) : writes.map (·.1) = g.refs := by
  cases g with
  | range r =>
    simp only [Generator.writes, bind_eq_ok, pure_eq_ok] at h
    obtain ⟨v, -, rfl⟩ := h
    rfl
  | member m => exact map_fst_writes h

theorem advance_eq (g : Generator) (s : Store) :
    g.advance s = ofExcept (g.writes.map fun _ => g.next?)
      (s.writeAll (g.writes.toOption.getD [])) := by
  cases g with
  | range r =>
    simp only [Generator.advance, Generator.bind, Generator.writes]
    cases Value.ofDecimal? r.current <;> rfl
  | member m =>
    simp only [Generator.advance, Generator.bind, Generator.writes, Binder.bind]
    cases m.target.writes m.item <;> rfl

theorem bindsTo_of_refs {g : Generator}
    (h : g.refs.map some = vars.map fun v => env.ref? v.slot) : g.BindsTo env vars := by
  intro left hleft s t
  have hrefs : left.refs = g.refs := by
    induction hleft with
    | refl => rfl
    | tail _ hnext ih => rw [refs_next? _ hnext, ih]
  refine ⟨_, _, advance_eq left s, advance_eq left t, ?_⟩
  cases hwrites : left.writes with
  | error fault => exact Or.inl rfl
  | ok writes => exact Or.inr (binds_of_map_fst ((map_fst_generator hwrites).trans hrefs) h)

/-! ### Stages -/

/-- What comes of running a stage for a statement that binds the variables. -/
structure Env.Confines (env : Env) (vars : List Resolved.Var) (following : List Activation)
    (result : Except Fault (Outcome Job)) (writes : List (Ref × Value)) : Prop where
  allOrNone : writes = [] ∨ env.Binds vars writes
  goesOn : result = .ok { goal := proceed following } → env.Binds vars writes
  draws : ∀ g after, result = .ok { goal := .run (.generate g after) } → g.BindsTo env vars

theorem proceed_ne_failure (following : List Activation) : proceed following ≠ .failure := by
  fun_induction proceed following <;> simp_all

theorem proceed_ne_generate (following : List Activation) (g : Generator)
    (after : List Activation) : proceed following ≠ .run (.generate g after) := by
  fun_induction proceed following <;> simp_all

theorem confines_error (fault : Fault) : env.Confines vars following (.error fault) [] :=
  ⟨Or.inl rfl, nofun, nofun⟩

theorem lockstep_exec_ops {p : Plan.Program} {ops : List Op}
    (h : Lockstep (env.Assigns vars) (runOps env ops) s t) :
    Lockstep (env.Confines vars following)
      (exec p (.stage env ⟨ops, .proceed⟩ following)) s t := by
  refine h.bind (fun holds writes hwrites => ?_) fun fault writes hwrites =>
    ⟨hwrites.1, nofun, nofun⟩
  cases holds with
  | true =>
    refine lockstep_pure ?_
    rw [List.append_nil]
    refine ⟨hwrites.1, fun _ => hwrites.2 rfl, fun g after h => ?_⟩
    exact absurd (congrArg Outcome.goal (Except.ok.inj h)) (proceed_ne_generate following g after)
  | false =>
    refine lockstep_pure ?_
    rw [List.append_nil]
    refine ⟨hwrites.1, fun h => ?_, nofun⟩
    exact absurd (congrArg Outcome.goal (Except.ok.inj h)).symm (proceed_ne_failure following)

theorem confines_startGenerator {generator : Option Generator}
    (h : ∀ g ∈ generator, g.refs.map some = vars.map fun v => env.ref? v.slot) :
    env.Confines vars following (.ok { goal := startGenerator generator following }) [] := by
  cases generator with
  | none =>
    refine ⟨Or.inl rfl, fun h => ?_, nofun⟩
    exact absurd (congrArg Outcome.goal (Except.ok.inj h)).symm (proceed_ne_failure following)
  | some g =>
    refine ⟨Or.inl rfl, fun h => ?_, fun g' after h => ?_⟩
    · exact absurd (congrArg Outcome.goal (Except.ok.inj h)).symm
        (proceed_ne_generate following g following)
    · cases h
      exact bindsTo_of_refs (h g rfl)

/-- A transfer changes nothing, and starts a generator for the variables or fails. -/
def Env.Starts (env : Env) (vars : List Resolved.Var) (following : List Activation)
    (result : Except Fault (Goal Job)) (writes : List (Ref × Value)) : Prop :=
  writes = [] ∧ ∀ goal, result = .ok goal → ∃ generator,
    goal = startGenerator generator following ∧
      ∀ g ∈ generator, g.refs.map some = vars.map fun v => env.ref? v.slot

theorem starts_error (fault : Fault) : env.Starts vars following (.error fault) [] :=
  ⟨rfl, nofun⟩

theorem lockstep_range {p : Plan.Program} {v : Resolved.Var} {first last step : Expr}
    (hfirst : env.Agree first.slots s t) (hlast : env.Agree last.slots s t)
    (hstep : env.Agree step.slots s t) :
    Lockstep (env.Starts [v] following)
      (transfer p env following (.range v.slot first last step)) s t := by
  have hnumber : ∀ {q : Expr}, env.Agree q.slots s t →
      q.evalNumber (env.reader t) = q.evalNumber (env.reader s) := fun {q} h => by
    rw [Expr.evalNumber, Expr.evalNumber, q.eval_congr h]
  refine lockstep_ofExcept_bind (fun r hr => ?_) starts_error
  refine lockstep_reading_bind (hnumber hfirst) (fun a _ => ?_) starts_error
  refine lockstep_reading_bind (hnumber hlast) (fun b _ => ?_) starts_error
  refine lockstep_reading_bind (hnumber hstep) (fun c _ => ?_) starts_error
  refine lockstep_ofExcept_bind (fun range hrange => lockstep_pure ⟨rfl, ?_⟩) starts_error
  intro goal hgoal
  cases hgoal
  refine ⟨_, rfl, fun g hg => ?_⟩
  obtain ⟨started, rfl, rfl⟩ := Option.map_eq_some_iff.mp hg
  unfold Range.start? at hrange
  split at hrange
  · cases hrange
  · split at hrange
    · cases hrange
      simp [Generator.refs, ref?_of_ref hr]
    · cases hrange

theorem lockstep_member {p : Plan.Program} {target : Resolved.Target} {list : Expr}
    (h : env.Agree list.slots s t) :
    Lockstep (env.Starts target.vars following)
      (transfer p env following (.member (.ofResolved target) list)) s t := by
  have hvalue : list.evalValue (env.reader t) = list.evalValue (env.reader s) := by
    rw [Expr.evalValue, Expr.evalValue, list.eval_congr h]
  refine lockstep_reading_bind hvalue (fun v _ => ?_) starts_error
  refine lockstep_ofExcept_bind (fun items _ => ?_) starts_error
  refine lockstep_ofExcept_bind (fun binder hbinder => lockstep_pure ⟨rfl, ?_⟩) starts_error
  intro goal hgoal
  cases hgoal
  refine ⟨_, rfl, fun g hg => ?_⟩
  obtain ⟨started, hstarted, rfl⟩ := Option.map_eq_some_iff.mp hg
  cases items with
  | nil => cases hstarted
  | cons item rest =>
    cases hstarted
    exact map_some_binder hbinder

theorem lockstep_exec_transfer {p : Plan.Program} {transferring : Plan.Transfer}
    (h : Lockstep (env.Starts vars following) (transfer p env following transferring) s t) :
    Lockstep (env.Confines vars following)
      (exec p (.stage env ⟨[], transferring⟩ following)) s t := by
  show Lockstep _
    (transfer p env following transferring >>= fun goal => pure (Outcome.mk [] goal)) s t
  refine h.bind (fun goal writes hstarts => ?_) fun fault writes hstarts => ?_
  · obtain ⟨rfl, hgoal⟩ := hstarts
    obtain ⟨generator, rfl, hrefs⟩ := hgoal goal rfl
    exact lockstep_pure (confines_startGenerator hrefs)
  · obtain ⟨rfl, -⟩ := hstarts
    exact confines_error fault

/-! ### Statements -/

theorem agree_of_vars (halike : Store.Alike s t)
    (h : ∀ v ∈ vars, ∀ r, env.ref? v.slot = some r → t.value? r = s.value? r) :
    env.Agree (vars.map (·.slot)) s t := by
  intro slot hslot
  obtain ⟨v, hv, rfl⟩ := List.mem_map.mp hslot
  unfold Env.reader Env.ref
  cases hr : env.ref? v.slot with
  | none => rfl
  | some r => exact Store.read_congr halike (h v hv r hr)

theorem slots_of_planned {span : Source.Span} {e : Resolved.Expr} {planning : Option Expr}
    (h : Yields (Plan.expr span e) planning) :
    ∃ q, planning = some q ∧ q.slots = e.reads.map (·.slot) := by
  obtain ⟨q, rfl, hq⟩ := h.planned_inv
  exact ⟨q, rfl, Plan.slots_ofResolved hq⟩

theorem slots_of_arms {span : Source.Span} {written : List (Resolved.Expr × Resolved.Expr)}
    {qs : List (Expr × Expr)} (h : Yields (Plan.arms span written) qs) :
    (qs.flatMap fun arm => arm.1.slots ++ arm.2.slots) =
      (written.flatMap fun arm => arm.1.reads ++ arm.2.reads).map (·.slot) := by
  induction written generalizing qs with
  | nil =>
    cases h.pure_inv
    rfl
  | cons arm rest ih =>
    obtain ⟨condition, value⟩ := arm
    rw [Plan.arms_cons] at h
    obtain ⟨first, hfirst, h⟩ := h.bind_inv (Plan.settled_expr _ _) fun _ =>
      (Plan.settled_armAfter _ _ _).bind fun _ => (Plan.settled_arms _ _).bind fun _ =>
        Plan.settled_pure _
    obtain ⟨arm, harm, h⟩ := h.bind_inv (Plan.settled_armAfter _ _ _) fun _ =>
      (Plan.settled_arms _ _).bind fun _ => Plan.settled_pure _
    obtain ⟨others, hothers, h⟩ := h.bind_inv (Plan.settled_arms _ _) fun _ => Plan.settled_pure _
    cases h.pure_inv
    obtain ⟨qc, rfl, hqc⟩ := slots_of_planned hfirst
    obtain ⟨second, hsecond, harm⟩ := harm.bind_inv (Plan.settled_expr _ _) fun _ =>
      Plan.settled_pure _
    obtain ⟨qv, rfl, hqv⟩ := slots_of_planned hsecond
    cases harm.pure_inv
    simp [hqc, hqv, ih hothers]

/-- The stage of a statement does the same in both stores. -/
theorem lockstep_exec {modules : List Resolved.Module} {stmt : Resolved.Stmt} {st : Plan.Stage}
    (hcall : ∀ callee inputs outputs, stmt.action ≠ .call callee inputs outputs)
    (hplan : Yields (Plan.stage modules [stmt]) st) (p : Plan.Program)
    (following : List Activation) (halike : Store.Alike s t)
    (hagree : env.Agree (stmt.reads.map (·.slot)) s t) :
    Lockstep (env.Confines stmt.writes following) (exec p (.stage env st following)) s t := by
  obtain ⟨hstmt, rfl⟩ := hplan.stage_inv
  have hitem := hstmt stmt (by simp)
  generalize hitemOf : Plan.itemOf modules stmt = item at hitem
  have hstage : Plan.stageOf ([stmt].map (Plan.itemOf modules)) =
      ⟨item.1, Plan.laterOf .proceed item.2⟩ := by
    simp [Plan.stageOf, hitemOf]
  rw [hstage]
  obtain ⟨action, span⟩ := stmt
  have hpart : ∀ {e : Resolved.Expr} {q : Expr}, q.slots = e.reads.map (·.slot) →
      (∀ v ∈ e.reads, v ∈ (Resolved.Stmt.mk action span).reads) → env.Agree q.slots s t := by
    intro e q hq hsub slot hslot
    rw [hq] at hslot
    obtain ⟨v, hv, rfl⟩ := List.mem_map.mp hslot
    exact hagree _ (List.mem_map_of_mem (hsub v hv))
  cases action with
  | assign target value =>
    obtain ⟨planned, hplanned, hitem⟩ := hitem.bind_inv (Plan.settled_expr _ _) fun _ =>
      Plan.settled_pure _
    obtain ⟨q, rfl, hq⟩ := slots_of_planned hplanned
    cases hitem.pure_inv
    have hvalue := hpart hq fun _ hv => hv
    apply lockstep_exec_ops
    show Lockstep (env.Assigns target.vars) (runOps env (_ :: Plan.constraintCheck _)) s t
    unfold Plan.constraintCheck
    split
    · rename_i v value' haction
      cases haction
      split
      · exact lockstep_constraint halike hvalue
      · exact lockstep_runOps_single (lockstep_assign hvalue)
    · exact lockstep_runOps_single (lockstep_assign hvalue)
  | cases target arms =>
    obtain ⟨qs, hqs, hitem⟩ := hitem.bind_inv (Plan.settled_arms _ _) fun _ => Plan.settled_pure _
    cases hitem.pure_inv
    apply lockstep_exec_ops
    apply lockstep_runOps_single
    apply lockstep_cases
    rw [slots_of_arms hqs]
    exact hagree
  | test condition =>
    obtain ⟨planned, hplanned, hitem⟩ := hitem.bind_inv (Plan.settled_expr _ _) fun _ =>
      Plan.settled_pure _
    obtain ⟨q, rfl, hq⟩ := slots_of_planned hplanned
    cases hitem.pure_inv
    exact lockstep_exec_ops (lockstep_runOps_single (lockstep_check (hpart hq fun _ hv => hv)))
  | guard condition =>
    obtain ⟨planned, hplanned, hitem⟩ := hitem.bind_inv (Plan.settled_expr _ _) fun _ =>
      Plan.settled_pure _
    obtain ⟨q, rfl, hq⟩ := slots_of_planned hplanned
    cases hitem.pure_inv
    exact lockstep_exec_ops (lockstep_runOps_single (lockstep_check (hpart hq fun _ hv => hv)))
  | range target first last step =>
    rw [Plan.stmt_range] at hitem
    obtain ⟨a, ha, hitem⟩ := hitem.bind_inv (Plan.settled_expr _ _) fun _ =>
      (Plan.settled_expr _ _).bind fun _ => (Plan.settled_expr _ _).bind fun _ =>
        Plan.settled_pure _
    obtain ⟨b, hb, hitem⟩ := hitem.bind_inv (Plan.settled_expr _ _) fun _ =>
      (Plan.settled_expr _ _).bind fun _ => Plan.settled_pure _
    obtain ⟨c, hc, hitem⟩ := hitem.bind_inv (Plan.settled_expr _ _) fun _ => Plan.settled_pure _
    obtain ⟨qa, rfl, hqa⟩ := slots_of_planned ha
    obtain ⟨qb, rfl, hqb⟩ := slots_of_planned hb
    obtain ⟨qc, rfl, hqc⟩ := slots_of_planned hc
    cases hitem.pure_inv
    apply lockstep_exec_transfer
    apply lockstep_range
    · exact hpart hqa fun v hv => by simp [Resolved.Stmt.reads, hv]
    · exact hpart hqb fun v hv => by simp [Resolved.Stmt.reads, hv]
    · exact hpart hqc fun v hv => by simp [Resolved.Stmt.reads, hv]
  | select target list =>
    obtain ⟨planned, hplanned, hitem⟩ := hitem.bind_inv (Plan.settled_expr _ _) fun _ =>
      Plan.settled_pure _
    obtain ⟨q, rfl, hq⟩ := slots_of_planned hplanned
    cases hitem.pure_inv
    exact lockstep_exec_transfer (lockstep_member (hpart hq fun _ hv => hv))
  | call callee inputs outputs => exact absurd rfl (hcall callee inputs outputs)
  | malformed =>
    cases hitem.pure_inv
    exact lockstep_exec_ops (lockstep_pure ⟨Or.inl rfl, fun _ => rfl⟩)

/-- **What a statement reads and writes is its footprint.**  Let a statement other than a
    call be planned by itself, and let two stores have the same cells and agree on the
    variables that the statement reads.  Then running its stage comes to the same in both:
    the same fault or the same outcome, a generator with the same candidates included, with
    the same writes.  These bind all the variables that the statement writes, or nothing;
    all of them if the run goes on, and so does each candidate of the generator.  No other
    cell is changed. -/
theorem stage_footprint {modules : List Resolved.Module} {stmt : Resolved.Stmt} {st : Plan.Stage}
    (hcall : ∀ callee inputs outputs, stmt.action ≠ .call callee inputs outputs)
    (hplan : Yields (Plan.stage modules [stmt]) st) (p : Plan.Program) (env : Env)
    (following : List Activation) {s t : Store} (halike : Store.Alike s t)
    (hreads : ∀ v ∈ stmt.reads, ∀ r, env.ref? v.slot = some r → t.value? r = s.value? r) :
    ∃ result writes,
      exec p (.stage env st following) s = Effect.ofExcept result (s.writeAll writes) ∧
      exec p (.stage env st following) t = Effect.ofExcept result (t.writeAll writes) ∧
      env.Confines stmt.writes following result writes ∧
      ∀ r, (∀ v ∈ stmt.writes, env.ref? v.slot ≠ some r) →
        (s.writeAll writes).cell r = s.cell r ∧ (t.writeAll writes).cell r = t.cell r := by
  obtain ⟨result, writes, hs, ht, hconfines⟩ :=
    lockstep_exec hcall hplan p following halike (agree_of_vars halike hreads)
  refine ⟨result, writes, hs, ht, hconfines, fun r hr => ?_⟩
  have hother : ∀ w ∈ writes, w.1 ≠ r := by
    rcases hconfines.allOrNone with rfl | hbinds
    · exact List.forall_mem_nil _
    · rintro w hw rfl
      obtain ⟨v, hv, href⟩ := hbinds.exists_var w hw
      exact hr v hv href
  exact ⟨Store.cell_writeAll_of_notMem hother, Store.cell_writeAll_of_notMem hother⟩

/-- `Fits_constraint = X < Y;` -/
def fitsAssignment : Resolved.Stmt :=
  { action := .assign (.single ⟨"Fits_constraint", .bool, .outer 0, false⟩)
      (.binary .lt (.var ⟨"X", .integer, .inner 0, false⟩)
        (.var ⟨"Y", .integer, .inner 1, false⟩)) }

/-- The cells of `Fits_constraint`, `X` and `Y`, and of a variable that does not matter. -/
def fitsStore (fits other : Option Value) : Store :=
  ⟨#[⟨"Fits_constraint", fits⟩, ⟨"X", some (.atom "a")⟩, ⟨"Y", some (.atom "b")⟩, ⟨"Z", other⟩]⟩

/-- What the constraint was before does not matter, though it is read in the end. -/
theorem stage_footprint_fitsAssignment :
    let st : Plan.Stage := ⟨[.assign (.single (.outer 0)) (.binary .lt (.var (.inner 0))
      (.var (.inner 1))), .check (.var (.outer 0))], .proceed⟩
    let env : Env := ⟨[0], [1, 2, 3]⟩
    let s := fitsStore none none
    let t := fitsStore (some (.bool false)) (some (.atom "z"))
    ((∀ callee inputs outputs, fitsAssignment.action ≠ .call callee inputs outputs) ∧
      Yields (Plan.stage [] [fitsAssignment]) st ∧ Store.Alike s t ∧
      ∀ v ∈ fitsAssignment.reads, ∀ r, env.ref? v.slot = some r → t.value? r = s.value? r) ∧
    ∃ result writes,
      exec ⟨[]⟩ (.stage env st []) s = Effect.ofExcept result (s.writeAll writes) ∧
      exec ⟨[]⟩ (.stage env st []) t = Effect.ofExcept result (t.writeAll writes) ∧
      env.Confines fitsAssignment.writes [] result writes ∧
      ∀ r, (∀ v ∈ fitsAssignment.writes, env.ref? v.slot ≠ some r) →
        (s.writeAll writes).cell r = s.cell r ∧ (t.writeAll writes).cell r = t.cell r := by
  intro st env s t
  have hcall : ∀ callee inputs outputs,
      fitsAssignment.action ≠ .call callee inputs outputs := nofun
  have hplan : Yields (Plan.stage [] [fitsAssignment]) st := rfl
  have halike : Store.Alike s t := by
    refine ⟨rfl, fun r => ?_⟩
    match r with
    | 0 | 1 | 2 | 3 => rfl
    | _ + 4 => simp [s, t, fitsStore, Store.name, Store.cell]
  have hreads : ∀ v ∈ fitsAssignment.reads, ∀ r, env.ref? v.slot = some r →
      t.value? r = s.value? r := by
    intro v hv r hr
    simp only [fitsAssignment, Resolved.Stmt.reads, Resolved.Expr.reads, List.mem_append,
      List.mem_singleton] at hv
    rcases hv with rfl | rfl <;> cases hr <;> rfl
  exact ⟨⟨hcall, hplan, halike, hreads⟩, stage_footprint hcall hplan ⟨[]⟩ env [] halike hreads⟩

end Search

end CandidateSearch
