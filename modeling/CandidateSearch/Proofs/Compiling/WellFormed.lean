/-
  CandidateSearch/Proofs/Compiling/WellFormed.lean
  ================================================
  **Compiled programs are well formed.**

  A plan has no names: a variable is the number of a field or of a local, and a call names
  its module by number.  In a well-formed program these numbers are in range, and a call
  brings as many inputs and outputs as the module it goes to has.

      f({N: integer}, {X: integer}) method Y = N; X = Y; end method; end module;

  has the fields 0 and 1, and the local 0 in its only method.

  A statement is resolved with variables of the two tables of its method, and these have
  slots in range.  Scheduling moves statements about, but brings in no other ones.  What is
  planned for a statement mentions no slot besides those of its variables, and a call is
  planned only after its inputs and outputs were counted.
-/
import CandidateSearch.Proofs.Declarative.Entry
import CandidateSearch.Proofs.Schedule.WriteBeforeRead

namespace CandidateSearch

open Source Library

/-- The slot is there in a method with so many locals, of a module with so many fields. -/
def Slot.Within (fields locals : Nat) : Slot → Prop
  | .outer i => i < fields
  | .inner i => i < locals

/-! ### Well-formed plans -/

namespace Plan

mutual

/-- The slots that an expression reads. -/
def Expr.slots : Expr → List Slot
  | .number _ | .atom _ | .bool _ => []
  | .var slot => [slot]
  | .list items | .vector items => Expr.slotsAll items
  | .unary _ e | .sqrt e | .exp e | .length e | .sum e => e.slots
  | .binary _ a b | .nth a b => a.slots ++ b.slots

def Expr.slotsAll : List Expr → List Slot
  | [] => []
  | e :: rest => e.slots ++ Expr.slotsAll rest

end

def Target.slots : Target → List Slot
  | .single slot => [slot]
  | .destructure slots => slots

def Op.slots : Op → List Slot
  | .assign target value => target.slots ++ value.slots
  | .cases target arms => target.slots ++ arms.flatMap fun arm => arm.1.slots ++ arm.2.slots
  | .check condition => condition.slots

def Transfer.slots : Transfer → List Slot
  | .proceed => []
  | .range target first last step => target :: (first.slots ++ last.slots ++ step.slots)
  | .member target list => target.slots ++ list.slots
  | .call _ inputs outputs => Expr.slotsAll inputs ++ outputs

def Stage.slots (st : Stage) : List Slot := st.ops.flatMap Op.slots ++ st.transfer.slots

/-- How many inputs and outputs a module takes. -/
def Program.arity? (p : Program) (callee : Nat) : Option (Nat × Nat) :=
  p.modules[callee]?.map fun m => (m.inputs.length, m.outputs.length)

/-- A call goes to a module that there is, with what that module takes. -/
def Transfer.Fits (arity? : Nat → Option (Nat × Nat)) : Transfer → Prop
  | .call callee inputs outputs => arity? callee = some (inputs.length, outputs.length)
  | _ => True

structure Stage.WellFormed (arity? : Nat → Option (Nat × Nat)) (fields locals : Nat)
    (st : Stage) : Prop where
  slots : ∀ slot ∈ st.slots, slot.Within fields locals
  fits : st.transfer.Fits arity?

structure Method.WellFormed (arity? : Nat → Option (Nat × Nat)) (fields : Nat)
    (m : Method) : Prop where
  guard : ∀ guard ∈ m.guard, ∀ slot ∈ guard.slots, slot.Within fields m.locals.length
  stages : ∀ st ∈ m.stages, st.WellFormed arity? fields m.locals.length

structure Module.WellFormed (arity? : Nat → Option (Nat × Nat)) (m : Module) : Prop where
  inputs : m.inputCount ≤ m.fields.length
  methods : ∀ method ∈ m.methods, method.WellFormed arity? m.fields.length

/-- All slots are in range, and all calls fit the modules they go to. -/
def Program.WellFormed (p : Program) : Prop := ∀ m ∈ p.modules, m.WellFormed p.arity?

end Plan

/-! ### The slots of resolved variables -/

namespace Resolved

/-- The variables that a statement mentions satisfy `P`. -/
def Stmt.Mentions (P : Var → Prop) (s : Stmt) : Prop := (∀ v ∈ s.reads, P v) ∧ ∀ v ∈ s.writes, P v

/-- The variables that a statement mentions have slots that satisfy `S`. -/
def Stmt.Uses (S : Slot → Prop) (s : Stmt) : Prop :=
  (∀ v ∈ s.reads, S v.slot) ∧ ∀ v ∈ s.writes, S v.slot

/-- The variables that the guard and the statements of a method mention satisfy `P`. -/
structure Method.Mentions (P : Var → Prop) (m : Method) : Prop where
  guard : ∀ guard ∈ m.guard, ∀ v ∈ guard.reads, P v
  body : ∀ s ∈ m.body, s.Mentions P

theorem Stmt.Mentions.mono {P Q : Var → Prop} {s : Stmt} (h : s.Mentions P)
    (himp : ∀ v, P v → Q v) : s.Mentions Q :=
  ⟨fun v hv => himp v (h.1 v hv), fun v hv => himp v (h.2 v hv)⟩

theorem Method.Mentions.mono {P Q : Var → Prop} {m : Method} (h : m.Mentions P)
    (himp : ∀ v, P v → Q v) : m.Mentions Q :=
  ⟨fun guard hguard v hv => himp v (h.guard guard hguard v hv),
    fun s hs => (h.body s hs).mono himp⟩

/-- The guard and the statements of a method keep to slots that are there. -/
structure Method.Within (fields : Nat) (m : Method) : Prop where
  guard : ∀ guard ∈ m.guard, ∀ v ∈ guard.reads, v.slot.Within fields m.locals.length
  body : ∀ s ∈ m.body, s.Uses (Slot.Within fields m.locals.length)

theorem within_of_mem_fieldsOf {groups : List (List Syntax.Var)} {v : Var} (locals : Nat)
    (h : v ∈ fieldsOf groups) : v.slot.Within (fieldsOf groups).length locals := by
  unfold fieldsOf at h ⊢
  dsimp only at h ⊢
  obtain ⟨i, hi, rfl⟩ := List.mem_mapIdx.mp h
  rw [List.length_mapIdx]
  exact hi

theorem within_of_mem_localsOf {vs : List Syntax.Var} {v : Var} (fields : Nat)
    (h : v ∈ localsOf vs) : v.slot.Within fields (localsOf vs).length := by
  unfold localsOf at h ⊢
  obtain ⟨i, hi, rfl⟩ := List.mem_mapIdx.mp h
  rw [List.length_mapIdx]
  exact hi

section Statements

variable {env : Env} {P : Var → Prop} (htables : ∀ k w, env.find? k = some w → P w)

include htables

theorem Found.mentioned {vs : List Syntax.Var} {ws : List Var} (h : Found env vs ws) :
    ∀ w ∈ ws, P w := by
  intro w hw
  obtain ⟨v, -, hfound⟩ := h.exists_left hw
  exact htables _ _ hfound

/-- A resolved action mentions variables of the tables only. -/
theorem mentions_of_action {s : Syntax.Stmt} {a : Action} (h : env.action s.action = .ok a)
    (span : Span) : (Stmt.mk a span).Mentions P := by
  by_cases hguard : ∃ condition, s.action = .guard condition
  · obtain ⟨condition, hguard⟩ := hguard
    simp only [hguard, Env.action, bind_eq_ok, pure_eq_ok] at h
    obtain ⟨r, hr, rfl⟩ := h
    exact ⟨Found.mentioned htables (found_reads _ _ hr), by simp [Stmt.writes]⟩
  by_cases hcall : ∃ callee inputs outputs, s.action = .call callee inputs outputs
  · obtain ⟨callee, inputs, outputs, hcall⟩ := hcall
    rw [hcall] at h
    cases inputs with
    | vector members span =>
      simp only [Env.action, bind_eq_ok, pure_eq_ok] at h
      obtain ⟨rs, hrs, t, ht, rfl⟩ := h
      exact ⟨Found.mentioned htables (found_readsMembers _ _ hrs),
        Found.mentioned htables (found_target ht)⟩
    | _ => cases h
  · have hlowers : StmtLowers env s.action a := by
      apply stmtLowers_of_action h
      · exact fun condition heq => hguard ⟨condition, heq⟩
      · exact fun callee inputs outputs heq => hcall ⟨callee, inputs, outputs, heq⟩
    exact ⟨Found.mentioned htables hlowers.found_reads,
      Found.mentioned htables hlowers.found_writes⟩

theorem mentions_of_stmt (s : Syntax.Stmt) : (env.stmt s).value.Mentions P := by
  unfold Env.stmt
  split
  · rename_i a ha
    exact mentions_of_action htables ha s.span
  · constructor <;> simp [Stmt.reads, Stmt.writes]

theorem mentions_of_guard (condition : Option Syntax.Expr) :
    ∀ guard ∈ (env.guard condition).value, ∀ v ∈ guard.reads, P v := by
  cases condition with
  | none => simp [Env.guard]
  | some condition =>
    intro guard hmem
    unfold Env.guard at hmem
    dsimp only at hmem
    split at hmem
    · rename_i r hr
      cases hmem
      exact Found.mentioned htables (found_reads _ _ hr)
    · cases hmem

end Statements

/-- All that a method mentions is found in its tables. -/
theorem mentions_methodOf (fields : List Var) (number : Nat) (m : Syntax.Method) :
    (methodOf fields number m).value.Mentions fun w =>
      ∃ k, Env.find? ⟨fields, localsOf m.locals⟩ k = some w := by
  have htables : ∀ k w, Env.find? ⟨fields, localsOf m.locals⟩ k = some w →
      ∃ k, Env.find? ⟨fields, localsOf m.locals⟩ k = some w := fun k _ hfound => ⟨k, hfound⟩
  constructor
  · exact mentions_of_guard htables m.guard
  · intro s hs
    simp only [methodOf, List.map_map, List.mem_map] at hs
    obtain ⟨written, -, rfl⟩ := hs
    exact mentions_of_stmt htables written

theorem mem_of_find? {env : Env} {k : Key} {w : Var} (h : env.find? k = some w) :
    w ∈ env.fields ∨ w ∈ env.locals := by
  have hmem := List.mem_reverse.mp (List.mem_of_find?_eq_some h)
  obtain ⟨scope, name⟩ := k
  cases scope with
  | parameter => exact Or.inl hmem
  | body => exact Or.inr hmem

theorem within_methodOf (groups : List (List Syntax.Var)) (number : Nat) (m : Syntax.Method) :
    (methodOf (fieldsOf groups) number m).value.Within (fieldsOf groups).length := by
  have hslots : ∀ w, (∃ k, Env.find? ⟨fieldsOf groups, localsOf m.locals⟩ k = some w) →
      w.slot.Within (fieldsOf groups).length (localsOf m.locals).length := by
    rintro w ⟨k, hfound⟩
    rcases mem_of_find? hfound with hfield | hlocal
    · exact within_of_mem_fieldsOf _ hfield
    · exact within_of_mem_localsOf _ hlocal
  obtain ⟨hguard, hbody⟩ := (mentions_methodOf (fieldsOf groups) number m).mono hslots
  exact ⟨hguard, hbody⟩

/-- A resolved method has been made from one of the methods that were written. -/
theorem exists_of_mem_ofSyntax {m : Syntax.Module} {method : Method}
    (h : method ∈ (ofSyntax m).value.methods) :
    ∃ number, ∃ written ∈ m.methods,
      method = (methodOf (fieldsOf m.groups) number written).value := by
  simp only [ofSyntax, List.mem_map] at h
  obtain ⟨outcome, houtcome, rfl⟩ := h
  obtain ⟨i, hi, rfl⟩ := List.mem_mapIdx.mp houtcome
  exact ⟨i + 1, _, List.getElem_mem hi, rfl⟩

/-- **Slots are in range from the start.** -/
theorem within_ofSyntax (m : Syntax.Module) :
    ∀ method ∈ (ofSyntax m).value.methods, method.Within (ofSyntax m).value.fields.length := by
  intro method hmethod
  obtain ⟨number, written, -, rfl⟩ := exists_of_mem_ofSyntax hmethod
  exact within_methodOf m.groups number written

end Resolved

/-! ### From statements to plans -/

namespace Plan

mutual

/-- A planned expression reads the slots of its variables. -/
theorem slots_ofResolved : ∀ {r : Resolved.Expr} {q : Expr}, Expr.ofResolved r = .ok q →
    q.slots = r.reads.map (·.slot)
  | .number digits, q, h => by
    unfold Expr.ofResolved at h
    split at h <;> cases h
    rfl
  | .atom _, q, h | .bool _, q, h | .var _, q, h => by
    cases h
    rfl
  | .list items, q, h | .vector items, q, h => by
    simp only [Expr.ofResolved, bind_eq_ok, pure_eq_ok] at h
    obtain ⟨qs, hqs, rfl⟩ := h
    exact slots_ofResolvedAll hqs
  | .unary _ e, q, h | .sqrt e, q, h | .exp e, q, h | .length e, q, h | .sum e, q, h => by
    simp only [Expr.ofResolved, bind_eq_ok, pure_eq_ok] at h
    obtain ⟨qe, hqe, rfl⟩ := h
    have he := slots_ofResolved hqe
    exact he
  | .binary _ a b, q, h | .nth a b, q, h => by
    simp only [Expr.ofResolved, bind_eq_ok, pure_eq_ok] at h
    obtain ⟨qa, hqa, qb, hqb, rfl⟩ := h
    simp only [Expr.slots, Resolved.Expr.reads, List.map_append, slots_ofResolved hqa,
      slots_ofResolved hqb]

theorem slots_ofResolvedAll : ∀ {rs : List Resolved.Expr} {qs : List Expr},
    Expr.ofResolvedAll rs = .ok qs →
    Expr.slotsAll qs = (Resolved.Expr.readsAll rs).map (·.slot)
  | [], qs, h => by
    cases h
    rfl
  | r :: rest, qs, h => by
    simp only [Expr.ofResolvedAll, bind_eq_ok, pure_eq_ok] at h
    obtain ⟨q, hq, qrest, hqrest, rfl⟩ := h
    simp only [Expr.slotsAll, Resolved.Expr.readsAll, List.map_append, slots_ofResolved hq,
      slots_ofResolvedAll hqrest]

end

theorem length_ofResolvedAll {rs : List Resolved.Expr} {qs : List Expr}
    (h : Expr.ofResolvedAll rs = .ok qs) : qs.length = rs.length := by
  induction rs generalizing qs with
  | nil =>
    cases h
    rfl
  | cons r rest ih =>
    simp only [Expr.ofResolvedAll, bind_eq_ok, pure_eq_ok] at h
    obtain ⟨q, -, qrest, hqrest, rfl⟩ := h
    rw [List.length_cons, List.length_cons, ih hqrest]

section Building

variable {α β : Type} {x : Build α} {f : α → Build β} {P : α → Prop} {Q : β → Prop}

/-- What is built satisfies `P`, whether or not there is something to complain about. -/
def Builds (x : Build α) (P : α → Prop) : Prop := ∀ complaints, P (x.run complaints).1

theorem builds_pure {a : α} (h : P a) : Builds (pure a) P := fun _ => h

theorem Builds.bind (hx : Builds x P) (hf : ∀ a, P a → Builds (f a) Q) : Builds (x >>= f) Q :=
  fun complaints => hf _ (hx complaints) _

theorem builds_complain (problem : Problem) (span : Span) :
    Builds (complain problem span) fun _ => True := fun _ => trivial

theorem builds_planned {span : Span} {result : Except String α} (h : ∀ a, result = .ok a → P a) :
    Builds (planned span result) fun planning => ∀ a ∈ planning, P a := by
  cases result with
  | ok a =>
    apply builds_pure
    intro b hb
    cases hb
    exact h a rfl
  | error digits =>
    refine (builds_complain _ _).bind fun _ _ => builds_pure ?_
    intro a ha
    cases ha

end Building

variable {S : Slot → Prop} {modules : List Resolved.Module}

theorem builds_expr {e : Resolved.Expr} (h : ∀ v ∈ e.reads, S v.slot) (span : Span) :
    Builds (expr span e) fun planning => ∀ q ∈ planning, ∀ slot ∈ q.slots, S slot := by
  apply builds_planned
  intro q hq
  rw [slots_ofResolved hq]
  exact List.forall_mem_map.mpr h

theorem builds_arms {written : List (Resolved.Expr × Resolved.Expr)}
    (h : ∀ v ∈ written.flatMap fun arm => arm.1.reads ++ arm.2.reads, S v.slot) (span : Span) :
    Builds (arms span written) fun qs =>
      ∀ slot ∈ qs.flatMap fun arm => arm.1.slots ++ arm.2.slots, S slot := by
  induction written with
  | nil => exact builds_pure (by simp)
  | cons arm rest ih =>
    obtain ⟨condition, value⟩ := arm
    simp only [List.flatMap_cons, List.forall_mem_append] at h
    obtain ⟨⟨hcondition, hvalue⟩, hrest⟩ := h
    rw [arms_cons]
    refine (builds_expr hcondition span).bind fun first hfirst => ?_
    have hafter : Builds (armAfter span value first) fun arm =>
        ∀ a ∈ arm, ∀ slot ∈ a.1.slots ++ a.2.slots, S slot := by
      cases first with
      | none => exact builds_pure (by simp)
      | some q =>
        refine (builds_expr hvalue span).bind fun second hsecond => builds_pure ?_
        intro a ha
        obtain ⟨r, hr, rfl⟩ := Option.map_eq_some_iff.mp ha
        exact List.forall_mem_append.mpr ⟨hfirst q rfl, hsecond r hr⟩
    refine hafter.bind fun arm harm => (ih hrest).bind fun others hothers => builds_pure ?_
    rw [List.flatMap_append]
    refine List.forall_mem_append.mpr ⟨?_, hothers⟩
    intro slot hslot
    obtain ⟨a, ha, hslot⟩ := List.mem_flatMap.mp hslot
    exact harm a (Option.mem_toList.mp ha) slot hslot

/-- How many inputs and outputs a module takes, before it is planned. -/
def arityOf (modules : List Resolved.Module) (callee : Nat) : Option (Nat × Nat) :=
  modules[callee]?.map fun m => (m.inputs.length, m.outputs.length)

theorem arityOf_of_findModule {name : String} {index : Nat} {target : Resolved.Module}
    (h : findModule modules name = some (index, target)) :
    arityOf modules index = some (target.inputs.length, target.outputs.length) := by
  unfold findModule at h
  split at h
  · obtain ⟨m, hm, heq⟩ := Option.map_eq_some_iff.mp h
    cases heq
    rw [arityOf, hm]
    rfl
  · cases h

/-- What is planned for a statement keeps to its slots, and calls what there is. -/
structure ItemFits (S : Slot → Prop) (modules : List Resolved.Module)
    (item : List Op × Option Transfer) : Prop where
  ops : ∀ slot ∈ item.1.flatMap Op.slots, S slot
  transfer : ∀ t ∈ item.2, (∀ slot ∈ t.slots, S slot) ∧ t.Fits (arityOf modules)

theorem builds_call {inputs : List Resolved.Expr} {outputs : List Resolved.Var}
    (hinputs : ∀ v ∈ Resolved.Expr.readsAll inputs, S v.slot) (houtputs : ∀ v ∈ outputs, S v.slot)
    (span : Span) (callee : String) :
    Builds (call modules span callee inputs outputs) fun transfer =>
      ∀ t ∈ transfer, (∀ slot ∈ t.slots, S slot) ∧ t.Fits (arityOf modules) := by
  unfold call
  split
  · exact (builds_complain _ _).bind fun _ _ => builds_pure (by simp)
  · rename_i index target hfound
    split
    · exact (builds_complain _ _).bind fun _ _ => builds_pure (by simp)
    · rename_i hcount
      simp only [not_or, not_not] at hcount
      have hplanned : Builds (planned span (Expr.ofResolvedAll inputs)) fun planning =>
          ∀ qs ∈ planning, (∀ slot ∈ Expr.slotsAll qs, S slot) ∧ qs.length = inputs.length := by
        apply builds_planned
        intro qs hqs
        rw [slots_ofResolvedAll hqs]
        exact ⟨List.forall_mem_map.mpr hinputs, length_ofResolvedAll hqs⟩
      refine hplanned.bind fun planning hplanning => builds_pure ?_
      intro t ht
      obtain ⟨qs, hqs, rfl⟩ := Option.map_eq_some_iff.mp ht
      obtain ⟨hslots, hlength⟩ := hplanning qs hqs
      constructor
      · exact List.forall_mem_append.mpr ⟨hslots, List.forall_mem_map.mpr houtputs⟩
      · rw [Transfer.Fits, arityOf_of_findModule hfound, List.length_map, hlength, hcount.1,
          hcount.2]

theorem slots_constraintCheck {s : Resolved.Stmt} (h : s.Uses S) :
    ∀ slot ∈ (constraintCheck s).flatMap Op.slots, S slot := by
  obtain ⟨action, span⟩ := s
  unfold constraintCheck
  split
  · rename_i v value haction
    simp only at haction
    subst haction
    split
    · have hv : S v.slot := h.2 v (by simp [Resolved.Stmt.writes, Resolved.Target.vars])
      simpa [Op.slots, Expr.slots] using hv
    · simp
  · simp

theorem slots_target {t : Resolved.Target} (h : ∀ v ∈ t.vars, S v.slot) :
    ∀ slot ∈ (Target.ofResolved t).slots, S slot := by
  cases t with
  | single v => exact List.forall_mem_map.mpr h
  | destructure vs => exact List.forall_mem_map.mpr h

theorem slots_toList {planning : Option Expr} {op : Expr → Op}
    (h : ∀ q ∈ planning, ∀ slot ∈ (op q).slots, S slot) :
    ∀ slot ∈ (planning.map op).toList.flatMap Op.slots, S slot := by
  cases planning with
  | none => simp
  | some q => simpa using h q rfl

theorem itemFits_rangePlan {target : Resolved.Var} {first last step : Option Expr}
    (htarget : S target.slot) (hfirst : ∀ q ∈ first, ∀ slot ∈ q.slots, S slot)
    (hlast : ∀ q ∈ last, ∀ slot ∈ q.slots, S slot)
    (hstep : ∀ q ∈ step, ∀ slot ∈ q.slots, S slot) :
    ItemFits S modules (rangePlan target first last step) := by
  unfold rangePlan
  split
  · rename_i qfirst qlast qstep
    refine ⟨by simp, ?_⟩
    intro t ht
    cases ht
    refine ⟨List.forall_mem_cons.mpr ⟨htarget, ?_⟩, trivial⟩
    simp only [List.forall_mem_append]
    exact ⟨⟨hfirst qfirst rfl, hlast qlast rfl⟩, hstep qstep rfl⟩
  · constructor <;> simp

/-- One case for each kind of statement, as in the plan of a statement. -/
theorem builds_stmt {s : Resolved.Stmt} (h : s.Uses S) :
    Builds (stmt modules s) (ItemFits S modules) := by
  have hcheck := slots_constraintCheck h
  obtain ⟨action, span⟩ := s
  obtain ⟨hreads, hwrites⟩ := h
  cases action with
  | assign target value =>
    refine (builds_expr hreads span).bind fun planning hplanning => builds_pure ⟨?_, by simp⟩
    simp only [List.flatMap_append, List.forall_mem_append]
    refine ⟨slots_toList fun q hq => ?_, hcheck⟩
    exact List.forall_mem_append.mpr ⟨slots_target hwrites, hplanning q hq⟩
  | range target first last step =>
    rw [stmt_range]
    simp only [Resolved.Stmt.reads, List.forall_mem_append] at hreads
    obtain ⟨⟨hfirst, hlast⟩, hstep⟩ := hreads
    refine (builds_expr hfirst span).bind fun first' hfirst' => ?_
    refine (builds_expr hlast span).bind fun last' hlast' => ?_
    refine (builds_expr hstep span).bind fun step' hstep' => builds_pure ?_
    apply itemFits_rangePlan _ hfirst' hlast' hstep'
    exact hwrites target (by simp [Resolved.Stmt.writes])
  | select target list =>
    refine (builds_expr hreads span).bind fun planning hplanning => builds_pure ⟨by simp, ?_⟩
    intro t ht
    obtain ⟨q, hq, rfl⟩ := Option.map_eq_some_iff.mp ht
    exact ⟨List.forall_mem_append.mpr ⟨slots_target hwrites, hplanning q hq⟩, trivial⟩
  | cases target written =>
    refine (builds_arms hreads span).bind fun qs hqs => builds_pure ⟨?_, by simp⟩
    rw [List.flatMap_singleton]
    exact List.forall_mem_append.mpr ⟨slots_target hwrites, hqs⟩
  | test condition | guard condition =>
    refine (builds_expr hreads span).bind fun planning hplanning => builds_pure ⟨?_, by simp⟩
    exact slots_toList hplanning
  | call callee inputs outputs =>
    refine (builds_call hreads hwrites span callee).bind fun transfer htransfer => ?_
    exact builds_pure ⟨by simp, htransfer⟩
  | malformed => exact builds_pure ⟨by simp, by simp⟩

/-- A block becomes a stage that is well formed. -/
theorem builds_stage {fields locals : Nat} {stmts : List Resolved.Stmt}
    (h : ∀ s ∈ stmts, s.Uses (Slot.Within fields locals)) :
    Builds (stage modules stmts) (Stage.WellFormed (arityOf modules) fields locals) := by
  induction stmts with
  | nil => exact builds_pure ⟨by simp [Stage.slots, Transfer.slots], trivial⟩
  | cons s rest ih =>
    obtain ⟨hfirst, hrest⟩ := List.forall_mem_cons.mp h
    refine (builds_stmt hfirst).bind fun item hitem => ?_
    refine (ih hrest).bind fun after hafter => builds_pure ?_
    obtain ⟨ops, transfer⟩ := item
    have hops := hitem.ops
    obtain ⟨hlater, htransfer⟩ := List.forall_mem_append.mp hafter.slots
    -- the transfer is that of the rest, or that of the first statement
    dsimp only
    split
    · rename_i first _
      obtain ⟨hslots, hfits⟩ := hitem.transfer first rfl
      refine ⟨?_, hfits⟩
      simp only [Stage.slots, List.flatMap_append, List.forall_mem_append]
      exact ⟨⟨hops, hlater⟩, hslots⟩
    · refine ⟨?_, hafter.fits⟩
      simp only [Stage.slots, List.flatMap_append, List.forall_mem_append]
      exact ⟨⟨hops, hlater⟩, htransfer⟩

theorem builds_stages {fields locals : Nat} {blocks : List Schedule.Block}
    (h : ∀ s ∈ Schedule.flatten blocks, s.Uses (Slot.Within fields locals)) :
    Builds (stages modules blocks) fun sts =>
      ∀ st ∈ sts, st.WellFormed (arityOf modules) fields locals := by
  induction blocks with
  | nil => exact builds_pure (by simp)
  | cons block rest ih =>
    rw [Schedule.flatten, List.flatMap_cons, List.forall_mem_append] at h
    refine (builds_stage h.1).bind fun first hfirst => (ih h.2).bind fun others hothers => ?_
    exact builds_pure (List.forall_mem_cons.mpr ⟨hfirst, hothers⟩)

/-- The method has been scheduled from one that keeps to slots that are there. -/
def Scheduled (fields : Nat) (m : Schedule.Method) : Prop :=
  m.resolved.Within fields ∧ Schedule.schedule m.resolved.body = .ok m.blocks

theorem builds_method {fields : Nat} {m : Schedule.Method} (h : Scheduled fields m) :
    Builds (method modules m) (Method.WellFormed (arityOf modules) fields) := by
  obtain ⟨hwithin, hschedule⟩ := h
  have hstmts : ∀ s ∈ Schedule.flatten m.blocks,
      s.Uses (Slot.Within fields m.resolved.locals.length) := by
    intro s hs
    exact hwithin.body s ((Schedule.flatten_perm hschedule).mem_iff.mp hs)
  -- the stages are planned after the guard, if there is one
  have hlater : ∀ guard : Option Expr,
      (∀ q ∈ guard, ∀ slot ∈ q.slots, slot.Within fields m.resolved.locals.length) →
      Builds (do
        let stages ← stages modules m.blocks
        return { number := m.resolved.number, guard
                 locals := m.resolved.locals.map (·.name), stages })
        (Method.WellFormed (arityOf modules) fields) := by
    intro guard hguard
    refine (builds_stages hstmts).bind fun sts hsts => builds_pure ?_
    constructor <;> rw [List.length_map]
    · exact hguard
    · exact hsts
  unfold method
  cases hcondition : m.resolved.guard with
  | none => exact (builds_pure (by simp)).bind hlater
  | some condition => exact (builds_expr (hwithin.guard condition hcondition) _).bind hlater

theorem builds_methods {fields : Nat} {ms : List Schedule.Method}
    (h : ∀ m ∈ ms, Scheduled fields m) :
    Builds (methods modules ms) fun planned =>
      ∀ m ∈ planned, m.WellFormed (arityOf modules) fields := by
  induction ms with
  | nil => exact builds_pure (by simp)
  | cons m rest ih =>
    obtain ⟨hfirst, hrest⟩ := List.forall_mem_cons.mp h
    refine (builds_method hfirst).bind fun first hfirst => (ih hrest).bind fun others hothers => ?_
    exact builds_pure (List.forall_mem_cons.mpr ⟨hfirst, hothers⟩)

/-- A planned module has the fields of the resolved one. -/
theorem builds_moduleOf {m : Schedule.Module}
    (h : ∀ method ∈ m.methods, Scheduled m.resolved.fields.length method) :
    Builds (moduleOf modules m) fun planned => planned.WellFormed (arityOf modules) ∧
      (planned.inputs.length, planned.outputs.length) =
        (m.resolved.inputs.length, m.resolved.outputs.length) := by
  refine (builds_methods h).bind fun planned hplanned => builds_pure ⟨?_, ?_⟩
  · constructor <;> rw [List.length_map]
    · exact List.length_take_le' _ _
    · exact hplanned
  · simp only [Module.inputs, Module.outputs, Resolved.Module.inputs, Resolved.Module.outputs,
      List.length_take, List.length_drop, List.length_map, Prod.mk.injEq]
    omega

theorem modules_ofSchedule {scheduled : List Schedule.Module} {p : Program}
    (h : Program.ofSchedule scheduled = .ok p) :
    p.modules = scheduled.map fun m => ((moduleOf (scheduled.map (·.resolved)) m).run []).1 := by
  unfold Program.ofSchedule at h
  dsimp only at h
  split at h
  · cases h
    simp only [List.map_map]
    rfl
  · cases h

/-- **A plan is well formed** if the slots were right before. -/
theorem wellFormed_ofSchedule {scheduled : List Schedule.Module} {p : Program}
    (hscheduled : ∀ m ∈ scheduled, ∀ method ∈ m.methods,
      Scheduled m.resolved.fields.length method)
    (h : Program.ofSchedule scheduled = .ok p) : p.WellFormed := by
  have hmodules := modules_ofSchedule h
  have hbuilt := fun m hm =>
    @builds_moduleOf (scheduled.map (·.resolved)) m (hscheduled m hm) []
  -- a module keeps its number, and takes the same inputs and outputs as before
  have harity : p.arity? = arityOf (scheduled.map (·.resolved)) := by
    funext callee
    simp only [Program.arity?, arityOf, hmodules, List.getElem?_map, Option.map_map]
    cases hcallee : scheduled[callee]? with
    | none => rfl
    | some m => exact congrArg some (hbuilt m (List.mem_of_getElem? hcallee)).2
  intro planned hplanned
  rw [hmodules] at hplanned
  obtain ⟨m, hm, rfl⟩ := List.mem_map.mp hplanned
  rw [harity]
  exact (hbuilt m hm).1

end Plan

/-! ### Compiling -/

open Resolved (ofSyntax)

theorem resolved_of_lowerAll {units : List Loaded} {lowered : List (Document × Resolved.Module)}
    (h : (lowerAll units).result = .ok lowered) :
    ∀ l ∈ lowered, ∃ unit ∈ units, l.2 = (ofSyntax unit.syntaxTree).value := by
  induction units generalizing lowered with
  | nil =>
    cases h
    simp
  | cons unit rest ih =>
    obtain ⟨others, hothers, rfl⟩ := lowerAll_cons_inv h
    refine List.forall_mem_cons.mpr ⟨⟨unit, by simp, rfl⟩, fun l hl => ?_⟩
    obtain ⟨origin, horigin, heq⟩ := ih hothers l hl
    exact ⟨origin, by simp [horigin], heq⟩

theorem scheduled_of_scheduleModule {lowered : Document × Resolved.Module} {m : Syntax.Module}
    (hlowered : lowered.2 = (ofSyntax m).value) {scheduled : Schedule.Module}
    (h : (scheduleModule lowered).result = .ok scheduled) :
    ∀ method ∈ scheduled.methods, Plan.Scheduled scheduled.resolved.fields.length method := by
  obtain ⟨methods, hmethods, h⟩ := Logged.result_bind_eq_ok.mp h
  cases h
  intro method hmethod
  obtain ⟨resolved, hresolved, hmethod⟩ := Logged.exists_of_mem_mapM hmethods method hmethod
  obtain ⟨blocks, hblocks, rfl⟩ := scheduleMethod_eq_ok hmethod
  dsimp only at hresolved ⊢
  rw [hlowered] at hresolved ⊢
  exact ⟨Resolved.within_ofSyntax m resolved hresolved, hblocks⟩

/-! ### Where scheduled modules come from -/

/-- The module has been resolved from what was read, and its methods hold the statements
    that were resolved. -/
structure Schedule.Module.ComesFrom (m : Schedule.Module) (unit : Loaded) : Prop where
  resolved : m.resolved = (ofSyntax unit.syntaxTree).value
  methods : m.methods.map (·.resolved) = m.resolved.methods
  stmts : ∀ method ∈ m.methods, ∀ block ∈ method.blocks, ∀ s ∈ block.stmts,
    s ∈ method.resolved.body

theorem resolved_of_scheduleMethods {document : Document} {name : String}
    {methods : List Resolved.Method} {scheduled : List Schedule.Method}
    (h : (methods.mapM (scheduleMethod document name)).result = .ok scheduled) :
    scheduled.map (·.resolved) = methods := by
  induction methods generalizing scheduled with
  | nil =>
    rw [List.mapM_nil] at h
    cases h
    rfl
  | cons method rest ih =>
    obtain ⟨first, others, hfirst, hothers, rfl⟩ := Logged.result_mapM_cons_eq_ok.mp h
    obtain ⟨blocks, -, rfl⟩ := scheduleMethod_eq_ok hfirst
    rw [List.map_cons, ih hothers]

theorem comesFrom_of_scheduleModule {unit : Loaded} {lowered : Document × Resolved.Module}
    (hlowered : lowered.2 = (ofSyntax unit.syntaxTree).value) {m : Schedule.Module}
    (h : (scheduleModule lowered).result = .ok m) : m.ComesFrom unit := by
  obtain ⟨methods, hmethods, h⟩ := Logged.result_bind_eq_ok.mp h
  cases h
  refine ⟨hlowered, resolved_of_scheduleMethods hmethods, ?_⟩
  intro method hmethod block hblock s hs
  obtain ⟨resolved, -, hscheduled⟩ := Logged.exists_of_mem_mapM hmethods method hmethod
  obtain ⟨blocks, hblocks, rfl⟩ := scheduleMethod_eq_ok hscheduled
  apply (Schedule.flatten_perm hblocks).mem_iff.mp
  exact List.mem_flatMap.mpr ⟨block, hblock, hs⟩

/-- **Each scheduled module comes from one that was read**, in the same order. -/
theorem comeFrom_of_scheduleAll {units : List Loaded} {lowered : List (Document × Resolved.Module)}
    (hlowered : (lowerAll units).result = .ok lowered) {scheduled : List Schedule.Module}
    (hscheduled : (lowered.mapM scheduleModule).result = .ok scheduled) :
    List.Forall₂ Schedule.Module.ComesFrom scheduled units := by
  induction units generalizing lowered scheduled with
  | nil =>
    cases hlowered
    rw [List.mapM_nil] at hscheduled
    cases hscheduled
    exact .nil
  | cons unit rest ih =>
    obtain ⟨others, hothers, rfl⟩ := lowerAll_cons_inv hlowered
    obtain ⟨first, later, hfirst, hlater, rfl⟩ := Logged.result_mapM_cons_eq_ok.mp hscheduled
    exact .cons (comesFrom_of_scheduleModule rfl hfirst) (ih hothers hlater)

theorem exists_origin {scheduled : List Schedule.Module} {units : List Loaded}
    (h : List.Forall₂ Schedule.Module.ComesFrom scheduled units) :
    ∀ m ∈ scheduled, ∃ unit ∈ units, m.ComesFrom unit := by
  induction h with
  | nil => simp
  | cons hfirst _ ih =>
    intro m hm
    rcases List.mem_cons.mp hm with rfl | hm
    · exact ⟨_, List.mem_cons_self, hfirst⟩
    · obtain ⟨unit, hunit, horigin⟩ := ih m hm
      exact ⟨unit, List.mem_cons_of_mem _ hunit, horigin⟩

theorem toList_append_of_toList {a b : String} {cs ds : List Char} (ha : a.toList = cs)
    (hb : b.toList = ds) : (a ++ b).toList = cs ++ ds := by
  rw [String.toList_append, ha, hb]

/-- What a source is scheduled as. -/
def schedulesOf (options : Options) (source : String) : Logged (List Schedule.Module) := do
  let units ← load options.name source options.sources
  let lowered ← lowerAll units
  lowered.mapM scheduleModule

/-- The plan and the listing of a source are those of what it is scheduled as. -/
theorem origins_of_compile {options : Options} {source : String} {compiled : Compiled}
    (h : (compile options source).result = .ok compiled) :
    ∃ units scheduled,
      (load options.name source options.sources).result = .ok units ∧
      (schedulesOf options source).result = .ok scheduled ∧
      List.Forall₂ Schedule.Module.ComesFrom scheduled units ∧
      Plan.Program.ofSchedule scheduled = .ok compiled.program ∧
      compiled.listing = if options.listing then Listing.text options.name scheduled else "" := by
  obtain ⟨units, lowered, scheduled, hunits, hlowered, hscheduled, hprogram, hlisting, -⟩ :=
    compile_inv h
  refine ⟨units, scheduled, hunits, ?_, comeFrom_of_scheduleAll hlowered hscheduled, hprogram,
    hlisting⟩
  apply Logged.result_bind_eq_ok.mpr
  exact ⟨units, hunits, Logged.result_bind_eq_ok.mpr ⟨lowered, hlowered, hscheduled⟩⟩

/-- **What compiles is well formed.** -/
theorem wellFormed_of_compile {options : Options} {source : String} {compiled : Compiled}
    (h : (compile options source).result = .ok compiled) : compiled.program.WellFormed := by
  obtain ⟨units, lowered, scheduled, -, hlowered, hscheduled, hprogram⟩ := compile_eq_ok h
  refine Plan.wellFormed_ofSchedule ?_ hprogram
  intro m hm
  obtain ⟨l, hl, hm⟩ := Logged.exists_of_mem_mapM hscheduled m hm
  obtain ⟨unit, -, hunit⟩ := resolved_of_lowerAll hlowered l hl
  exact scheduled_of_scheduleModule hunit hm

end CandidateSearch
