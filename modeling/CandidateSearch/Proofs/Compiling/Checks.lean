/-
  CandidateSearch/Proofs/Compiling/Checks.lean
  ============================================
  **Constraints are checked where they are assigned.**

  Each stage of a compiled program is planned from statements of one method, and the slots
  in it go by the names of that method's variables.  A variable with a constraint name that
  is assigned a plain expression is read back and checked by the operation that comes next.

      Fits_constraint = X > 2;        assign outer 1,  check outer 1

  This holds for an assignment to the variable alone; a `case` or a `select` has no check
  after it.
-/
import CandidateSearch.Proofs.Compiling.WellFormed

namespace CandidateSearch

open Source Library

namespace Plan

/-! ### Where stages come from -/

/-- The stage has been planned from the statements. -/
def Stage.Built (modules : List Resolved.Module) (stmts : List Resolved.Stmt) (st : Stage) : Prop :=
  ∃ complaints, st = ((stage modules stmts).run complaints).1

/-- The method has been planned from its schedule. -/
structure Method.Built (modules : List Resolved.Module) (scheduled : Schedule.Method)
    (m : Method) : Prop where
  locals : m.locals = scheduled.resolved.locals.map (·.name)
  stages : ∀ st ∈ m.stages, ∃ block ∈ scheduled.blocks, st.Built modules block.stmts

structure Module.Built (modules : List Resolved.Module) (scheduled : Schedule.Module)
    (m : Module) : Prop where
  fields : m.fields = scheduled.resolved.fields.map fun v => ⟨v.name, v.ty⟩
  methods : ∀ method ∈ m.methods, ∃ origin ∈ scheduled.methods, method.Built modules origin

variable {modules : List Resolved.Module}

theorem builds_any {α : Type} (x : Build α) : Builds x fun _ => True := fun _ => trivial

theorem Builds.of_built {stmts : List Resolved.Stmt} {st : Stage} {P : Stage → Prop}
    (h : Builds (stage modules stmts) P) (hbuilt : st.Built modules stmts) : P st := by
  obtain ⟨complaints, rfl⟩ := hbuilt
  exact h complaints

theorem builds_stages_of (blocks : List Schedule.Block) :
    Builds (stages modules blocks) fun sts =>
      ∀ st ∈ sts, ∃ block ∈ blocks, st.Built modules block.stmts := by
  induction blocks with
  | nil => exact builds_pure (by simp)
  | cons block rest ih =>
    have hfirst : Builds (stage modules block.stmts) (Stage.Built modules block.stmts) :=
      fun complaints => ⟨complaints, rfl⟩
    refine hfirst.bind fun first hfirst => ih.bind fun others hothers => builds_pure ?_
    refine List.forall_mem_cons.mpr ⟨⟨block, List.mem_cons_self, hfirst⟩, ?_⟩
    intro st hst
    obtain ⟨other, hother, hbuilt⟩ := hothers st hst
    exact ⟨other, List.mem_cons_of_mem _ hother, hbuilt⟩

theorem builds_method_of (m : Schedule.Method) :
    Builds (method modules m) (Method.Built modules m) := by
  have hlater : ∀ guard : Option Expr, Builds (do
      let stages ← stages modules m.blocks
      return { number := m.resolved.number, guard
               locals := m.resolved.locals.map (·.name), stages })
      (Method.Built modules m) := by
    intro guard
    exact (builds_stages_of m.blocks).bind fun sts hsts => builds_pure ⟨rfl, hsts⟩
  unfold method
  cases m.resolved.guard with
  | none => exact (builds_any _).bind fun guard _ => hlater guard
  | some condition => exact (builds_any _).bind fun guard _ => hlater guard

theorem builds_methods_of (ms : List Schedule.Method) :
    Builds (methods modules ms) fun planned =>
      ∀ m ∈ planned, ∃ origin ∈ ms, m.Built modules origin := by
  induction ms with
  | nil => exact builds_pure (by simp)
  | cons m rest ih =>
    refine (builds_method_of m).bind fun first hfirst => ih.bind fun others hothers => ?_
    refine builds_pure (List.forall_mem_cons.mpr ⟨⟨m, List.mem_cons_self, hfirst⟩, ?_⟩)
    intro other hother
    obtain ⟨origin, horigin, hbuilt⟩ := hothers other hother
    exact ⟨origin, List.mem_cons_of_mem _ horigin, hbuilt⟩

theorem built_ofSchedule {scheduled : List Schedule.Module} {p : Program}
    (h : Program.ofSchedule scheduled = .ok p) :
    ∀ m ∈ p.modules, ∃ origin ∈ scheduled, m.Built (scheduled.map (·.resolved)) origin := by
  intro m hm
  rw [modules_ofSchedule h] at hm
  obtain ⟨origin, horigin, rfl⟩ := List.mem_map.mp hm
  refine ⟨origin, horigin, ?_⟩
  have hbuilds : Builds (moduleOf (scheduled.map (·.resolved)) origin)
      (Module.Built (scheduled.map (·.resolved)) origin) :=
    (builds_methods_of origin.methods).bind fun methods hmethods => builds_pure ⟨rfl, hmethods⟩
  exact hbuilds []

/-! ### Names -/

/-- The name that a slot goes by in a method. -/
def Module.nameOf (m : Module) (method : Method) : Slot → Option String
  | .outer i => m.fields[i]?.map (·.name)
  | .inner i => method.locals[i]?

/-- The slot goes by a constraint name. -/
def Module.NamesConstraint (m : Module) (method : Method) (slot : Slot) : Prop :=
  ∃ name, m.nameOf method slot = some name ∧ Syntax.isConstraintName name = true

/-! ### Checks -/

/-- Every assignment to a single slot that calls for a check has the check right after it. -/
def ChecksFollow (demanded : Slot → Prop) : List Op → Prop
  | [] => True
  | op :: rest =>
      (∀ slot value, op = .assign (.single slot) value → demanded slot →
        ∃ later, rest = .check (.var slot) :: later) ∧ ChecksFollow demanded rest

variable {demanded : Slot → Prop}

theorem ChecksFollow.append {first second : List Op} (h : ChecksFollow demanded first)
    (h' : ChecksFollow demanded second) : ChecksFollow demanded (first ++ second) := by
  induction first with
  | nil => exact h'
  | cons op rest ih =>
    refine ⟨?_, ih h.2⟩
    intro slot value hop hslot
    obtain ⟨later, rfl⟩ := h.1 slot value hop hslot
    exact ⟨later ++ second, rfl⟩

theorem checksFollow_of_forall {ops : List Op}
    (h : ∀ op ∈ ops, ∀ slot value, op ≠ .assign (.single slot) value) :
    ChecksFollow demanded ops := by
  induction ops with
  | nil => trivial
  | cons op rest ih =>
    obtain ⟨hop, hrest⟩ := List.forall_mem_cons.mp h
    exact ⟨fun slot value heq => absurd heq (hop slot value), ih hrest⟩

theorem checksFollow_constraintCheck (s : Resolved.Stmt) :
    ChecksFollow demanded (constraintCheck s) := by
  apply checksFollow_of_forall
  unfold constraintCheck
  split
  · split <;> simp
  · simp

/-- The assignment and its check.  The name of the variable decides whether there is one. -/
theorem checksFollow_assign {target : Resolved.Target} {value : Resolved.Expr} {span : Span}
    (h : ∀ v ∈ target.vars, demanded v.slot → Syntax.isConstraintName v.name = true) (q : Expr) :
    ChecksFollow demanded (.assign (.ofResolved target) q ::
      constraintCheck ⟨.assign target value, span⟩) := by
  refine ⟨?_, checksFollow_constraintCheck _⟩
  intro slot q' hop hslot
  cases target with
  | destructure vs => cases hop
  | single v =>
    cases hop
    have hname := h v (by simp [Resolved.Target.vars]) hslot
    have hconstraint : (Resolved.Stmt.mk (.assign (.single v) value) span).isConstraint = true := by
      simpa [Resolved.Stmt.isConstraint, Resolved.Target.name?, Resolved.Target.vars] using hname
    exact ⟨[], by simp [constraintCheck, hconstraint]⟩

theorem builds_checks {s : Resolved.Stmt}
    (h : ∀ v ∈ s.writes, demanded v.slot → Syntax.isConstraintName v.name = true) :
    Builds (stmt modules s) fun item => ChecksFollow demanded item.1 := by
  obtain ⟨action, span⟩ := s
  cases action with
  | assign target value =>
    refine (builds_any _).bind fun planning _ => builds_pure ?_
    cases planning with
    | none => exact checksFollow_constraintCheck _
    | some q => exact checksFollow_assign h q
  | range target first last step =>
    rw [stmt_range]
    refine (builds_any _).bind fun _ _ => (builds_any _).bind fun _ _ => ?_
    refine (builds_any _).bind fun _ _ => builds_pure ?_
    unfold rangePlan
    split <;> trivial
  | select target list => exact (builds_any _).bind fun _ _ => builds_pure trivial
  | cases target written =>
    refine (builds_any _).bind fun _ _ => builds_pure (checksFollow_of_forall ?_)
    simp
  | test condition | guard condition =>
    refine (builds_any _).bind fun planning _ => builds_pure (checksFollow_of_forall ?_)
    cases planning <;> simp
  | call callee inputs outputs => exact (builds_any _).bind fun _ _ => builds_pure trivial
  | malformed => exact builds_pure trivial

theorem builds_stage_checks {stmts : List Resolved.Stmt}
    (h : ∀ s ∈ stmts, ∀ v ∈ s.writes, demanded v.slot → Syntax.isConstraintName v.name = true) :
    Builds (stage modules stmts) fun st => ChecksFollow demanded st.ops := by
  induction stmts with
  | nil => exact builds_pure trivial
  | cons s rest ih =>
    obtain ⟨hfirst, hrest⟩ := List.forall_mem_cons.mp h
    refine (builds_checks hfirst).bind fun item hitem => (ih hrest).bind fun later hlater => ?_
    exact builds_pure (hitem.append hlater)

end Plan

namespace Resolved

theorem slot_of_fieldsOf {groups : List (List Syntax.Var)} {i : Nat} {w : Var}
    (h : (fieldsOf groups)[i]? = some w) : w.slot = .outer i := by
  unfold fieldsOf at h
  dsimp only at h
  rw [List.getElem?_mapIdx, Option.map_eq_some_iff] at h
  obtain ⟨⟨v, input⟩, -, rfl⟩ := h
  rfl

theorem slot_of_localsOf {vs : List Syntax.Var} {i : Nat} {w : Var}
    (h : (localsOf vs)[i]? = some w) : w.slot = .inner i := by
  rw [localsOf, List.getElem?_mapIdx, Option.map_eq_some_iff] at h
  obtain ⟨v, -, rfl⟩ := h
  rfl

/-- What is found in the tables goes by its own name in the plan. -/
theorem nameOf_of_find? {groups : List (List Syntax.Var)} {locals : List Syntax.Var}
    {m : Plan.Module} {method : Plan.Method}
    (hfields : m.fields = (fieldsOf groups).map fun v => ⟨v.name, v.ty⟩)
    (hlocals : method.locals = (localsOf locals).map (·.name)) {k : Key} {w : Var}
    (h : Env.find? ⟨fieldsOf groups, localsOf locals⟩ k = some w) :
    m.nameOf method w.slot = some w.name := by
  rcases mem_of_find? h with hfield | hlocal
  · obtain ⟨i, hi⟩ := List.mem_iff_getElem?.mp hfield
    simp [slot_of_fieldsOf hi, Plan.Module.nameOf, hfields, hi]
  · obtain ⟨i, hi⟩ := List.mem_iff_getElem?.mp hlocal
    simp [slot_of_localsOf hi, Plan.Module.nameOf, hlocals, hi]

end Resolved

/-- **Where a stage comes from.**  It has been planned from statements of one method, and
    the slots go by the names of the variables there. -/
theorem stage_origin {options : Options} {source : String} {compiled : Compiled}
    (h : (compile options source).result = .ok compiled) {m : Plan.Module}
    (hm : m ∈ compiled.program.modules) {method : Plan.Method} (hmethod : method ∈ m.methods)
    {st : Plan.Stage} (hst : st ∈ method.stages) :
    ∃ modules stmts, st.Built modules stmts ∧
      ∀ s ∈ stmts, s.Mentions fun v => m.nameOf method v.slot = some v.name := by
  obtain ⟨units, lowered, scheduled, -, hlowered, hscheduled, hprogram⟩ := compile_eq_ok h
  obtain ⟨origin, horigin, hfields, hmethods⟩ := Plan.built_ofSchedule hprogram m hm
  obtain ⟨l, hl, hscheduled⟩ := Logged.exists_of_mem_mapM hscheduled origin horigin
  obtain ⟨unit, -, hunit⟩ := resolved_of_lowerAll hlowered l hl
  obtain ⟨planned, hplanned, hscheduled⟩ := Logged.result_bind_eq_ok.mp hscheduled
  cases hscheduled
  obtain ⟨scheduled', hscheduled', hlocals, hstages⟩ := hmethods method hmethod
  obtain ⟨resolved, hresolved, hblocks⟩ := Logged.exists_of_mem_mapM hplanned scheduled' hscheduled'
  obtain ⟨blocks, hschedule, rfl⟩ := scheduleMethod_eq_ok hblocks
  obtain ⟨block, hblock, hbuilt⟩ := hstages st hst
  refine ⟨_, block.stmts, hbuilt, ?_⟩
  dsimp only at hresolved hfields hlocals
  rw [hunit] at hresolved hfields
  obtain ⟨number, written, -, rfl⟩ := Resolved.exists_of_mem_ofSyntax hresolved
  intro s hs
  have hbody : s ∈
      (Resolved.methodOf (Resolved.fieldsOf unit.syntaxTree.groups) number written).value.body := by
    apply (Schedule.flatten_perm hschedule).mem_iff.mp
    exact List.mem_flatMap.mpr ⟨block, hblock, hs⟩
  refine ((Resolved.mentions_methodOf _ number written).body s hbody).mono ?_
  exact fun v ⟨k, hfound⟩ => Resolved.nameOf_of_find? hfields hlocals hfound

/-- **Constraints are checked.**  In a compiled program an assignment to a slot with a
    constraint name alone is followed by a check of that slot. -/
theorem checksFollow_of_compile {options : Options} {source : String} {compiled : Compiled}
    (h : (compile options source).result = .ok compiled) {m : Plan.Module}
    (hm : m ∈ compiled.program.modules) {method : Plan.Method} (hmethod : method ∈ m.methods)
    {st : Plan.Stage} (hst : st ∈ method.stages) :
    Plan.ChecksFollow (m.NamesConstraint method) st.ops := by
  obtain ⟨modules, stmts, hbuilt, hnames⟩ := stage_origin h hm hmethod hst
  refine Plan.Builds.of_built (Plan.builds_stage_checks ?_) hbuilt
  rintro s hs v hv ⟨name, hname, hconstraint⟩
  rw [(hnames s hs).2 v hv] at hname
  cases hname
  exact hconstraint

end CandidateSearch
