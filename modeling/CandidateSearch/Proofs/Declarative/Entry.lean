/-
  CandidateSearch/Proofs/Declarative/Entry.lean
  =============================================
  **What becomes of the first module of a source.**

  Compiling goes from the text to its modules, from these to modules with slots, to
  schedules and to a plan.  A program that has been compiled starts with the module that
  stands first in the source: what is called comes after it, and every later step treats
  the modules one by one (`entry_of_compile`).
-/
import CandidateSearch.Compile
import CandidateSearch.Proofs.Declarative.Planning

namespace CandidateSearch

open Source Library

/-! ### Results with a log -/

namespace Logged

variable {α β : Type}

theorem result_bind_eq_ok {x : Logged α} {f : α → Logged β} {b : β} :
    (x >>= f).result = .ok b ↔ ∃ a, x.result = .ok a ∧ (f a).result = .ok b := by
  show (Logged.bind x f).result = .ok b ↔ _
  unfold Logged.bind
  cases x.result <;> simp

theorem result_bind_eq_error {x : Logged α} {f : α → Logged β} {diagnostics : List Diagnostic} :
    (x >>= f).result = .error diagnostics ↔ x.result = .error diagnostics ∨
      ∃ a, x.result = .ok a ∧ (f a).result = .error diagnostics := by
  show (Logged.bind x f).result = .error diagnostics ↔ _
  unfold Logged.bind
  cases x.result <;> simp

theorem result_finish_eq_ok {stage : Stage} {file : String} {diagnostics : List Diagnostic}
    {a b : α} : (finish stage file diagnostics a).result = .ok b ↔ diagnostics = [] ∧ a = b := by
  unfold finish
  cases diagnostics <;> simp

theorem result_finish_eq_error {stage : Stage} {file : String}
    {diagnostics reported : List Diagnostic} {a : α}
    (h : (finish stage file diagnostics a).result = .error reported) : reported = diagnostics := by
  unfold finish at h
  split at h
  · cases h
  · exact (Except.error.inj h).symm

instance : LawfulMonad Logged := LawfulMonad.mk' Logged
  (fun {_} x => by
    obtain ⟨events, result⟩ := x
    show Logged.bind _ _ = _
    cases result <;> simp [Logged.bind, Function.comp])
  (fun a f => by
    show Logged.bind ⟨[], .ok a⟩ f = f a
    simp [Logged.bind])
  (fun x f g => by
    show Logged.bind (Logged.bind x f) g = Logged.bind x fun a => Logged.bind (f a) g
    obtain ⟨events, result⟩ := x
    cases result with
    | error diagnostics => rfl
    | ok a =>
      rcases hf : f a with ⟨events', result'⟩
      cases result' <;> simp [Logged.bind, hf])

theorem result_mapM_cons_eq_ok {f : α → Logged β} {a : α} {rest : List α} {bs : List β} :
    ((a :: rest).mapM f).result = .ok bs ↔
      ∃ b others, (f a).result = .ok b ∧ (rest.mapM f).result = .ok others ∧ bs = b :: others := by
  rw [List.mapM_cons, result_bind_eq_ok]
  constructor
  · rintro ⟨b, hb, h⟩
    obtain ⟨others, hothers, h⟩ := result_bind_eq_ok.mp h
    cases h
    exact ⟨b, others, hb, hothers, rfl⟩
  · rintro ⟨b, others, hb, hothers, rfl⟩
    exact ⟨b, hb, result_bind_eq_ok.mpr ⟨others, hothers, rfl⟩⟩

theorem exists_of_mem_mapM {f : α → Logged β} {items : List α} {bs : List β}
    (h : (items.mapM f).result = .ok bs) : ∀ b ∈ bs, ∃ a ∈ items, (f a).result = .ok b := by
  induction items generalizing bs with
  | nil =>
    rw [List.mapM_nil] at h
    cases h
    simp
  | cons a rest ih =>
    obtain ⟨b, others, hb, hothers, rfl⟩ := result_mapM_cons_eq_ok.mp h
    intro c hc
    rcases List.mem_cons.mp hc with rfl | hc
    · exact ⟨a, by simp, hb⟩
    · obtain ⟨a', ha', hc⟩ := ih hothers c hc
      exact ⟨a', by simp [ha'], hc⟩

end Logged

/-! ### Loading -/

namespace Library

/-- Modules are only added, behind those that are there. -/
def State.Keeps (s s' : State) : Prop := s.units <+: s'.units

theorem State.keeps_add (document : Document) (s : State) (m : Syntax.Module) :
    s.Keeps (s.add document m) := by
  unfold State.add
  split
  · exact List.prefix_rfl
  · exact List.prefix_append _ _

theorem State.keeps_foldl_add (document : Document) (modules : List Syntax.Module) (s : State) :
    s.Keeps (modules.foldl (State.add document) s) := by
  induction modules generalizing s with
  | nil => exact List.prefix_rfl
  | cons m rest ih => exact (s.keeps_add document m).trans (ih _)

theorem State.keeps_load {s s' : State} {name text : String}
    (h : (s.load name text).result = .ok s') : s.Keeps s' := by
  obtain ⟨modules, -, h⟩ := Logged.result_bind_eq_ok.mp h
  cases h
  exact s.keeps_foldl_add _ modules

theorem State.keeps_request {sources : Sources} {s s' : State} {name : String}
    (h : (s.request sources name).result = .ok s') : s.Keeps s' := by
  unfold State.request at h
  split at h
  · cases h
    exact List.prefix_rfl
  · dsimp only at h
    split at h
    · obtain ⟨-, -, h⟩ := Logged.result_bind_eq_ok.mp h
      have hkeeps := State.keeps_load h
      exact hkeeps
    · cases h
      exact List.prefix_rfl

theorem State.keeps_resolve {sources : Sources} {caller : Document} {s s' : State}
    {call : String × Span} (h : (s.resolve sources caller call).result = .ok s') : s.Keeps s' := by
  unfold State.resolve at h
  dsimp only at h
  split at h
  · cases h
    exact List.prefix_rfl
  · obtain ⟨s₁, hs₁, h⟩ := Logged.result_bind_eq_ok.mp h
    have hkeeps := State.keeps_request hs₁
    cases h
    split
    · exact hkeeps
    · unfold State.reportUndefined
      dsimp only
      split <;> exact hkeeps

theorem keeps_foldlM {α : Type} {f : State → α → Logged State}
    (hf : ∀ s a s', (f s a).result = .ok s' → s.Keeps s') {items : List α} {s s' : State}
    (h : (items.foldlM f s).result = .ok s') : s.Keeps s' := by
  induction items generalizing s with
  | nil =>
    cases h
    exact List.prefix_rfl
  | cons a rest ih =>
    rw [List.foldlM_cons] at h
    obtain ⟨s₁, hs₁, h⟩ := Logged.result_bind_eq_ok.mp h
    exact (hf s a s₁ hs₁).trans (ih h)

theorem keeps_close {sources : Sources} {fuel : Nat} {units : List Loaded} {s s' : State}
    (h : (close sources fuel units s).result = .ok s') : s.Keeps s' := by
  induction fuel generalizing units s with
  | zero =>
    cases h
    exact List.prefix_rfl
  | succ fuel ih =>
    obtain ⟨after, hafter, h⟩ := Logged.result_bind_eq_ok.mp h
    have hkeeps : s.Keeps after := keeps_foldlM
      (fun s unit s' h => keeps_foldlM (fun s call s' h => State.keeps_resolve h) h) hafter
    dsimp only at h
    split at h
    · cases h
      exact hkeeps
    · exact hkeeps.trans (ih h)

/-- The first module of the text is the first one loaded. -/
theorem head_of_load {name text : String} {sources : Sources} {units : List Loaded}
    {m : Syntax.Module} {rest : List Syntax.Module}
    (h : (load name text sources).result = .ok units)
    (hread : (read (Document.ofText name text)).result = .ok (m :: rest)) :
    ∃ others, units = ⟨Document.ofText name text, m⟩ :: others := by
  obtain ⟨s, hs, h⟩ := Logged.result_bind_eq_ok.mp h
  obtain ⟨modules, hmodules, hs⟩ := Logged.result_bind_eq_ok.mp hs
  rw [hread] at hmodules
  cases hmodules
  cases hs
  have hfirst : [⟨Document.ofText name text, m⟩] <+:
      ((m :: rest).foldl (State.add (Document.ofText name text)) {}).units :=
    State.keeps_foldl_add (Document.ofText name text) rest
      { units := [⟨Document.ofText name text, m⟩] }
  split at h
  · cases h
  obtain ⟨s', hs', h⟩ := Logged.result_bind_eq_ok.mp h
  split at h
  · obtain ⟨-, -, h⟩ := Logged.result_bind_eq_ok.mp h
    cases h
    obtain ⟨others, hothers⟩ := hfirst.trans (keeps_close hs')
    exact ⟨others, hothers.symm⟩
  · cases h

end Library

/-! ### Slots, schedules and plans -/

theorem lowerAll_cons_inv {unit : Loaded} {rest : List Loaded}
    {lowered : List (Document × Resolved.Module)}
    (h : (lowerAll (unit :: rest)).result = .ok lowered) :
    ∃ others, (lowerAll rest).result = .ok others ∧
      lowered = (unit.document, (Resolved.ofSyntax unit.syntaxTree).value) :: others := by
  rw [lowerAll] at h
  dsimp only at h
  cases hfirst : (lower unit).result with
  | error diagnostics =>
    rw [hfirst] at h
    cases hothers : (lowerAll rest).result <;> simp [hothers] at h
  | ok first =>
    rw [hfirst] at h
    cases hothers : (lowerAll rest).result with
    | error diagnostics => simp [hothers] at h
    | ok others =>
      obtain ⟨-, -, hfirst⟩ := Logged.result_bind_eq_ok.mp hfirst
      obtain ⟨-, rfl⟩ := Logged.result_finish_eq_ok.mp hfirst
      simp only [hothers, Except.ok.injEq] at h
      exact ⟨others, rfl, h.symm⟩

theorem scheduleMethod_eq_ok {document : Document} {name : String} {method : Resolved.Method}
    {scheduled : Schedule.Method}
    (h : (scheduleMethod document name method).result = .ok scheduled) :
    ∃ blocks, Schedule.schedule method.body = .ok blocks ∧ scheduled = ⟨method, blocks⟩ := by
  unfold scheduleMethod at h
  split at h
  · rename_i blocks hblocks
    obtain ⟨-, -, h⟩ := Logged.result_bind_eq_ok.mp h
    obtain ⟨-, -, h⟩ := Logged.result_bind_eq_ok.mp h
    cases h
    exact ⟨blocks, hblocks, rfl⟩
  · cases h

theorem scheduleModule_of_single {document : Document} {resolved : Resolved.Module}
    {method : Resolved.Method} (hmethods : resolved.methods = [method])
    {scheduled : Schedule.Module}
    (h : (scheduleModule (document, resolved)).result = .ok scheduled) :
    ∃ blocks, Schedule.schedule method.body = .ok blocks ∧
      scheduled = ⟨document, resolved, [⟨method, blocks⟩]⟩ := by
  obtain ⟨methods, hmapped, h⟩ := Logged.result_bind_eq_ok.mp h
  cases h
  rw [hmethods] at hmapped
  obtain ⟨first, others, hfirst, hothers, rfl⟩ := Logged.result_mapM_cons_eq_ok.mp hmapped
  obtain rfl : [] = others := by simpa [List.mapM_nil, pure] using hothers
  obtain ⟨blocks, hblocks, rfl⟩ := scheduleMethod_eq_ok hfirst
  exact ⟨blocks, hblocks, rfl⟩

theorem resolved_of_scheduleAll {lowered : List (Document × Resolved.Module)}
    {scheduled : List Schedule.Module}
    (h : (lowered.mapM scheduleModule).result = .ok scheduled) :
    scheduled.map (·.resolved) = lowered.map (·.2) := by
  induction lowered generalizing scheduled with
  | nil =>
    rw [List.mapM_nil] at h
    cases h
    rfl
  | cons l rest ih =>
    obtain ⟨first, others, hfirst, hothers, rfl⟩ := Logged.result_mapM_cons_eq_ok.mp h
    obtain ⟨methods, -, hfirst⟩ := Logged.result_bind_eq_ok.mp hfirst
    cases hfirst
    rw [List.map_cons, List.map_cons, ih hothers]

namespace Plan

theorem settled_method (modules : List Resolved.Module) (m : Schedule.Method) :
    Settled (method modules m) := by
  unfold method
  cases m.resolved.guard with
  | none => exact (settled_pure _).bind fun _ => (settled_stages _ _).bind fun _ => settled_pure _
  | some condition =>
    exact (settled_expr _ _).bind fun _ => (settled_stages _ _).bind fun _ => settled_pure _

theorem settled_methods (modules : List Resolved.Module) (ms : List Schedule.Method) :
    Settled (methods modules ms) := by
  induction ms with
  | nil => exact settled_pure _
  | cons m rest ih => exact (settled_method modules m).bind fun _ => ih.bind fun _ => settled_pure _

theorem Yields.moduleOf_inv {modules : List Resolved.Module} {document : Document}
    {resolved : Resolved.Module} {m : Resolved.Method} {blocks : List Schedule.Block}
    (hguard : m.guard = none) {planned : Module}
    (h : Yields (moduleOf modules ⟨document, resolved, [⟨m, blocks⟩]⟩) planned) :
    ∃ stages, Yields (Plan.stages modules blocks) stages ∧
      planned = ⟨resolved.name, resolved.fields.map fun v => ⟨v.name, v.ty⟩,
        resolved.inputs.length, [⟨m.number, none, m.locals.map (·.name), stages⟩]⟩ := by
  obtain ⟨ms, hms, h⟩ := h.bind_inv (settled_methods _ _) fun _ => settled_pure _
  cases h.pure_inv
  obtain ⟨first, hfirst, hms⟩ := hms.bind_inv (settled_method _ _) fun _ =>
    (settled_methods _ _).bind fun _ => settled_pure _
  obtain ⟨rest, hrest, hms⟩ := hms.bind_inv (settled_methods _ _) fun _ => settled_pure _
  cases hrest.pure_inv
  cases hms.pure_inv
  unfold method at hfirst
  dsimp only at hfirst
  rw [hguard] at hfirst
  obtain ⟨guard, hnone, hfirst⟩ := hfirst.bind_inv (settled_pure _) fun _ =>
    (settled_stages _ _).bind fun _ => settled_pure _
  obtain ⟨stages, hstages, hfirst⟩ := hfirst.bind_inv (settled_stages _ _) fun _ => settled_pure _
  cases hnone.pure_inv
  cases hfirst.pure_inv
  exact ⟨stages, hstages, rfl⟩

theorem yields_of_ofSchedule {scheduled : Schedule.Module} {rest : List Schedule.Module}
    {p : Program} (h : Program.ofSchedule (scheduled :: rest) = .ok p) :
    ∃ planned, Yields (moduleOf ((scheduled :: rest).map (·.resolved)) scheduled) planned ∧
      p.entry? = some planned := by
  unfold Program.ofSchedule at h
  dsimp only at h
  split at h
  · rename_i hempty
    cases h
    refine ⟨_, ?_, rfl⟩
    simp only [List.map_cons, List.flatMap_cons, List.isEmpty_iff, List.append_eq_nil_iff]
      at hempty
    exact Prod.ext rfl (List.map_eq_nil_iff.mp hempty.1)
  · cases h

end Plan

/-- The stages that a source goes through, and the listing of what is scheduled and the manifest
    of what is planned. -/
theorem compile_inv {options : Options} {source : String} {compiled : Compiled}
    (h : (compile options source).result = .ok compiled) :
    ∃ units lowered scheduled,
      (load options.name source options.sources).result = .ok units ∧
      (lowerAll units).result = .ok lowered ∧
      (lowered.mapM scheduleModule).result = .ok scheduled ∧
      Plan.Program.ofSchedule scheduled = .ok compiled.program ∧
      compiled.listing = (if options.listing then Listing.text options.name scheduled else "") ∧
      compiled.manifest = .ofProgram compiled.program := by
  obtain ⟨units, hunits, h⟩ := Logged.result_bind_eq_ok.mp h
  obtain ⟨-, -, h⟩ := Logged.result_bind_eq_ok.mp h
  obtain ⟨lowered, hlowered, h⟩ := Logged.result_bind_eq_ok.mp h
  obtain ⟨-, -, h⟩ := Logged.result_bind_eq_ok.mp h
  obtain ⟨scheduled, hscheduled, h⟩ := Logged.result_bind_eq_ok.mp h
  obtain ⟨-, -, h⟩ := Logged.result_bind_eq_ok.mp h
  obtain ⟨program, hprogram, h⟩ := Logged.result_bind_eq_ok.mp h
  obtain ⟨-, -, h⟩ := Logged.result_bind_eq_ok.mp h
  cases h
  exact ⟨units, lowered, scheduled, hunits, hlowered, hscheduled, hprogram, rfl, rfl⟩

theorem compile_eq_ok {options : Options} {source : String} {compiled : Compiled}
    (h : (compile options source).result = .ok compiled) :
    ∃ units lowered scheduled,
      (load options.name source options.sources).result = .ok units ∧
      (lowerAll units).result = .ok lowered ∧
      (lowered.mapM scheduleModule).result = .ok scheduled ∧
      Plan.Program.ofSchedule scheduled = .ok compiled.program := by
  obtain ⟨units, lowered, scheduled, hunits, hlowered, hscheduled, hprogram, -⟩ :=
    compile_inv h
  exact ⟨units, lowered, scheduled, hunits, hlowered, hscheduled, hprogram⟩

/-! ### The first module -/

open Resolved (fieldsOf localsOf methodOf ofSyntax)

/-- The plan of a module with one method and no guard. -/
def entryPlan (m : Syntax.Module) (method : Syntax.Method) (stages : List Plan.Stage) :
    Plan.Module where
  name := m.name
  fields := (fieldsOf m.groups).map fun v => ⟨v.name, v.ty⟩
  inputCount := (ofSyntax m).value.inputs.length
  methods := [⟨1, none, (localsOf method.locals).map (·.name), stages⟩]

/-- **The entry of a compiled program** is the plan of the first module of the source. -/
theorem entry_of_compile {options : Options} {source : String} {compiled : Compiled}
    {m : Syntax.Module} {rest : List Syntax.Module} {method : Syntax.Method}
    (hcompile : (compile options source).result = .ok compiled)
    (hentry : (Library.read (Document.ofText options.name source)).result = .ok (m :: rest))
    (honly : m.methods = [method]) (hguard : method.guard = none) :
    ∃ modules blocks stages,
      Schedule.schedule (methodOf (fieldsOf m.groups) 1 method).value.body = .ok blocks ∧
      Plan.Yields (Plan.stages modules blocks) stages ∧
      compiled.program.entry? = some (entryPlan m method stages) := by
  obtain ⟨units, lowered, scheduled, hunits, hlowered, hscheduled, hprogram⟩ :=
    compile_eq_ok hcompile
  obtain ⟨units', rfl⟩ := head_of_load hunits hentry
  obtain ⟨lowered', -, rfl⟩ := lowerAll_cons_inv hlowered
  obtain ⟨first, others, hfirst, -, rfl⟩ := Logged.result_mapM_cons_eq_ok.mp hscheduled
  have hmethods : (ofSyntax m).value.methods = [(methodOf (fieldsOf m.groups) 1 method).value] := by
    simp [ofSyntax, honly]
  obtain ⟨blocks, hblocks, rfl⟩ := scheduleModule_of_single hmethods hfirst
  obtain ⟨planned, hplanned, hhead⟩ := Plan.yields_of_ofSchedule hprogram
  have hnone : (methodOf (fieldsOf m.groups) 1 method).value.guard = none := by
    simp [methodOf, Resolved.Env.guard, hguard]
  obtain ⟨stages, hstages, rfl⟩ := hplanned.moduleOf_inv hnone
  exact ⟨_, blocks, stages, hblocks, hstages, hhead⟩

end CandidateSearch
